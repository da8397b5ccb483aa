import ModuleGraph.Proofs.Path.Directory

/-!
Paths below a directory, however they are written.

* `isAbsolute_tidy`, `root_tidy`: a tidy path has the same root;
* `root_join_absolute`, `names_normalize_join_absolute`: what a relative path seen from a directory
  comes to, also if there are steps upwards in the path of the directory;
* `leavesStart_relative_iff`: a way stays in the directory where it starts exactly if the names of
  the directory are the first ones of the path.
-/

namespace ModuleGraph
namespace Path

variable {p a b n cwd start : Text}

theorem isStep_of_mem_names (h : n ∈ names p) : IsStep n :=
  ⟨(mem_names h).1, (mem_names h).2.1, (mem_names h).2.2⟩

section Tidy

variable (h : isAbsolute p = true)
include h

theorem isAbsolute_tidy : isAbsolute (tidy p) = true := isAbsolute_write (isLead_root h)

theorem root_tidy : root (tidy p) = root p :=
  root_write_steps (isLead_root h) fun _ => isStep_of_mem_names

end Tidy

/-- A relative path seen from a directory has the root of the directory. -/
theorem root_join_absolute (ha : isAbsolute a = true) (hb : isAbsolute b = false) :
    root (join a b) = root a := by
  have hb' : b.head? ≠ some slash := by simpa [isAbsolute] using hb
  have hne : a ≠ [] := by
    rintro rfl
    cases ha
  rw [join, if_neg (by simp [hb])]
  split
  · obtain ⟨tail, ha, htail, hlast⟩ := exists_trimSlashes a
    by_cases htrim : trimSlashes a = []
    · rw [htrim, List.nil_append] at ha
      rw [root_slashes_append hne (ha ▸ htail) hb']
    · rw [ha, List.append_assoc, root_append_of_getLast? htrim hlast,
        root_append_of_getLast? htrim hlast]
  · next hslash =>
    simp only [Bool.or_eq_true, List.isEmpty_iff, beq_iff_eq, not_or] at hslash
    exact root_append_of_getLast? hne hslash.2 _

/-- The steps of a relative path are made from where the directory leads. -/
theorem names_normalize_join_absolute (ha : isAbsolute a = true) (hb : isAbsolute b = false) :
    names (normalize (join a b)) = follow (names (normalize a)) (names b) := by
  rw [names_normalize_follow (isAbsolute_join ha b), names_normalize_follow ha, ← follow_names,
    ← follow_names, names_join hb, follow_append]

theorem names_normalize_join_name (ha : isAbsolute a = true) (hn : IsName n) :
    names (normalize (join a n)) = names (normalize a) ++ [n] := by
  have hrelative : isAbsolute n = false := isAbsolute_eq_false fun hhead =>
    hn.no_slash (List.mem_of_mem_head? hhead)
  rw [names_normalize_join_absolute ha hrelative, names_of_isName hn]
  exact step_name _ hn

theorem relative_normalize (hp : isAbsolute p = true) :
    relative cwd (normalize p) start = relative cwd p start := by
  have habsolute : absoluteNames cwd (normalize p) = absoluteNames cwd p := by
    rw [absoluteNames, absoluteNames, (isNormal_normalize hp).absolute_eq, absolute, if_pos hp]
  rw [relative, relative, habsolute]

/-- A way stays in the directory where it starts if and only if the path is the directory or
something below it. -/
theorem leavesStart_relative_iff (hp : IsNormal p) (hs : IsNormal start) :
    leavesStart (relative cwd p start) = false ↔ names start <+: names p := by
  constructor
  · intro hstays
    by_cases hhere : relative cwd p start = here
    · exact ⟨[], by rw [names_of_relative_eq_here hp hs hhere, List.append_nil]⟩
    · obtain ⟨below, -, hnames, -⟩ := (relative_iff hp hs).mp ⟨hhere, hstays, rfl⟩
      exact ⟨below, hnames.symm⟩
  · rintro ⟨below, hnames⟩
    by_cases hbelow : below = []
    · rw [hbelow, List.append_nil] at hnames
      have hcommon := afterCommon_append (names start) []
      rw [List.append_nil] at hcommon
      rw [relative_eq hp hs, ← hnames, hcommon]
      decide
    · exact ((relative_iff hp hs).mpr ⟨below, hbelow, hnames.symm, rfl⟩).2.1

end Path
end ModuleGraph
