import ModuleGraph.Proofs.Path

/-!
Ways from one directory to another.

* `leavesStart_join`, `names_of_relative_eq_here`: a way made of names goes down, and one that stays
  where it is leads to its start;
* `relative_iff`: the way to a place neither stays nor leaves its start just if the place is below
  the start, and then it names what is below.
-/

namespace ModuleGraph
namespace Path

variable {p n way : Text} {ns : List Text} {cwd start : Text}

theorem isAbsolute_eq_false (h : p.head? ≠ some slash) : isAbsolute p = false := by
  simpa [isAbsolute] using h

theorem names_of_isName (h : IsName n) : names n = [n] := by
  have hjoin : Text.join [slash] [n] = n := by simp [Text.join]
  rw [← hjoin, names_join_names fun m hm => List.mem_singleton.mp hm ▸ h, hjoin]

theorem join_names_ne_nil (hne : ns ≠ []) (h : ∀ n ∈ ns, IsName n) :
    Text.join [slash] ns ≠ [] := by
  intro hnil
  have hnames := names_join_names h
  rw [hnil] at hnames
  exact hne hnames.symm

theorem afterCommon_append (as bs : List Text) : afterCommon as (as ++ bs) = ([], bs) := by
  induction as with
  | nil => cases bs <;> rfl
  | cons a as ih => rw [List.cons_append, afterCommon, if_pos rfl, ih]

/-- A way down to some names does not leave its start. -/
theorem leavesStart_join (hns : ∀ n ∈ ns, IsName n) :
    leavesStart (Text.join [slash] ns) = false := by
  have hnames := names_join_names hns
  have hup : Text.join [slash] ns ≠ up := by
    intro h
    rw [h] at hnames
    exact (hns up (hnames ▸ by decide)).ne_up rfl
  have hstart : (Text.join [slash] ns).startsWith (up ++ [slash]) = false := by
    rw [← Bool.not_eq_true, Text.startsWith_iff]
    rintro ⟨rest, h⟩
    rw [h, List.append_assoc, List.singleton_append, names_append_slash] at hnames
    refine (hns up ?_).ne_up rfl
    rw [← hnames]
    exact List.mem_append_left _ (by decide)
  have habsolute := isAbsolute_eq_false (head?_join_names hns)
  simp [leavesStart, hup, hstart, habsolute]

/-- A way that stays where it is leads to the start. -/
theorem names_of_relative_eq_here (hp : IsNormal p) (hs : IsNormal start)
    (h : relative cwd p start = here) : names p = names start := by
  obtain ⟨common, hstart, htarget⟩ := afterCommon_spec (names start) (names p)
  have hway := h.symm.trans (relative_eq hp hs)
  have hbelow : ∀ n ∈ (afterCommon (names start) (names p)).2, IsName n := fun n hn =>
    hp.isName n (htarget ▸ List.mem_append_right _ hn)
  generalize (afterCommon (names start) (names p)).1 = rest at *
  generalize (afterCommon (names start) (names p)).2 = below at *
  cases rest with
  | nil =>
    rw [List.length_nil, List.replicate_zero, List.nil_append] at hway
    cases below with
    | nil => rw [hstart, htarget]
    | cons n ns =>
      have hne := join_names_ne_nil (List.cons_ne_nil n ns) hbelow
      have hnames := names_join_names hbelow
      rw [write_of_ne_nil (by simpa using hne), List.nil_append] at hway
      rw [← hway] at hnames
      cases hnames
  | cons r rest =>
    have hleaves : leavesStart here = true := by
      rw [hway, List.length_cons, List.replicate_succ, List.cons_append, leavesStart_write_up]
    cases hleaves

/-- The way to a place neither stays nor leaves its start just if the place is below the start;
then it is made of the names that are below. -/
theorem relative_iff (hp : IsNormal p) (hs : IsNormal start) :
    (relative cwd p start ≠ here ∧ leavesStart (relative cwd p start) = false ∧
        relative cwd p start = way) ↔
      ∃ below, below ≠ [] ∧ names p = names start ++ below ∧ way = Text.join [slash] below := by
  constructor
  · rintro ⟨hhere, hleaves, rfl⟩
    exact relative_spec hp hs hhere hleaves
  · rintro ⟨below, hne, hnames, rfl⟩
    have hbelow : ∀ n ∈ below, IsName n := fun n hn =>
      hp.isName n (hnames ▸ List.mem_append_right _ hn)
    have hway : relative cwd p start = Text.join [slash] below := by
      rw [relative_eq hp hs, hnames, afterCommon_append]
      exact write_of_ne_nil (join_names_ne_nil hne hbelow)
    rw [hway]
    refine ⟨fun hhere => hne ?_, leavesStart_join hbelow, rfl⟩
    rw [← names_join_names hbelow, hhere]
    rfl

end Path
end ModuleGraph
