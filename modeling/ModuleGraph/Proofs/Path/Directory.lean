import ModuleGraph.Proofs.Path.Follow
import ModuleGraph.Proofs.Path.Way

/-!
The directory of a file, however the path of the file is written.

* `names_directory`, `root_join_directory`: the directory has the names before the last slash, and
  a path seen from it has the root of the file;
* `normalize_join_directory`: what is seen from the directory of a file is what is seen from the
  directory of its normal form.
-/

namespace ModuleGraph
namespace Path

variable {p s tail : Text}

/-- Only slashes are trimmed, and all of them. -/
theorem exists_trimSlashes (p : Text) :
    ∃ tail, p = trimSlashes p ++ tail ∧ tail.all (· == slash) = true ∧
      (trimSlashes p).getLast? ≠ some slash := by
  refine ⟨(p.reverse.takeWhile (· == slash)).reverse, ?_, ?_, ?_⟩
  · rw [trimSlashes, ← List.reverse_append, List.takeWhile_append_dropWhile, List.reverse_reverse]
  · rw [List.all_reverse]
    exact List.all_takeWhile
  · intro hlast
    have hhead := List.head?_dropWhile_not (· == slash) p.reverse
    rw [trimSlashes, List.getLast?_reverse] at hlast
    rw [hlast] at hhead
    simp at hhead

theorem names_append_slashes (p : Text) (h : tail.all (· == slash) = true) :
    names (p ++ tail) = names p := by
  induction tail generalizing p with
  | nil => rw [List.append_nil]
  | cons c tail ih =>
    rw [List.all_cons, Bool.and_eq_true, beq_iff_eq] at h
    obtain ⟨rfl, h⟩ := h
    have hnone : names tail = [] := ih [] h
    rw [names_append_slash, hnone, List.append_nil]

/-- The root of a path is read off in front of its first name. -/
theorem root_append_of_getLast? (hne : p ≠ []) (h : p.getLast? ≠ some slash) (s : Text) :
    root (p ++ s) = root p := by
  rcases p with _ | ⟨a, _ | ⟨b, _ | ⟨c, p⟩⟩⟩
  · exact absurd rfl hne
  · have ha : a ≠ '/' := by simpa [slash] using h
    simp [root, ha]
  · have hb : b ≠ '/' := by simpa [slash] using h
    by_cases ha : a = '/' <;> simp [root, ha, hb]
  · by_cases ha : a = '/' <;> by_cases hb : b = '/' <;> by_cases hc : c = '/' <;>
      simp [root, ha, hb, hc]

theorem root_slashes_append (hne : p ≠ []) (h : p.all (· == slash) = true)
    (hs : s.head? ≠ some slash) : root (p ++ s) = root p := by
  rcases p with _ | ⟨a, _ | ⟨b, _ | ⟨c, p⟩⟩⟩
  · exact absurd rfl hne
  all_goals simp only [List.all_cons, Bool.and_eq_true, beq_iff_eq] at h
  · obtain rfl := h.1
    exact root_append (Or.inl rfl) hs
  · obtain ⟨rfl, rfl, -⟩ := h
    exact root_append (Or.inr rfl) hs
  · obtain ⟨rfl, rfl, rfl, -⟩ := h
    rfl

theorem isAbsolute_of_isLead (h : IsLead (root p)) : isAbsolute p = true := by
  cases p with
  | nil => exact absurd rfl h.ne_nil
  | cons c p =>
    by_cases hc : c = '/'
    · rw [hc]
      rfl
    · have hnil : root (c :: p) = [] := by simp [root, hc]
      exact absurd hnil h.ne_nil

/-- The last slash of an absolute path. -/
theorem exists_name (h : isAbsolute p = true) :
    ∃ before, slash ∉ name p ∧ p = before ++ slash :: name p := by
  obtain ⟨rest, rfl⟩ : ∃ rest, p = slash :: rest := by
    cases p with
    | nil => cases h
    | cons c rest => exact ⟨rest, by simpa [isAbsolute] using h⟩
  obtain ⟨last, before, hsplit, hlast⟩ :=
    List.eq_append_cons_of_mem (List.mem_reverse.mpr (List.mem_cons_self (a := slash) (l := rest)))
  have hp : slash :: rest = before.reverse ++ slash :: last.reverse := by
    simpa using congrArg List.reverse hsplit
  have hno : slash ∉ last.reverse := by simpa using hlast
  have hname : name (slash :: rest) = last.reverse := by rw [name, hp, cutAfterLast_append _ hno]
  exact ⟨before.reverse, hname ▸ hno, hname ▸ hp⟩

theorem names_directory (h : isAbsolute p = true) :
    names p = names (directory p) ++ names (name p) := by
  obtain ⟨before, hno, hp⟩ := exists_name h
  have hbefore : names (directory p) = names before := by
    rw [hp, directory_append_cons before hno]
    split
    · exact names_append_slashes before rfl
    · obtain ⟨tail, htrim, htail, -⟩ := exists_trimSlashes (before ++ [slash])
      rw [← names_append_slashes _ htail, ← htrim]
      exact names_append_slashes before rfl
  rw [hbefore, ← names_append_slash, ← hp]

theorem root_join_directory (h : isAbsolute p = true) (hs : isAbsolute s = false) :
    root (join (directory p) s) = root p := by
  obtain ⟨before, hno, hp⟩ := exists_name h
  have hhead : s.head? ≠ some slash := by simpa [isAbsolute] using hs
  have hname : (name p).head? ≠ some slash := fun h => hno (List.mem_of_head? h)
  have hsplit : p = before ++ [slash] ++ name p := by simpa using hp
  have hdirectory := directory_append_cons before hno
  rw [← hp] at hdirectory
  generalize name p = n at hname hsplit
  rw [join, hs, if_neg (by decide)]
  by_cases hall : (before ++ [slash]).all (· == slash) = true
  · rw [if_pos hall] at hdirectory
    rw [hdirectory, if_pos (by simp), root_slashes_append (by simp) hall hhead, hsplit,
      root_slashes_append (by simp) hall hname]
  · rw [if_neg hall] at hdirectory
    obtain ⟨tail, htrim, htail, hlast⟩ := exists_trimSlashes (before ++ [slash])
    rw [← hdirectory] at htrim hlast
    have hne : directory p ≠ [] := by
      intro hnil
      rw [hnil, List.nil_append] at htrim
      exact hall (htrim ▸ htail)
    rw [htrim, List.append_assoc] at hsplit
    rw [if_neg (by simp [hne, hlast]), root_append_of_getLast? hne hlast]
    conv => rhs; rw [hsplit]
    rw [root_append_of_getLast? hne hlast]

theorem isAbsolute_join_directory (h : isAbsolute p = true) (s : Text) :
    isAbsolute (join (directory p) s) = true := by
  by_cases hs : isAbsolute s = true
  · rw [join, if_pos hs, hs]
  · rw [Bool.not_eq_true] at hs
    exact isAbsolute_of_isLead (root_join_directory h hs ▸ isLead_root h)

/-- What is seen from the directory of a file does not depend on how the path of the file is
written. -/
theorem normalize_join_directory (h : isAbsolute p = true) (hn : IsName (name p))
    (hs : isAbsolute s = false) :
    normalize (join (directory p) s) = normalize (join (directory (normalize p)) s) := by
  obtain ⟨hdir, hlead, hdrop⟩ := (isNormal_normalize h).directory
  obtain ⟨hright, hrightLead, -⟩ := normalize_join_spec hdir hs
  have hroot := root_join_directory h hs
  have hj := isAbsolute_join_directory h s
  have hleft := isNormal_normalize hj
  have hnames : names (normalize p) = follow [] (names (directory p)) ++ [name p] := by
    rw [names_normalize_follow h, ← follow_names, names_directory h, names_of_isName hn,
      follow_append]
    exact step_name _ hn
  rw [hleft.eq_write, hright.eq_write, root_normalize hj, hroot, hrightLead, hlead,
    root_normalize h, names_normalize_join hdir hs, hdrop, hnames, List.dropLast_concat,
    names_normalize_follow hj, ← follow_names, ← follow_names, names_join hs, follow_append]

end Path
end ModuleGraph
