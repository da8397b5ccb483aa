import ModuleGraph.Text.Basic

/-!
Splitting and joining texts, and beginnings of texts.

* `splitOn_join`, `join_splitOn`: joining undoes splitting, and the other way round for pieces
  without the separator;
* `startsWith_iff`, `after?_eq_some`: a beginning of a text, in terms of what is left;
* `eq_of_head?_splitOn`, `head?_splitOn`: the first piece of a text.
-/

namespace ModuleGraph
namespace Text

variable {sep : Char} {t a b head : Text}

/-- The pieces are those of the library's function. -/
theorem splitOn_eq (sep : Char) (t : Text) : splitOn sep t = List.splitOn sep t := by
  induction t with
  | nil => rfl
  | cons c t ih =>
    rw [splitOn_cons, ih, List.splitOn_cons_eq_if_modifyHead]
    unfold splitStep
    by_cases hc : c = sep
    · simp [hc]
    · simp only [if_neg hc, beq_iff_eq]
      cases hp : List.splitOn sep t with
      | nil => exact absurd hp (List.splitOn_ne_nil sep t)
      | cons piece rest => rfl

theorem splitOn_append_self (sep : Char) (a b : Text) :
    splitOn sep (a ++ sep :: b) = splitOn sep a ++ splitOn sep b := by
  rw [splitOn_eq, splitOn_eq, splitOn_eq, List.splitOn_append_cons_self]

theorem splitOn_join {pieces : List Text} (h : ∀ p ∈ pieces, sep ∉ p) (hne : pieces ≠ []) :
    splitOn sep (join [sep] pieces) = pieces := by
  rw [splitOn_eq]
  exact List.splitOn_intercalate sep h hne

theorem join_splitOn (sep : Char) (t : Text) : join [sep] (splitOn sep t) = t := by
  rw [splitOn_eq]
  exact List.intercalate_splitOn sep

theorem mem_of_mem_splitOn {p : Text} {c : Char} (hp : p ∈ splitOn sep t) (hc : c ∈ p) :
    c ∈ t ∧ c ≠ sep := by
  induction t generalizing p with
  | nil =>
    rw [splitOn_nil, List.mem_singleton] at hp
    simp [hp] at hc
  | cons d t ih =>
    rw [splitOn_cons] at hp
    unfold splitStep at hp
    split at hp
    · rcases List.mem_cons.mp hp with rfl | hp
      · simp at hc
      · exact ⟨List.mem_cons_of_mem _ (ih hp hc).1, (ih hp hc).2⟩
    · rename_i hd
      split at hp
      · rename_i hnil
        exact absurd hnil (splitOn_ne_nil sep t)
      · rename_i piece rest heq
        rw [heq] at ih
        rcases List.mem_cons.mp hp with rfl | hp
        · rcases List.mem_cons.mp hc with rfl | hc
          · exact ⟨List.mem_cons_self, hd⟩
          · have h := ih List.mem_cons_self hc
            exact ⟨List.mem_cons_of_mem _ h.1, h.2⟩
        · have h := ih (List.mem_cons_of_mem _ hp) hc
          exact ⟨List.mem_cons_of_mem _ h.1, h.2⟩

theorem not_mem_of_mem_splitOn {p : Text} (hp : p ∈ splitOn sep t) : sep ∉ p :=
  fun hc => (mem_of_mem_splitOn hp hc).2 rfl

theorem mem_join {pieces : List Text} {c : Char} (h : c ∈ join [sep] pieces) :
    c = sep ∨ ∃ p ∈ pieces, c ∈ p := by
  induction pieces with
  | nil => simp [join] at h
  | cons p pieces ih =>
    cases pieces with
    | nil => exact Or.inr ⟨p, List.mem_cons_self, by simpa [join] using h⟩
    | cons q pieces =>
      simp only [join, List.intercalate_cons_cons, List.append_assoc, List.mem_append,
        List.mem_singleton] at h
      rcases h with h | h | h
      · exact Or.inr ⟨p, List.mem_cons_self, h⟩
      · exact Or.inl h
      · exact (ih h).imp id fun ⟨q, hq, hc⟩ => ⟨q, List.mem_cons_of_mem _ hq, hc⟩

theorem join_concat {pieces : List Text} (h : pieces ≠ []) (p : Text) :
    join [sep] (pieces ++ [p]) = join [sep] pieces ++ sep :: p := by
  induction pieces with
  | nil => exact absurd rfl h
  | cons q pieces ih =>
    cases pieces with
    | nil => simp [join]
    | cons r pieces =>
      have hp := ih (by simp)
      simp only [join, List.cons_append, List.intercalate_cons_cons] at hp ⊢
      rw [hp]
      simp

theorem startsWith_iff : t.startsWith head = true ↔ ∃ rest, t = head ++ rest := by
  rw [startsWith, List.isPrefixOf_iff_prefix]
  exact ⟨fun ⟨rest, h⟩ => ⟨rest, h.symm⟩, fun ⟨rest, h⟩ => ⟨rest, h.symm⟩⟩

/-- What is left behind a beginning. -/
theorem after?_eq_some {rest : Text} : after? head t = some rest ↔ t = head ++ rest := by
  induction head generalizing t with
  | nil => simp [after?, eq_comm]
  | cons x head ih =>
    cases t with
    | nil => simp [after?]
    | cons y t =>
      rw [after?]
      by_cases hxy : x = y
      · rw [if_pos hxy, ih, hxy, List.cons_append, List.cons_eq_cons]
        simp
      · rw [if_neg hxy, List.cons_append, List.cons_eq_cons]
        simp [Ne.symm hxy]

/-- The first piece of a text is all of it, or what stands before a separator. -/
theorem eq_of_head?_splitOn {p : Text} (h : (splitOn sep t).head? = some p) :
    t = p ∨ ∃ rest, t = p ++ sep :: rest := by
  have ht := join_splitOn sep t
  cases hp : splitOn sep t with
  | nil => exact absurd hp (splitOn_ne_nil sep t)
  | cons q pieces =>
    rw [hp] at h ht
    obtain rfl : q = p := by simpa using h
    cases pieces with
    | nil => exact Or.inl (by simpa [join] using ht.symm)
    | cons r pieces =>
      rw [join, List.intercalate_cons_cons, List.append_assoc] at ht
      exact Or.inr ⟨_, ht.symm⟩

theorem head?_splitOn {p : Text} (hp : sep ∉ p) (h : t = p ∨ ∃ rest, t = p ++ sep :: rest) :
    (splitOn sep t).head? = some p := by
  rcases h with rfl | ⟨rest, rfl⟩
  · rw [splitOn_of_not_mem hp]
    rfl
  · rw [splitOn_append_cons hp]
    rfl

end Text
end ModuleGraph
