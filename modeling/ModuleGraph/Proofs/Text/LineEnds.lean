import ModuleGraph.Proofs.Source.Items

/-!
Texts whose lines end in two characters.

* `crlf`: the text with a carriage return before every line end;
* `dropWhile_replaceChar`: a run does not tell what stands for a character from the character, if it
  takes both or neither;
* `trim_crlf`, `splitOn_crlf`: trimming and cutting commute with `crlf`;
* `exists_of_crlf_eq_append`: what stands before a line end in the one text does so in the other.
-/

namespace ModuleGraph
namespace Text

variable {c x : Char} {new t u v w : Text} {p : Char → Bool}

theorem replaceChar_cons (c : Char) (new : Text) (x : Char) (t : Text) :
    replaceChar c new (x :: t) = (if x = c then new else [x]) ++ replaceChar c new t := rfl

theorem reverse_replaceChar (c : Char) (new t : Text) :
    (replaceChar c new t).reverse = replaceChar c new.reverse t.reverse := by
  rw [replaceChar, replaceChar, List.reverse_flatMap]
  congr 1
  funext x
  rw [Function.comp_apply, apply_ite List.reverse]
  rfl

/-- A run does not tell what stands for a character from the character. -/
theorem dropWhile_replaceChar (hne : new ≠ []) (hp : ∀ y ∈ new, p y = p c) (t : Text) :
    (replaceChar c new t).dropWhile p = replaceChar c new (t.dropWhile p) := by
  induction t with
  | nil => rfl
  | cons x t ih =>
    rw [replaceChar_cons, List.dropWhile_cons]
    by_cases hx : x = c
    · subst hx
      rw [if_pos rfl]
      by_cases hpx : p x = true
      · rw [if_pos hpx, List.dropWhile_append_of_pos fun y hy => (hp y hy).trans hpx, ih]
      · obtain ⟨y, ys, rfl⟩ := List.exists_cons_of_ne_nil hne
        have hy : ¬ p y = true := by rwa [hp y List.mem_cons_self]
        rw [if_neg hpx, List.cons_append, List.dropWhile_cons_of_neg hy, replaceChar_cons,
          if_pos rfl]
        rfl
    · rw [if_neg hx, List.singleton_append, List.dropWhile_cons]
      by_cases hpx : p x = true
      · rw [if_pos hpx, if_pos hpx, ih]
      · rw [if_neg hpx, if_neg hpx, replaceChar_cons, if_neg hx]
        rfl

theorem after?_replaceChar (hc : c ∉ w) (hx : x ∉ w) (new t : Text) :
    after? w (replaceChar c (x :: new) t) = (after? w t).map (replaceChar c (x :: new)) := by
  induction w generalizing t with
  | nil => rfl
  | cons y w ih =>
    simp only [List.mem_cons, not_or] at hc hx
    cases t with
    | nil => rfl
    | cons z t =>
      rw [replaceChar_cons]
      by_cases hz : z = c
      · simp [after?, hz, Ne.symm hc.1, Ne.symm hx.1]
      · by_cases hyz : y = z
        · simp [after?, hz, hyz, ih hc.2 hx.2]
        · simp [after?, hz, hyz]

/-- The text with a carriage return before every line end. -/
def crlf (t : Text) : Text := replaceChar '\n' ['\r', '\n'] t

/-- A character that is no part of a line end. -/
def isInline (x : Char) : Bool := x != '\n' && x != '\r'

@[simp]
theorem crlf_nil : crlf [] = [] := rfl

theorem crlf_lineEnd (t : Text) : crlf ('\n' :: t) = '\r' :: '\n' :: crlf t := rfl

theorem crlf_cons (hx : x ≠ '\n') (t : Text) : crlf (x :: t) = x :: crlf t := by
  rw [crlf, replaceChar_cons, if_neg hx]
  rfl

theorem crlf_append (t u : Text) : crlf (t ++ u) = crlf t ++ crlf u := List.flatMap_append

theorem crlf_of_not_mem (h : '\n' ∉ t) : crlf t = t := by
  induction t with
  | nil => rfl
  | cons x t ih =>
    rw [List.mem_cons, not_or] at h
    rw [crlf_cons (Ne.symm h.1), ih h.2]

theorem mem_crlf (hx : x ≠ '\r') : x ∈ crlf t ↔ x ∈ t := by
  induction t with
  | nil => rfl
  | cons y t ih =>
    by_cases hy : y = '\n'
    · rw [hy, crlf_lineEnd, List.mem_cons, List.mem_cons, List.mem_cons, ih]
      simp [hx]
    · rw [crlf_cons hy, List.mem_cons, List.mem_cons, ih]

theorem count_crlf (t : Text) : (crlf t).count '\n' = t.count '\n' := by
  induction t with
  | nil => rfl
  | cons y t ih =>
    by_cases hy : y = '\n'
    · rw [hy, crlf_lineEnd, List.count_cons_of_ne (by decide), List.count_cons_self,
        List.count_cons_self, ih]
    · rw [crlf_cons hy, List.count_cons_of_ne hy, List.count_cons_of_ne hy, ih]

theorem getLast?_crlf (t : Text) : (crlf t).getLast? = t.getLast? := by
  rcases List.eq_nil_or_concat t with rfl | ⟨t, x, rfl⟩
  · rfl
  · rw [List.concat_eq_append, crlf_append, List.getLast?_append, List.getLast?_concat]
    by_cases hx : x = '\n'
    · rw [hx]
      rfl
    · rw [crlf_cons hx]
      rfl

theorem eq_nil_of_crlf (h : crlf t = []) : t = [] := by
  cases t with
  | nil => rfl
  | cons x t =>
    by_cases hx : x = '\n'
    · rw [hx] at h
      cases h
    · rw [crlf_cons hx] at h
      cases h

theorem isEmpty_crlf (t : Text) : (crlf t).isEmpty = t.isEmpty := by
  rw [Bool.eq_iff_iff, List.isEmpty_iff, List.isEmpty_iff]
  exact ⟨eq_nil_of_crlf, fun h => by rw [h, crlf_nil]⟩

theorem reverse_crlf (t : Text) : (crlf t).reverse = replaceChar '\n' ['\n', '\r'] t.reverse :=
  reverse_replaceChar '\n' ['\r', '\n'] t

section Runs

variable (hp : p '\r' = p '\n')

include hp

theorem all_crlf (t : Text) : (crlf t).all p = t.all p := by
  induction t with
  | nil => rfl
  | cons y t ih =>
    by_cases hy : y = '\n'
    · rw [hy, crlf_lineEnd, List.all_cons, List.all_cons, List.all_cons, ih, hp,
        ← Bool.and_assoc, Bool.and_self]
    · rw [crlf_cons hy, List.all_cons, List.all_cons, ih]

theorem any_head?_crlf (t : Text) : (crlf t).head?.any p = t.head?.any p := by
  cases t with
  | nil => rfl
  | cons y t =>
    by_cases hy : y = '\n'
    · rw [hy]
      exact hp
    · rw [crlf_cons hy]
      rfl

theorem dropWhile_crlf (t : Text) : (crlf t).dropWhile p = crlf (t.dropWhile p) :=
  dropWhile_replaceChar (by simp) (by simp [hp]) t

theorem takeWhile_crlf (t : Text) : (crlf t).takeWhile p = crlf (t.takeWhile p) := by
  have hsplit : (crlf t).takeWhile p ++ (crlf t).dropWhile p =
      crlf (t.takeWhile p) ++ crlf (t.dropWhile p) := by
    rw [List.takeWhile_append_dropWhile, ← crlf_append, List.takeWhile_append_dropWhile]
  rw [dropWhile_crlf hp] at hsplit
  exact List.append_cancel_right hsplit

end Runs

theorem trimRight_crlf (t : Text) : (crlf t).trimRight = crlf t.trimRight := by
  have hblank : isBlank '\r' = isBlank '\n' := rfl
  rw [trimRight, trimRight, reverse_crlf,
    dropWhile_replaceChar (by simp) (by simp [hblank]), reverse_replaceChar]
  rfl

theorem trim_crlf (t : Text) : (crlf t).trim = crlf t.trim := by
  rw [trim, trim, dropWhile_crlf rfl, trimRight_crlf]

/-- The pieces between separators that are no part of a line end. -/
theorem splitOn_crlf (hc : isInline c = true) (t : Text) :
    splitOn c (crlf t) = (splitOn c t).map crlf := by
  have hne : c ≠ '\n' ∧ c ≠ '\r' := by simpa [isInline] using hc
  have hhead : ∀ (y : Text) (ps : List Text),
      (ps.map crlf).modifyHead (crlf y ++ ·) = (ps.modifyHead (y ++ ·)).map crlf := by
    intro y ps
    cases ps with
    | nil => rfl
    | cons q qs => rw [List.map_cons, List.modifyHead_cons, List.modifyHead_cons, List.map_cons,
        crlf_append]
  induction t with
  | nil => rfl
  | cons x t ih =>
    by_cases hx : x = c
    · have hsplit : ∀ u : Text, splitOn c (c :: u) = [] :: splitOn c u :=
        splitOn_append_cons (List.not_mem_nil (a := c))
      rw [hx, crlf_cons hne.1, hsplit, hsplit, ih]
      rfl
    · have hmem : c ∉ [x] := by simpa using Ne.symm hx
      have hmem' : c ∉ crlf [x] := by rwa [mem_crlf hne.2]
      rw [← List.singleton_append, crlf_append, Stretch.splitOn_append_of_not_mem hmem',
        Stretch.splitOn_append_of_not_mem hmem, ih, hhead]

/-- An identifier holds no line end. -/
theorem isIdentifier_crlf (t : Text) : isIdentifier (crlf t) = isIdentifier t := by
  rw [isIdentifier, isIdentifier, isEmpty_crlf, all_crlf (by decide)]

theorem crlf_of_isIdentifier (h : isIdentifier t = true) : crlf t = t := by
  refine crlf_of_not_mem fun hmem => ?_
  rw [isIdentifier, Bool.and_eq_true, List.all_eq_true] at h
  have hname := h.2 '\n' hmem
  revert hname
  decide

/-- What stands before a line end in the one text does so in the other. -/
theorem exists_of_crlf_eq_append (hw : '\n' ∉ w) (hlast : w.getLast? ≠ some '\r')
    (h : crlf t = w ++ v) : ∃ u, t = w ++ u ∧ v = crlf u := by
  induction w generalizing t with
  | nil => exact ⟨t, rfl, h.symm⟩
  | cons x w ih =>
    rw [List.mem_cons, not_or] at hw
    cases t with
    | nil => cases h
    | cons y t =>
      by_cases hy : y = '\n'
      · -- the carriage return of a line end would be the last character of `w`
        rw [hy, crlf_lineEnd] at h
        obtain ⟨rfl, htail⟩ := List.cons_eq_cons.mp h
        cases w with
        | nil => exact (hlast rfl).elim
        | cons z w =>
          obtain ⟨hz, -⟩ := List.cons_eq_cons.mp htail
          rw [hz] at hw
          exact (hw.2 List.mem_cons_self).elim
      · rw [crlf_cons hy] at h
        obtain ⟨rfl, htail⟩ := List.cons_eq_cons.mp h
        have hlast : w.getLast? ≠ some '\r' := by
          intro hw'
          rw [List.getLast?_cons, hw'] at hlast
          exact hlast rfl
        obtain ⟨u, rfl, rfl⟩ := ih hw.2 hlast htail
        exact ⟨u, rfl, rfl⟩

end Text
end ModuleGraph
