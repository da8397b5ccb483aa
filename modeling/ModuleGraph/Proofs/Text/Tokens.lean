import ModuleGraph.Proofs.Respell.Lines
import ModuleGraph.Source.Unused

/-!
The identifiers of a text: its maximal runs of name characters.

* `RunAt`, `IsRun`: a maximal run at a place of a text, and at any place;
* `isRun_append_cons`, `isRun_unlines`: what is no name character cuts the runs of a text apart;
* `tokens`, `mem_tokens_iff`: the maximal runs as the pieces between all other characters;
* `occurs_iff`: a search for an identifier with no name character next to it finds a token.
-/

namespace ModuleGraph
namespace Text

variable {w a b p q t : Text} {x : Char} {n : Nat}

/-- The identifier `w` stands at the place `n` of a text, with no name character next to it. -/
structure RunAt (w t : Text) (n : Nat) : Prop where
  isIdentifier : isIdentifier w = true
  exists_split : ∃ front back, t = front ++ (w ++ back) ∧ front.length = n ∧
    front.getLast?.any isName = false ∧ back.head?.any isName = false

/-- `w` is one of the maximal runs of name characters of a text. -/
def IsRun (w t : Text) : Prop := ∃ n, RunAt w t n

theorem isName_of_isIdentifier (h : isIdentifier w = true) (hx : x ∈ w) : isName x = true := by
  rw [isIdentifier, Bool.and_eq_true] at h
  exact List.all_eq_true.mp h.2 x hx

theorem ne_nil_of_isIdentifier (h : isIdentifier w = true) : w ≠ [] := by
  rintro rfl
  cases h

/-- A run that ends in the first part of a text is one of that part. -/
theorem RunAt.left (h : RunAt w (p ++ q) n) (hn : n + w.length ≤ p.length) : RunAt w p n := by
  obtain ⟨front, back, heq, rfl, hfront, hback⟩ := h.exists_split
  have hle : (front ++ w).length ≤ p.length := by rwa [List.length_append]
  rw [← List.append_assoc] at heq
  obtain ⟨back', rfl⟩ := List.prefix_of_prefix_length_le ⟨back, heq.symm⟩ ⟨q, rfl⟩ hle
  have hrest : back = back' ++ q := by
    rw [List.append_assoc (front ++ w)] at heq
    exact (List.append_cancel_left heq).symm
  refine ⟨h.isIdentifier, front, back', List.append_assoc _ _ _, rfl, hfront, ?_⟩
  cases back' with
  | nil => rfl
  | cons y back' => rwa [hrest] at hback

/-- A run that begins in the second part of a text is one of that part. -/
theorem RunAt.right (h : RunAt w (p ++ q) (p.length + n)) : RunAt w q n := by
  obtain ⟨front, back, heq, hlength, hfront, hback⟩ := h.exists_split
  obtain ⟨front', rfl⟩ := List.prefix_of_prefix_length_le ⟨q, rfl⟩ ⟨w ++ back, heq.symm⟩
    (show p.length ≤ front.length by omega)
  rw [List.append_assoc] at heq
  refine ⟨h.isIdentifier, front', back, List.append_cancel_left heq, ?_, ?_, hback⟩
  · rw [List.length_append] at hlength
    omega
  · cases hlast : front'.getLast? with
    | none => rfl
    | some y => rwa [List.getLast?_append, hlast] at hfront

/-- A run of a text is one of a longer text that goes on with another character. -/
theorem RunAt.append_cons (h : RunAt w a n) (hx : isName x = false) (b : Text) :
    RunAt w (a ++ x :: b) n := by
  obtain ⟨front, back, rfl, rfl, hfront, hback⟩ := h.exists_split
  refine ⟨h.isIdentifier, front, back ++ x :: b, by simp, rfl, hfront, ?_⟩
  cases back with
  | nil => simpa using hx
  | cons y back => exact hback

theorem RunAt.cons_append (h : RunAt w b n) (hx : isName x = false) (a : Text) :
    RunAt w (a ++ x :: b) (a.length + 1 + n) := by
  obtain ⟨front, back, rfl, rfl, hfront, hback⟩ := h.exists_split
  refine ⟨h.isIdentifier, a ++ x :: front, back, by simp, by simp; omega, ?_, hback⟩
  cases hlast : front.getLast? with
  | none =>
    rw [List.getLast?_eq_none_iff.mp hlast, List.getLast?_append]
    simpa using hx
  | some y =>
    rw [hlast] at hfront
    rwa [List.getLast?_append, List.getLast?_cons, hlast]

/-- No run goes over a character that is not one of a name. -/
theorem RunAt.before_or_after (h : RunAt w (a ++ x :: b) n) (hx : isName x = false) :
    n + w.length ≤ a.length ∨ a.length + 1 ≤ n := by
  by_contra hin
  rw [not_or, Nat.not_le, Nat.not_le] at hin
  obtain ⟨front, back, heq, rfl, -, -⟩ := h.exists_split
  have hget := congrArg (fun t : Text => t[a.length]?) heq
  have hlt : a.length - front.length < w.length := by omega
  simp only [List.getElem?_append_right (Nat.le_refl a.length), Nat.sub_self,
    List.getElem?_cons_zero] at hget
  rw [List.getElem?_append_right (by omega), List.getElem?_append_left hlt] at hget
  rw [isName_of_isIdentifier h.isIdentifier (List.mem_of_getElem? hget.symm)] at hx
  cases hx

/-- What is no name character cuts the runs of a text apart. -/
theorem isRun_append_cons (hx : isName x = false) :
    IsRun w (a ++ x :: b) ↔ IsRun w a ∨ IsRun w b := by
  constructor
  · rintro ⟨n, h⟩
    rcases h.before_or_after hx with hn | hn
    · exact Or.inl ⟨n, h.left hn⟩
    · refine Or.inr ⟨n - (a.length + 1), RunAt.right (p := a ++ [x]) ?_⟩
      have hplace : (a ++ [x]).length + (n - (a.length + 1)) = n := by
        rw [List.length_append, List.length_singleton]
        omega
      rwa [hplace, List.append_assoc]
  · rintro (⟨n, h⟩ | ⟨n, h⟩)
    · exact ⟨n, h.append_cons hx b⟩
    · exact ⟨_, h.cons_append hx a⟩

theorem not_isRun_nil : ¬ IsRun w [] := by
  rintro ⟨n, hidentifier, front, back, heq, -⟩
  have hw := List.append_eq_nil_iff.mp (List.append_eq_nil_iff.mp heq.symm).2
  exact ne_nil_of_isIdentifier hidentifier hw.1

/-- The runs of some lines are those of each. -/
theorem isRun_unlines {ls : List Text} : IsRun w (unlines ls) ↔ ∃ l ∈ ls, IsRun w l := by
  induction ls with
  | nil => simpa [unlines, join] using not_isRun_nil
  | cons l ls ih =>
    by_cases hls : ls = []
    · simp [hls, unlines, join]
    · rw [unlines_cons hls, isRun_append_cons (by decide), ih, List.exists_mem_cons_iff]

theorem isRun_iff_lines : IsRun w t ↔ ∃ l ∈ t.lines, IsRun w l := by
  rw [← isRun_unlines, unlines, lines, join_splitOn]

/-- The only run of a text of name characters is the text. -/
theorem isRun_iff_of_all (h : t.all isName = true) : IsRun w t ↔ w ≠ [] ∧ w = t := by
  constructor
  · rintro ⟨n, hidentifier, front, back, rfl, -, hfront, hback⟩
    rw [List.all_append, List.all_append, Bool.and_eq_true, Bool.and_eq_true] at h
    refine ⟨ne_nil_of_isIdentifier hidentifier, ?_⟩
    have hnil : front = [] := by
      rcases List.eq_nil_or_concat front with hnil | ⟨init, y, rfl⟩
      · exact hnil
      · have hy := List.all_eq_true.mp h.1 y (by simp)
        rw [List.concat_eq_append, List.getLast?_concat, Option.any_some, hy] at hfront
        cases hfront
    have hnil' : back = [] := by
      cases back with
      | nil => rfl
      | cons y back =>
        have hy := List.all_eq_true.mp h.2.2 y List.mem_cons_self
        rw [List.head?_cons, Option.any_some, hy] at hback
        cases hback
    simp [hnil, hnil']
  · rintro ⟨hne, rfl⟩
    refine ⟨0, ⟨?_, [], [], by simp, rfl, rfl, rfl⟩⟩
    rw [isIdentifier, h]
    simpa using hne

/-- The identifiers of a text: the pieces between all characters that do not belong to names. -/
def tokens (t : Text) : List Text :=
  (t.splitOnP fun c => !isName c).filter fun w => !w.isEmpty

theorem tokens_append_cons (hx : isName x = false) :
    tokens (a ++ x :: b) = tokens a ++ tokens b := by
  rw [tokens, List.splitOnP_append_cons _ _ (by simp [hx]), List.filter_append]
  rfl

theorem tokens_of_all (h : t.all isName = true) : tokens t = if t = [] then [] else [t] := by
  have hnot : ∀ c ∈ t, (!isName c) = false := fun c hc => by
    rw [List.all_eq_true.mp h c hc, Bool.not_true]
  rw [tokens, List.splitOnP_eq_singleton hnot]
  cases t <;> rfl

/-- The tokens of a text are its maximal runs of name characters. -/
theorem mem_tokens_iff : w ∈ tokens t ↔ IsRun w t := by
  -- each round takes the characters up to the first one that is not a name character
  induction hn : t.length using Nat.strongRecOn generalizing t with
  | ind n ih =>
    by_cases hall : t.all isName = true
    · rw [tokens_of_all hall, isRun_iff_of_all hall]
      by_cases ht : t = []
      · simp [ht]
      · rw [if_neg ht, List.mem_singleton]
        exact ⟨fun h => ⟨h ▸ ht, h⟩, And.right⟩
    · obtain ⟨x, hx, hname⟩ : ∃ x ∈ t, isName x = false := by simpa using hall
      obtain ⟨a, b, rfl⟩ := List.append_of_mem hx
      rw [List.length_append, List.length_cons] at hn
      rw [tokens_append_cons hname, List.mem_append, isRun_append_cons hname,
        ih _ (by omega) rfl, ih _ (by omega) rfl]

example : tokens "ab $c-d" = ["ab", "$c", "d"] := by decide

end Text

namespace Unused

open Text

/-- An identifier stands at the beginning of a text, with no name character next to it. -/
theorem stands_iff (name : Text) (before : Option Char) (t : Text) :
    (!before.any isName && match after? name t with
      | some rest => !rest.head?.any isName
      | none => false) = true ↔
    ∃ back, t = name ++ back ∧ before.any isName = false ∧ back.head?.any isName = false := by
  rw [Bool.and_eq_true, Bool.not_eq_true']
  cases h : after? name t with
  | none =>
    refine ⟨fun h => by simp at h, ?_⟩
    rintro ⟨back, hback, -⟩
    rw [after?_eq_some.mpr hback] at h
    cases h
  | some rest =>
    have hrest := after?_eq_some.mp h
    constructor
    · rintro ⟨hbefore, hhead⟩
      exact ⟨rest, hrest, hbefore, by simpa using hhead⟩
    · rintro ⟨back, hback, hbefore, hhead⟩
      obtain rfl : rest = back := List.append_cancel_left (hrest.symm.trans hback)
      exact ⟨hbefore, by simpa using hhead⟩

theorem occursFrom_iff {name t : Text} {before : Option Char} :
    occursFrom name before t = true ↔ ∃ front back, t = front ++ (name ++ back) ∧
      (front.getLast?.or before).any isName = false ∧ back.head?.any isName = false := by
  induction t generalizing before with
  | nil =>
    rw [occursFrom, Bool.or_eq_true]
    refine (or_congr (stands_iff name before []) Iff.rfl).trans ?_
    constructor
    · rintro (⟨back, hback, hbefore, hhead⟩ | h)
      · exact ⟨[], back, hback, hbefore, hhead⟩
      · cases h
    · rintro ⟨front, back, heq, hbefore, hhead⟩
      obtain ⟨rfl, hback⟩ := List.append_eq_nil_iff.mp heq.symm
      exact Or.inl ⟨back, hback.symm, hbefore, hhead⟩
  | cons x t ih =>
    rw [occursFrom, Bool.or_eq_true]
    refine (or_congr (stands_iff name before (x :: t)) ih).trans ?_
    constructor
    · rintro (⟨back, hback, hbefore, hhead⟩ | ⟨front, back, rfl, hbefore, hhead⟩)
      · exact ⟨[], back, hback, hbefore, hhead⟩
      · refine ⟨x :: front, back, rfl, ?_, hhead⟩
        rwa [Cursor.getLast?_or_cons]
    · rintro ⟨front, back, heq, hbefore, hhead⟩
      cases front with
      | nil => exact Or.inl ⟨back, heq, hbefore, hhead⟩
      | cons y front =>
        obtain ⟨rfl, rfl⟩ := List.cons_eq_cons.mp heq
        rw [Cursor.getLast?_or_cons] at hbefore
        exact Or.inr ⟨front, back, rfl, hbefore, hhead⟩

/-- An identifier occurs in a text exactly if it is one of its maximal runs. -/
theorem occurs_iff {name t : Text} (h : isIdentifier name = true) :
    occurs name t = true ↔ IsRun name t := by
  rw [occurs, occursFrom_iff]
  constructor
  · rintro ⟨front, back, heq, hbefore, hhead⟩
    rw [Option.or_none] at hbefore
    exact ⟨front.length, h, front, back, heq, rfl, hbefore, hhead⟩
  · rintro ⟨n, -, front, back, heq, -, hbefore, hhead⟩
    exact ⟨front, back, heq, by rwa [Option.or_none], hhead⟩

end Unused
end ModuleGraph
