import ModuleGraph.Text.Cursor

/-!
What the steps of a recogniser pass over.

* `Passes`: one place of a text is some characters after another;
* `passes_char`, `passes_literal`, `passes_skip`: the characters that a step passes over;
* `quoted_eq_some`: a quoted text is a quote, its inside, and the same quote;
* `getLast?_or_append`: the character before a place, behind more than one piece of the text;
* `exists_of_mem_findFrom`, `mem_findFrom`: every find is one of the recogniser's, at a place of
  the text;
* `findFrom_dead`, `findFrom_resume`, `findFrom_found`: how a search goes on.
-/

namespace ModuleGraph
namespace Cursor

variable {c d e : Cursor} {w v : Text} {x : Char} {p : Char → Bool}

theorem getLast?_or_append (v w : Text) (before : Option Char) :
    (v ++ w).getLast?.or before = w.getLast?.or (v.getLast?.or before) := by
  rw [List.getLast?_append, Option.or_assoc]

theorem getLast?_or_cons (x : Char) (w : Text) (before : Option Char) :
    (x :: w).getLast?.or before = w.getLast?.or (some x) :=
  getLast?_or_append [x] w before

/-- `d` is the place after the characters `w` that follow `c`. -/
structure Passes (c : Cursor) (w : Text) (d : Cursor) : Prop where
  rest_eq : c.rest = w ++ d.rest
  offset_eq : d.offset = c.offset + w.length
  before_eq : d.before = w.getLast?.or c.before

theorem Passes.refl (c : Cursor) : Passes c [] c := ⟨rfl, rfl, rfl⟩

theorem Passes.trans (h : Passes c w d) (h' : Passes d v e) : Passes c (w ++ v) e where
  rest_eq := by rw [h.rest_eq, h'.rest_eq, List.append_assoc]
  offset_eq := by
    rw [h'.offset_eq, h.offset_eq, List.length_append]
    omega
  before_eq := by rw [h'.before_eq, h.before_eq, getLast?_or_append]

/-- The text between two places is what is passed over from one to the other. -/
theorem Passes.upTo_eq (h : Passes c w d) : c.upTo d = w := by
  rw [upTo, h.rest_eq, h.offset_eq, Nat.add_sub_cancel_left, List.take_left]

theorem passes_char (h : c.char x = some d) : Passes c [x] d := by
  unfold char at h
  split at h
  · cases h
  · rename_i y rest hr
    split at h
    · rename_i hy
      rw [Option.some.injEq] at h
      subst h hy
      exact ⟨by rw [hr]; rfl, rfl, rfl⟩
    · cases h

theorem passes_literal (h : c.literal w = some d) : Passes c w d := by
  induction w generalizing c with
  | nil =>
    rw [literal, Option.some.injEq] at h
    exact h ▸ .refl c
  | cons x w ih =>
    rw [literal, Option.bind_eq_some_iff] at h
    obtain ⟨e, he, hd⟩ := h
    exact (passes_char he).trans (ih hd)

theorem passes_word (h : c.word w = some d) : Passes c w d := by
  unfold word at h
  split at h
  · cases h
  · exact passes_literal h

/-- A run is passed over whole. -/
theorem passes_skip (p : Char → Bool) (c : Cursor) :
    ∃ w, Passes c w (c.skip p) ∧ w.all p = true ∧ (c.skip p).rest.head?.any p = false := by
  obtain ⟨offset, before, rest⟩ := c
  induction rest generalizing offset before with
  | nil => exact ⟨[], .refl _, rfl, rfl⟩
  | cons x rest ih =>
    by_cases hx : p x = true
    · obtain ⟨w, hw, hall, hrest⟩ := ih (offset + 1) (some x)
      have hs : skip p ⟨offset, before, x :: rest⟩ = skip p ⟨offset + 1, some x, rest⟩ := by
        simp [skip, skipFrom, hx]
      have hstep : Passes ⟨offset, before, x :: rest⟩ [x] ⟨offset + 1, some x, rest⟩ :=
        ⟨rfl, rfl, rfl⟩
      rw [hs]
      exact ⟨x :: w, hstep.trans hw, by simp [hx, hall], hrest⟩
    · have hs : skip p ⟨offset, before, x :: rest⟩ = ⟨offset, before, x :: rest⟩ := by
        simp [skip, skipFrom, hx]
      rw [hs]
      exact ⟨[], .refl _, rfl, by simpa using hx⟩

/-- A run goes on behind characters of it. -/
theorem skip_all_append (hw : w.all p = true) (offset : Nat) (before : Option Char) (t : Text) :
    skip p ⟨offset, before, w ++ t⟩ = skip p ⟨offset + w.length, w.getLast?.or before, t⟩ := by
  induction w generalizing offset before with
  | nil => rfl
  | cons y w ih =>
    rw [List.all_cons, Bool.and_eq_true] at hw
    have hs : skip p ⟨offset, before, y :: w ++ t⟩ = skip p ⟨offset + 1, some y, w ++ t⟩ := by
      simp [skip, skipFrom, hw.1]
    rw [hs, ih hw.2, List.length_cons, getLast?_or_cons, Nat.add_assoc, Nat.add_comm 1]

/-- A run ends before the first character that is not one of it. -/
theorem skip_of_not (hx : p x = false) (offset : Nat) (before : Option Char) (rest : Text) :
    skip p ⟨offset, before, x :: rest⟩ = ⟨offset, before, x :: rest⟩ := by
  simp [skip, skipFrom, hx]

theorem skip_append (hw : w.all p = true) (hx : p x = false) (offset : Nat)
    (before : Option Char) (rest : Text) :
    skip p ⟨offset, before, w ++ x :: rest⟩ =
      ⟨offset + w.length, w.getLast?.or before, x :: rest⟩ := by
  rw [skip_all_append hw, skip_of_not hx]

theorem passes_skip1 (h : c.skip1 p = some d) : ∃ w, Passes c w d ∧ w.all p = true := by
  unfold skip1 at h
  split at h
  · cases h
  · split at h
    · rw [Option.some.injEq] at h
      obtain ⟨w, hw, hall, _⟩ := passes_skip p c
      exact ⟨w, h ▸ hw, hall⟩
    · cases h

theorem passes_next (h : c.rest = x :: w) : Passes c [x] c.next := by
  unfold next
  rw [h]
  exact ⟨by rw [h]; rfl, rfl, rfl⟩

/-- A quoted text stands between two quotes that are the same. -/
theorem quoted_eq_some {q : Quoted} (h : c.quoted = some q) :
    isQuote q.quote = true ∧ q.text ≠ [] ∧ q.text.all isQuotable = true ∧
      Passes c [q.quote] q.inside ∧ Passes q.inside (q.text ++ [q.quote]) q.stop := by
  unfold quoted at h
  split at h
  · cases h
  · rename_i y rest hr
    split at h
    · rename_i hy
      simp only at h
      split at h
      · cases h
      · rename_i hne
        obtain ⟨stop, hstop, hq⟩ := Option.map_eq_some_iff.mp h
        obtain ⟨w, hw, hall, _⟩ := passes_skip isQuotable c.next
        rw [← hq]
        refine ⟨hy, ?_, ?_, passes_next hr, ?_⟩
        · rw [hw.upTo_eq]
          rintro rfl
          exact hne (by rw [hw.offset_eq]; rfl)
        · rw [hw.upTo_eq]
          exact hall
        · rw [hw.upTo_eq]
          exact hw.trans (passes_char hstop)
    · cases h

/-- Whatever is found in a text is recognised at a place of it. -/
theorem exists_of_mem_findFrom {α : Type} {recognise : Cursor → Option α} {stop : α → Nat}
    {resume offset : Nat} {before : Option Char} {t : Text} {a : α}
    (h : a ∈ findFrom recognise stop resume offset before t) :
    ∃ front rest, t = front ++ rest ∧
      recognise ⟨offset + front.length, front.getLast?.or before, rest⟩ = some a := by
  induction t generalizing resume offset before with
  | nil => simp [findFrom] at h
  | cons x t ih =>
    have hlater : ∀ {resume : Nat}, a ∈ findFrom recognise stop resume (offset + 1) (some x) t →
        ∃ front rest, x :: t = front ++ rest ∧
          recognise ⟨offset + front.length, front.getLast?.or before, rest⟩ = some a := by
      intro resume h
      obtain ⟨front, rest, rfl, hfound⟩ := ih h
      refine ⟨x :: front, rest, rfl, ?_⟩
      rw [getLast?_or_cons, List.length_cons, Nat.add_comm front.length, ← Nat.add_assoc]
      exact hfound
    rw [findFrom] at h
    split at h
    · exact hlater h
    · split at h
      · exact hlater h
      · rename_i b hb
        rcases List.mem_cons.mp h with rfl | h
        · exact ⟨[], x :: t, rfl, hb⟩
        · exact hlater h

theorem mem_findFrom {α : Type} {recognise : Cursor → Option α} {stop : α → Nat}
    {resume offset : Nat} {before : Option Char} {t : Text} {a : α}
    (h : a ∈ findFrom recognise stop resume offset before t) :
    ∃ c, recognise c = some a ∧ offset ≤ c.offset := by
  obtain ⟨front, rest, -, hfound⟩ := exists_of_mem_findFrom h
  exact ⟨_, hfound, Nat.le_add_right _ _⟩

/-- Nothing is recognised at any character of `w` when `t` follows. -/
def Dead {α : Type} (recognise : Cursor → Option α) (w t : Text) : Prop :=
  ∀ front x back, w = front ++ x :: back → ∀ offset before,
    recognise ⟨offset, before, x :: (back ++ t)⟩ = none

theorem Dead.tail {α : Type} {recognise : Cursor → Option α} {t : Text}
    (h : Dead recognise (x :: w) t) : Dead recognise w t :=
  fun front y back hw => h (x :: front) y back (by rw [hw]; rfl)

/-- A search passes over what nothing is recognised in. -/
theorem findFrom_dead {α : Type} {recognise : Cursor → Option α} {stop : α → Nat} {t : Text}
    (h : Dead recognise w t) (resume offset : Nat) (before : Option Char) :
    findFrom recognise stop resume offset before (w ++ t) =
      findFrom recognise stop resume (offset + w.length) (w.getLast?.or before) t := by
  induction w generalizing offset before with
  | nil => rfl
  | cons x w ih =>
    have hx : recognise ⟨offset, before, x :: (w ++ t)⟩ = none := h [] x w rfl offset before
    rw [List.cons_append, findFrom, hx, ih h.tail, getLast?_or_cons, List.length_cons,
      Nat.add_assoc, Nat.add_comm 1]
    split <;> rfl

/-- A search passes over what lies before the place where it resumes. -/
theorem findFrom_resume {α : Type} {recognise : Cursor → Option α} {stop : α → Nat} {t : Text}
    {resume offset : Nat} (h : offset + w.length ≤ resume) (before : Option Char) :
    findFrom recognise stop resume offset before (w ++ t) =
      findFrom recognise stop resume (offset + w.length) (w.getLast?.or before) t := by
  induction w generalizing offset before with
  | nil => rfl
  | cons x w ih =>
    rw [List.length_cons] at h
    rw [List.cons_append, findFrom, if_pos (by omega), ih (by omega), getLast?_or_cons,
      List.length_cons, Nat.add_assoc, Nat.add_comm 1]

/-- After a find a search goes on behind it. -/
theorem findFrom_found {α : Type} {recognise : Cursor → Option α} {stop : α → Nat} {t : Text}
    {a : α} {resume offset : Nat} {before : Option Char} (hr : resume ≤ offset) (hw : w ≠ [])
    (h : recognise ⟨offset, before, w ++ t⟩ = some a) (hstop : stop a = offset + w.length) :
    findFrom recognise stop resume offset before (w ++ t) =
      a :: findFrom recognise stop (stop a) (stop a) w.getLast? t := by
  obtain ⟨x, v, rfl⟩ := List.exists_cons_of_ne_nil hw
  have hlast : (x :: v).getLast? = v.getLast?.or (some x) := by
    rw [← getLast?_or_cons x v none, Option.or_none]
  have hend : offset + 1 + v.length = stop a := by
    rw [hstop, List.length_cons]
    omega
  rw [List.cons_append] at h ⊢
  rw [findFrom, if_neg (by omega), h, hlast]
  dsimp only
  rw [findFrom_resume (by omega), hend]

end Cursor
end ModuleGraph
