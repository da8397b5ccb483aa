import ModuleGraph.Proofs.Respell.Respelt
import ModuleGraph.Proofs.Text.Utf8

/-!
Two texts cut into the same stretches: characters that both have, and specifiers that differ.

* `Placed`: a respelled specifier stands between two quotes;
* `Placed.split`: what stands on either side of it;
* `exists_placed`: texts that are respelled, as they are read, are cut in this way.
-/

namespace ModuleGraph

open Cursor

/-- A character that two texts have, or a specifier of the one with its counterpart. -/
inductive Stretch
  | kept (c : Char)
  | respelled (old new : Text)

namespace Stretch

/-- What a stretch is in the first text, and in the second. -/
def old : Stretch → Text
  | kept c => [c]
  | respelled s _ => s

def new : Stretch → Text
  | kept c => [c]
  | respelled _ t => t

/-- The text that stretches make up, on one of the two sides. -/
def spell (side : Stretch → Text) (ps : List Stretch) : Text := ps.flatMap side

/-- Respelled specifiers stand between two quotes that are the same. The first argument is the
quote that stands before all stretches, if one does. -/
inductive Placed (R : Text → Text → Prop) : Option Char → List Stretch → Prop
  | nil {o : Option Char} : Placed R o []
  | kept {o : Option Char} {c : Char} {ps : List Stretch} : Placed R (opening c) ps →
      Placed R o (kept c :: ps)
  | respelled {q : Char} {s t : Text} {ps : List Stretch} : isQuote q = true → R s t →
      Placed R (some q) ps → Placed R (some q) (respelled s t :: Stretch.kept q :: ps)

variable {R : Text → Text → Prop} {o : Option Char} {ps done todo : List Stretch} {s t u v : Text}

@[simp]
theorem spell_nil (side : Stretch → Text) : spell side [] = [] := rfl

@[simp]
theorem spell_cons (side : Stretch → Text) (p : Stretch) (ps : List Stretch) :
    spell side (p :: ps) = side p ++ spell side ps := rfl

theorem spell_append (side : Stretch → Text) (ps qs : List Stretch) :
    spell side (ps ++ qs) = spell side ps ++ spell side qs := List.flatMap_append

theorem spell_map_kept_old (w : Text) : spell old (w.map kept) = w := by
  induction w with
  | nil => rfl
  | cons c w ih =>
    rw [List.map_cons, spell_cons, ih]
    rfl

theorem spell_map_kept_new (w : Text) : spell new (w.map kept) = w := by
  induction w with
  | nil => rfl
  | cons c w ih =>
    rw [List.map_cons, spell_cons, ih]
    rfl

/-- What follows a quote may also follow nothing, if it does not begin with a specifier. -/
theorem Placed.map_kept_append {q : Char} (w : Text) (hq : isQuote q = true)
    (h : Placed R (some q) ps) : Placed R o (w.map Stretch.kept ++ Stretch.kept q :: ps) := by
  induction w generalizing o with
  | nil =>
    refine .kept ?_
    rwa [opening, if_pos hq]
  | cons c w ih => exact .kept ih

theorem placed_map_kept (w : Text) : Placed R o (w.map Stretch.kept) := by
  induction w generalizing o with
  | nil => exact .nil
  | cons c w ih => exact .kept ih

/-- What stands around a respelled specifier. -/
theorem Placed.split (h : Placed R o ps) (hps : ps = done ++ Stretch.respelled s t :: todo) :
    R s t ∧ ∃ q todo', isQuote q = true ∧ todo = Stretch.kept q :: todo' ∧
      (done = [] ∧ o = some q ∨ ∃ done', done = done' ++ [Stretch.kept q]) := by
  induction h generalizing done with
  | nil => simp at hps
  | @kept o c ps h ih =>
    cases done with
    | nil => cases hps
    | cons d done =>
      obtain ⟨rfl, htail⟩ := List.cons_eq_cons.mp hps
      obtain ⟨hR, q, todo', hq, htodo, hdone⟩ := ih htail
      refine ⟨hR, q, todo', hq, htodo, Or.inr ?_⟩
      rcases hdone with ⟨rfl, ho⟩ | ⟨done', rfl⟩
      · unfold opening at ho
        split at ho
        · cases ho
          exact ⟨[], rfl⟩
        · cases ho
      · exact ⟨Stretch.kept c :: done', rfl⟩
  | @respelled q s' t' ps hq hR h ih =>
    match done, hps with
    | [], hps =>
      cases hps
      exact ⟨hR, q, ps, hq, rfl, Or.inl ⟨rfl, rfl⟩⟩
    | [_], hps => cases hps
    | d :: e :: done, hps =>
      simp only [List.cons_append, List.cons.injEq] at hps
      obtain ⟨rfl, rfl, hps⟩ := hps
      obtain ⟨hR', q', todo', hq', htodo, hdone⟩ := ih hps
      refine ⟨hR', q', todo', hq', htodo, Or.inr ?_⟩
      rcases hdone with ⟨rfl, ho⟩ | ⟨done', rfl⟩
      · cases ho
        exact ⟨[Stretch.respelled s' t'], rfl⟩
      · exact ⟨Stretch.respelled s' t' :: Stretch.kept q :: done', rfl⟩

/-- What is left of the stretches after some of them. -/
theorem Placed.append_right (h : Placed R o (done ++ todo)) : ∃ o', Placed R o' todo := by
  generalize hps : done ++ todo = ps at h
  induction h generalizing done with
  | nil =>
    rw [List.append_eq_nil_iff] at hps
    exact ⟨none, hps.2 ▸ .nil⟩
  | @kept o c ps h ih =>
    cases done with
    | nil =>
      rw [List.nil_append] at hps
      exact ⟨o, hps ▸ .kept h⟩
    | cons d done => exact ih (List.cons_eq_cons.mp hps).2
  | @respelled q s t ps hq hR h ih =>
    match done, hps with
    | [], hps =>
      rw [List.nil_append] at hps
      exact ⟨some q, hps ▸ .respelled hq hR h⟩
    | [d], hps =>
      have htail : todo = Stretch.kept q :: ps := (List.cons_eq_cons.mp hps).2
      have hnext : Placed R none (Stretch.kept q :: ps) := .kept (by rwa [opening, if_pos hq])
      exact ⟨none, htail ▸ hnext⟩
    | d :: e :: done, hps => exact ih (List.cons_eq_cons.mp (List.cons_eq_cons.mp hps).2).2

/-- The stretches before a character that is no quote. -/
theorem Placed.append_left {x : Char} (hx : isQuote x = false)
    (h : Placed R o (done ++ Stretch.kept x :: todo)) : Placed R o done := by
  generalize hps : done ++ Stretch.kept x :: todo = ps at h
  induction h generalizing done with
  | nil => simp at hps
  | @kept o c ps h ih =>
    cases done with
    | nil => exact .nil
    | cons d done =>
      obtain ⟨rfl, htail⟩ := List.cons_eq_cons.mp hps
      exact .kept (ih htail)
  | @respelled q s t ps hq hR h ih =>
    match done, hps with
    | [], hps => exact .nil
    | [d], hps =>
      have hkept := (List.cons_eq_cons.mp (List.cons_eq_cons.mp hps).2).1
      cases hkept
      rw [hx] at hq
      cases hq
    | d :: e :: done, hps =>
      simp only [List.cons_append, List.cons.injEq] at hps
      obtain ⟨rfl, rfl, htail⟩ := hps
      exact .respelled hq hR (ih htail)

theorem isAscii_of_isQuote {q : Char} (hq : isQuote q = true) : q.val.toNat < 0x80 := by
  simp only [isQuote, Bool.or_eq_true, beq_iff_eq] at hq
  rcases hq with rfl | rfl <;> decide

/-- Two texts of which one is the other respelled are, as they are read, cut into the same
stretches, if the specifiers have no stray bytes. -/
theorem exists_placed (hR : ∀ s t, R s t → Utf8.view s = s ∧ Utf8.view t = t)
    (h : Respelt R o u v) :
    ∃ ps, Placed R o ps ∧ spell old ps = Utf8.view u ∧ spell new ps = Utf8.view v := by
  induction h with
  | @last o w _ =>
    exact ⟨(Utf8.view w).map kept, placed_map_kept _, spell_map_kept_old _,
      spell_map_kept_new _⟩
  | @keep o w q s t _ hq _ ih =>
    obtain ⟨ps, hps, hold, hnew⟩ := ih
    have ha := isAscii_of_isQuote hq
    refine ⟨(Utf8.view w).map kept ++ kept q :: ps, hps.map_kept_append _ hq, ?_, ?_⟩
    · rw [spell_append, spell_map_kept_old, spell_cons, hold, Utf8.view_append_ascii ha]
      rfl
    · rw [spell_append, spell_map_kept_new, spell_cons, hnew, Utf8.view_append_ascii ha]
      rfl
  | @respell q x y s t _ _ hq hxy _ ih =>
    obtain ⟨ps, hps, hold, hnew⟩ := ih
    have ha := isAscii_of_isQuote hq
    obtain ⟨hx, hy⟩ := hR _ _ hxy
    refine ⟨respelled x y :: kept q :: ps, .respelled hq hxy hps, ?_, ?_⟩
    · rw [spell_cons, spell_cons, hold, Utf8.view_append_ascii ha, hx]
      rfl
    · rw [spell_cons, spell_cons, hnew, Utf8.view_append_ascii ha, hy]
      rfl

end Stretch
end ModuleGraph
