import ModuleGraph.Proofs.Respell.Replacement
import Mathlib.Data.List.Forall2

/-!
Computed rules respell quoted specifiers and change nothing else.

* `respelt_of_splices`: one rule, by induction on its edits;
* `respelt_text`: all rules on all lines; what is respelled is recorded.
-/

namespace ModuleGraph

open Cursor

/-- At a file, what is respelled can stand between quotes and is not respelled again. -/
structure Aliasing.IsProper (a : Aliasing) (cwd file : Text) : Prop where
  quotable : ∀ s t, s.IsQuotable → a.aliased cwd file s = some t → t.IsQuotable
  once : ∀ s t, a.aliased cwd file s = some t → a.aliased cwd file t = none

/-- There is a record that one specifier became another. -/
def Recorded (changes : List Change) (s t : Text) : Prop :=
  ∃ c ∈ changes, c.before = s ∧ c.after = t

namespace Respell

variable {a : Aliasing} {cwd file : Text} {f : Form} {n : Nat}

/-- The specifier of an edit is respelled and recorded, or the edit changes nothing. -/
theorem recorded_of_edit (ha : a.IsProper cwd file) {lead s : Text} {q : Char} {e : Edit}
    (hl : lead.IsUnquoted) (hq : isQuote q = true) (hs : s.IsQuotable)
    (hold : e.old = enclosed lead q s)
    (hnew : e.new = enclosed lead q (Rule.respelled a cwd file s)) :
    Rule.respelled a cwd file s = s ∨ (Rule.respelled a cwd file s).IsQuotable ∧
      ∃ c, recordEdit (.computed f a) n e = some c ∧ c.before = s ∧
        c.after = Rule.respelled a cwd file s := by
  cases ht : a.aliased cwd file s with
  | none => exact Or.inl (by rw [Rule.respelled, ht]; rfl)
  | some t =>
    have hrt : Rule.respelled a cwd file s = t := by rw [Rule.respelled, ht]; rfl
    have htq := ha.quotable s t hs ht
    rw [hrt] at hnew ⊢
    have hbefore : specifierOf e.old = s := by rw [hold, specifierOf_enclosed hl hq hs]
    have hafter : specifierOf e.new = t := by rw [hnew, specifierOf_enclosed hl hq htq]
    by_cases hne : e.new = e.old
    · exact Or.inl (by rw [← hafter, hne, hbefore])
    · exact Or.inr ⟨htq, _, if_neg hne, hbefore, hafter⟩

theorem opening_quote {q : Char} (hq : isQuote q = true) : opening q = some q := if_pos hq

/-- An edit and what follows it. -/
theorem respelt_enclosed {R : Text → Text → Prop} {o : Option Char} {lead s t rest rest' : Text}
    {q : Char} (hl : lead.IsUnquoted) (hq : isQuote q = true) (hs : s.IsQuotable)
    (hst : t = s ∨ t.IsQuotable ∧ R s t) (h : Respelt R (some q) rest rest') :
    Respelt R o (enclosed lead q s ++ rest) (enclosed lead q t ++ rest') := by
  have hinner : Respelt R (some q) (s ++ q :: rest) (t ++ q :: rest') := by
    rcases hst with rfl | ⟨ht, hR⟩
    · exact .keep hs.isUnquoted hq h
    · exact .respell hs.isUnquoted ht.isUnquoted hq hR h
  have hsplit : ∀ x y : Text, enclosed lead q x ++ y = lead ++ q :: (x ++ q :: y) := by
    intro x y
    simp [enclosed]
  rw [hsplit, hsplit]
  exact .keep hl hq hinner

/-- What later edits record stays on record. -/
theorem recorded_cons {rule : Rule} {edits : List Edit} {s t : Text} (e : Edit)
    (h : Recorded (edits.filterMap (recordEdit rule n)) s t) :
    Recorded ((e :: edits).filterMap (recordEdit rule n)) s t := by
  obtain ⟨c, hc, hst⟩ := h
  refine ⟨c, ?_, hst⟩
  rw [List.filterMap_cons]
  split
  · exact hc
  · exact List.mem_cons_of_mem _ hc

/-- The edits of one rule respell the text that is searched. -/
theorem respelt_of_splices (ha : a.IsProper cwd file) (f : Form) (n : Nat) {offset : Nat}
    {before : Option Char} {t after : Text} {edits : List Edit}
    (h : (Rule.computed f a).Splices cwd file offset before t edits after) :
    Respelt (Recorded (edits.filterMap (recordEdit (.computed f a) n))) (before.bind opening) t
      after := by
  induction h with
  | nil => exact .refl _ _
  | keep _ _ ih => exact Respelt.cons ih
  | @edit _ _ w s t _ _ q e _ _ he hw hq hs hnew _ ih =>
    rw [Option.bind_some, opening_quote hq] at ih
    obtain ⟨hne, rfl⟩ : s ≠ [] ∧ Rule.respelled a cwd file s = t := by
      rw [Rule.replacement] at hnew
      split at hnew
      · cases hnew
      · rename_i hne
        exact ⟨by simpa using hne, Option.some.inj hnew⟩
    have hs : s.IsQuotable := ⟨hne, hs trivial⟩
    refine respelt_enclosed hw.isUnquoted hq hs ?_ (ih.mono fun v w hvw => recorded_cons e hvw)
    rcases recorded_of_edit (n := n) ha hw.isUnquoted hq hs (congrArg Edit.old he)
      (congrArg Edit.new he) with h | ⟨htq, c, hc, hbefore, hafter⟩
    · exact Or.inl h
    · refine Or.inr ⟨htq, c, ?_, hbefore, hafter⟩
      rw [List.filterMap_cons, hc]
      exact List.mem_cons_self

theorem recorded_append {xs ys : List Change} {s t : Text} :
    Recorded (xs ++ ys) s t ↔ Recorded xs s t ∨ Recorded ys s t := by
  simp only [Recorded, List.mem_append, or_and_right, exists_or]

/-- One more rule on a line that was respelled. -/
theorem respelt_applyRule (ha : a.IsProper cwd file) (f : Form) (n : Nat) {line : Text}
    {state : Text × List Change} (h : Respelt (Recorded state.2) none line state.1)
    (hc : ∀ c ∈ state.2, a.aliased cwd file c.before = some c.after) :
    let state' := applyRule cwd file n state (.computed f a)
    Respelt (Recorded state'.2) none line state'.1 ∧
      ∀ c ∈ state'.2, a.aliased cwd file c.before = some c.after := by
  intro state'
  have hnew : ∀ c ∈ ((findFrom ((Rule.computed f a).editAt cwd file) Edit.stop 0 0 none
      state.1).filterMap (recordEdit (.computed f a) n)),
      a.aliased cwd file c.before = some c.after := by
    intro c hmem
    obtain ⟨e, he, hr⟩ := List.mem_filterMap.mp hmem
    obtain ⟨d, hd, -⟩ := mem_findFrom he
    exact (aliased_of_recordEdit ha.quotable hd hr).2
  have hsplice := respelt_of_splices ha f n
    (Rule.splices_findFrom _ cwd file state.1 (Nat.le_refl 0) none)
  refine ⟨(Respelt.comp ?_ h hsplice).mono ?_, ?_⟩
  · rintro v w x ⟨c, hmem, rfl, rfl⟩ ⟨d, hmem', hd, rfl⟩
    have hnone := ha.once _ _ (hc c hmem)
    rw [← hd, hnew d hmem'] at hnone
    cases hnone
  · exact fun v w => recorded_append.mpr
  · intro c hmem
    rcases List.mem_append.mp hmem with hmem | hmem
    · exact hc c hmem
    · exact hnew c hmem

/-- All computed rules on one line. -/
theorem respelt_respellLine (ha : a.IsProper cwd file) (n : Nat) (line : Text) :
    let done := respellLine cwd file (Rule.computedRules a) n line
    Respelt (Recorded done.2) none line done.1 := by
  have hfold : ∀ (forms : List Form) (state : Text × List Change),
      Respelt (Recorded state.2) none line state.1 →
      (∀ c ∈ state.2, a.aliased cwd file c.before = some c.after) →
      let done := (forms.map (.computed · a)).foldl (applyRule cwd file n) state
      Respelt (Recorded done.2) none line done.1 := by
    intro forms
    induction forms with
    | nil => exact fun _ h _ => h
    | cons f forms ih =>
      intro state h hc
      obtain ⟨h', hc'⟩ := respelt_applyRule ha f n h hc
      exact ih _ h' hc'
  exact hfold Form.all (line, []) (.refl _ _) (by simp)

/-- Lines that are respelled one by one, put together. -/
theorem respelt_unlines {R : Text → Text → Prop} {ls ls' : List Text}
    (h : List.Forall₂ (Respelt R none) ls ls') :
    Respelt R none (Text.unlines ls) (Text.unlines ls') := by
  induction h with
  | nil => exact .refl _ _
  | cons hl h ih =>
    cases h with
    | nil => simpa [Text.unlines, Text.join] using hl
    | cons hl' h =>
      rw [Text.unlines, Text.unlines, Text.join, Text.join, List.intercalate_cons_cons,
        List.intercalate_cons_cons, List.append_assoc, List.append_assoc]
      exact Respelt.append (by decide) hl ih

/-- Computed rules respell quoted specifiers of a text and change nothing else; what they respell
is recorded. -/
theorem respelt_text (ha : a.IsProper cwd file) (content : Text) :
    let r := text cwd file (Rule.computedRules a) content
    Respelt (Recorded r.changes) none content r.after := by
  intro r
  have hlines : ∀ (lines : List Text) (k : Nat),
      let done := respellLines cwd file (Rule.computedRules a) k lines
      List.Forall₂ (Respelt (Recorded (done.flatMap (·.2))) none) lines (done.map (·.1)) := by
    intro lines
    induction lines with
    | nil => exact fun _ => .nil
    | cons line lines ih =>
      intro k
      refine .cons ((respelt_respellLine ha k line).mono fun v w h => ?_)
        ((ih (k + 1)).imp fun l l' hl => hl.mono fun v w h => ?_)
      · exact recorded_append.mpr (Or.inl h)
      · exact recorded_append.mpr (Or.inr h)
  have h := respelt_unlines (hlines content.lines 1)
  rw [Text.unlines, Text.lines, Text.join_splitOn] at h
  exact h

end Respell
end ModuleGraph
