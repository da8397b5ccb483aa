import ModuleGraph.Proofs.Respell.Replacement
import ModuleGraph.Proofs.Respell.Rewriting

/-!
A line cut at its quotes, and what a rule does to the pieces.

* `sweep`: one rule on the pieces, left to right; a piece is taken if the piece before it opens
  its quote, the quote after it is the same and the rule has a replacement for it;
* `Sweeps`, `sweep_findFrom`: that is what the search and the edits of the rule come to;
* `respellLine_spell`: all rules on one line.
-/

namespace ModuleGraph

open Cursor

/-- A quote and what follows it up to the next one. -/
structure Cut where
  quote : Char
  piece : Text
  deriving Repr, DecidableEq

namespace Cut

structure IsProper (c : Cut) : Prop where
  isQuote : isQuote c.quote = true
  all : c.piece.all isQuotable = true

/-- The text that was cut, from its first quote on. -/
def spell (cs : List Cut) : Text := cs.flatMap fun c => c.quote :: c.piece

@[simp] theorem spell_nil : spell [] = [] := rfl

@[simp] theorem spell_cons (c : Cut) (cs : List Cut) :
    spell (c :: cs) = c.quote :: (c.piece ++ spell cs) := by
  simp [spell]

/-- Every line can be cut. -/
theorem exists_spell {line : Text} (h : '\n' ∉ line) :
    ∃ w cs, line = w ++ spell cs ∧ w.all isQuotable = true ∧ ∀ c ∈ cs, c.IsProper := by
  induction line with
  | nil => exact ⟨[], [], rfl, rfl, by simp⟩
  | cons x line ih =>
    rw [List.mem_cons, not_or] at h
    obtain ⟨w, cs, rfl, hw, hcs⟩ := ih h.2
    by_cases hx : Cursor.isQuote x = true
    · refine ⟨[], ⟨x, w⟩ :: cs, rfl, rfl, fun c hc => ?_⟩
      rcases List.mem_cons.mp hc with rfl | hc
      · exact ⟨hx, hw⟩
      · exact hcs c hc
    · have hquotable : isQuotable x = true := by
        simp only [isQuotable, Bool.and_eq_true, Bool.not_eq_true', bne_iff_ne]
        exact ⟨by simpa using hx, Ne.symm h.1⟩
      exact ⟨x :: w, cs, rfl, by rw [List.all_cons, hquotable, hw]; rfl, hcs⟩

end Cut

namespace Rule

open Cut

/-- The record of a replacement. -/
def record (rule : Rule) (n : Nat) (s t : Text) : List Change :=
  if t = s then [] else [⟨s, t, n, rule.name⟩]

/-- The replacement of the first piece, if the quotes around it are the same. -/
def taken (rule : Rule) (cwd file : Text) : List Cut → Option Text
  | c :: d :: _ => if c.quote = d.quote then rule.replacement cwd file c.piece else none
  | _ => none

/-- One rule on the pieces of a line. The first argument says if the first quote is opened by
what stands before it. A quote that closes a piece that was taken opens nothing. -/
def sweep (rule : Rule) (cwd file : Text) (n : Nat) : Bool → List Cut → List Cut × List Change
  | _, [] => ([], [])
  | _, [c] => ([c], [])
  | o, c :: d :: cs =>
    match if o && c.quote == d.quote then rule.replacement cwd file c.piece else none with
    | some t =>
      let later := sweep rule cwd file n (rule.form.opens d.piece) cs
      (⟨c.quote, t⟩ :: d :: later.1, rule.record n c.piece t ++ later.2)
    | none =>
      let later := sweep rule cwd file n (rule.form.opens c.piece) (d :: cs)
      (c :: later.1, later.2)

/-- What a rule takes up and what it puts in its place can stand between quotes. -/
def IsTidy (rule : Rule) (cwd file : Text) : Prop :=
  ∀ s t, s.all isQuotable = true → rule.replacement cwd file s = some t →
    s.IsQuotable ∧ t.IsQuotable

/-- A computed rule is tidy if what it respells can stand between quotes. -/
theorem isTidy_computed {a : Aliasing} {cwd file : Text} (f : Form)
    (h : ∀ s t, s.IsQuotable → a.aliased cwd file s = some t → t.IsQuotable) :
    (computed f a).IsTidy cwd file := by
  intro s t hs ht
  rw [replacement] at ht
  split at ht
  · cases ht
  · rename_i hne
    rw [Option.some.injEq] at ht
    have hsq : s.IsQuotable := ⟨by simpa using hne, hs⟩
    refine ⟨hsq, ?_⟩
    cases hal : a.aliased cwd file s with
    | none =>
      rw [← ht, respelled, hal]
      exact hsq
    | some u =>
      rw [← ht, respelled, hal]
      exact h s u hsq hal

/-- A fixed rule is tidy if its mark can stand between quotes and its directories begin as words
do. -/
theorem isTidy_fixed {mark : Text} {directories : List Text} (hmark : mark.all isQuotable = true)
    (hne : directories ≠ []) (hword : ∀ dir ∈ directories, dir.head?.any Text.isWord = true)
    (cwd file : Text) (f : Form) (depth : Int) :
    (fixed f depth mark directories).IsTidy cwd file := by
  intro s t hs ht
  obtain ⟨r, rfl, rfl, hbelow⟩ := replacement_fixed ht
  obtain ⟨x, v, rfl, -⟩ := exists_cons_of_isBelow hne hword hbelow
  rw [List.all_append, Bool.and_eq_true] at hs
  refine ⟨⟨by simp, ?_⟩, by simp, ?_⟩
  · rw [List.all_append, hs.1, hs.2]
    rfl
  · rw [List.all_append, hmark, hs.2]
    rfl

variable {rule : Rule} {cwd file w : Text} {n : Nat} {o : Bool} {c d : Cut} {cs : List Cut}
  {t : Text} {before : Option Char}

theorem sweep_taken (h : rule.taken cwd file (c :: d :: cs) = some t) :
    rule.sweep cwd file n true (c :: d :: cs) =
      (⟨c.quote, t⟩ :: d :: (rule.sweep cwd file n (rule.form.opens d.piece) cs).1,
        rule.record n c.piece t ++
          (rule.sweep cwd file n (rule.form.opens d.piece) cs).2) := by
  have hcond : (if true && c.quote == d.quote then rule.replacement cwd file c.piece else none) =
      some t := by
    simpa [taken] using h
  rw [sweep, hcond]

theorem taken_cons_eq_some {c : Cut} {ds : List Cut} {t : Text}
    (h : rule.taken cwd file (c :: ds) = some t) :
    ∃ d ds', ds = d :: ds' ∧ c.quote = d.quote ∧ rule.replacement cwd file c.piece = some t := by
  cases ds with
  | nil => cases h
  | cons d ds =>
    rw [taken] at h
    split at h
    · exact ⟨d, ds, rfl, ‹_›, h⟩
    · cases h

/-- Where nothing is taken, a rule goes on to the next quote. -/
theorem sweep_passed (h : o = true → rule.taken cwd file (c :: cs) = none) :
    rule.sweep cwd file n o (c :: cs) =
      (c :: (rule.sweep cwd file n (rule.form.opens c.piece) cs).1,
        (rule.sweep cwd file n (rule.form.opens c.piece) cs).2) := by
  cases cs with
  | nil => rfl
  | cons d cs =>
    have hcond : (if o && c.quote == d.quote then rule.replacement cwd file c.piece else none) =
        none := by
      cases o with
      | false => rfl
      | true => simpa [taken] using h rfl
    rw [sweep, hcond]

/-- Where nothing can be taken, it is all the same if the first quote is opened. -/
theorem sweep_congr (h : rule.taken cwd file cs = none) (o o' : Bool) :
    rule.sweep cwd file n o cs = rule.sweep cwd file n o' cs := by
  cases cs with
  | nil => rfl
  | cons c cs => rw [sweep_passed fun _ => h, sweep_passed fun _ => h]

/-- A replacement is recorded as the edit is that makes it. -/
theorem recordEdit_enclosed (hr : rule.IsTidy cwd file) {q : Char} {s : Text} {start stop : Nat}
    (hw : w.IsUnquoted) (hq : isQuote q = true) (hs : s.all isQuotable = true)
    (ht : rule.replacement cwd file s = some t) :
    (Respell.recordEdit rule n ⟨start, stop, enclosed w q s, enclosed w q t⟩).toList =
      rule.record n s t := by
  obtain ⟨hsq, htq⟩ := hr s t hs ht
  have hinj : enclosed w q t = enclosed w q s ↔ t = s := by simp [enclosed]
  rw [Respell.recordEdit, record]
  simp only [hinj]
  split
  · rfl
  · rw [Respell.specifierOf_enclosed hw hq hsq, Respell.specifierOf_enclosed hw hq htq]
    rfl

theorem filterMap_cons_toList {α β : Type} (f : α → Option β) (a : α) (as : List α) :
    (a :: as).filterMap f = (f a).toList ++ as.filterMap f := by
  rw [List.filterMap_cons]
  cases f a <;> rfl

/-- The piece that an edit at the beginning of a text is about. -/
theorem exists_of_editAt (hp : rule.IsPlain) (hw : w.IsUnquoted) (hcs : ∀ c ∈ cs, c.IsProper)
    {offset : Nat} {e : Edit}
    (h : rule.editAt cwd file ⟨offset, before, w ++ spell cs⟩ = some e) :
    rule.form.IsLead w ∧ before.any Text.isWord = false ∧ ∃ c d cs' t, cs = c :: d :: cs' ∧
      rule.taken cwd file cs = some t ∧ rule.replacement cwd file c.piece = some t ∧
      w ++ spell cs = enclosed w c.quote c.piece ++ (d.piece ++ spell cs') ∧
      e = ⟨offset, offset + (enclosed w c.quote c.piece).length, enclosed w c.quote c.piece,
        enclosed w c.quote t⟩ := by
  obtain ⟨w', q, s, t, rest, hrest, hlead, hb, hq, hs, hnew, rfl⟩ := editAt_eq_some hp h
  have hrest : w ++ spell cs = w' ++ q :: (s ++ q :: rest) := by simpa [enclosed] using hrest
  cases cs with
  | nil =>
    rw [spell_nil, List.append_nil] at hrest
    exact (Respelt.not_isUnquoted hq (hrest ▸ hw)).elim
  | cons c cs =>
    have hc := hcs c List.mem_cons_self
    rw [spell_cons] at hrest
    obtain ⟨rfl, rfl, hrest⟩ :=
      Respelt.append_cons_inj hw hlead.isUnquoted hc.isQuote hq hrest
    cases cs with
    | nil =>
      rw [spell_nil, List.append_nil] at hrest
      exact (Respelt.not_isUnquoted hq (hrest ▸ isUnquoted_of_all hc.all)).elim
    | cons d cs =>
      have hd := hcs d (by simp)
      rw [spell_cons] at hrest
      obtain ⟨rfl, hquote, rfl⟩ := Respelt.append_cons_inj (isUnquoted_of_all hc.all)
        (isUnquoted_of_all hs) hd.isQuote hq hrest
      refine ⟨hlead, hb, c, d, cs, t, rfl, ?_, hnew, ?_, rfl⟩
      · rw [taken, if_pos hquote.symm, hnew]
      · simp [enclosed, hquote]

/-- No statement begins at a quote. -/
theorem editAt_quote (hp : rule.IsPlain) (hcs : ∀ c ∈ cs, c.IsProper) (offset : Nat) :
    rule.editAt cwd file ⟨offset, before, spell cs⟩ = none := by
  rw [Option.eq_none_iff_forall_ne_some]
  intro e he
  have h := exists_of_editAt (w := []) hp Respelt.isUnquoted_nil hcs he
  exact h.1.ne_nil rfl

/-- Where a statement begins and nothing is taken, there is no edit because of the pieces. -/
theorem taken_of_editAt_none (hp : rule.IsPlain) (hw : rule.form.IsLead w)
    (hb : before.any Text.isWord = false) (hcs : ∀ c ∈ cs, c.IsProper) {offset : Nat}
    (h : rule.editAt cwd file ⟨offset, before, w ++ spell cs⟩ = none) :
    rule.taken cwd file cs = none := by
  rcases cs with _ | ⟨c, _ | ⟨d, cs⟩⟩
  · rfl
  · rfl
  · rw [taken]
    split
    · rename_i hquote
      have hc := hcs c List.mem_cons_self
      rw [Option.eq_none_iff_forall_ne_some]
      intro t ht
      have hsplit : w ++ spell (c :: d :: cs) =
          enclosed w c.quote c.piece ++ (d.piece ++ spell cs) := by
        simp [enclosed, hquote]
      rw [hsplit, editAt_enclosed hp hw hb hc.isQuote hc.all ht] at h
      cases h
    · rfl

/-- Where a statement begins and nothing is edited, it is all the same if it opens the pieces. -/
theorem sweep_opensFrom (hp : rule.IsPlain) (hcs : ∀ c ∈ cs, c.IsProper) {x : Char} {v : Text}
    {offset : Nat} (he : rule.editAt cwd file ⟨offset, before, (x :: v) ++ spell cs⟩ = none) :
    rule.sweep cwd file n (rule.form.opensFrom before (x :: v)) cs =
      rule.sweep cwd file n (rule.form.opensFrom (some x) v) cs := by
  by_cases hlead : (rule.form.lead ⟨0, before, x :: v⟩).any (·.rest.isEmpty) = true
  · obtain ⟨hb, hlead⟩ := Form.any_lead_iff.mp hlead
    exact sweep_congr (taken_of_editAt_none hp hlead hb hcs he) _ _
  · rw [Bool.not_eq_true] at hlead
    rw [Form.opensFrom, hlead, Bool.false_or]

/-- The search of a rule from some place on, and its edits, do to the pieces what a sweep does. -/
def Sweeps (rule : Rule) (cwd file : Text) (n resume offset : Nat) (before : Option Char)
    (w : Text) (cs : List Cut) : Prop :=
  let edits := findFrom (rule.editAt cwd file) Edit.stop resume offset before (w ++ spell cs)
  let swept := rule.sweep cwd file n (rule.form.opensFrom before w) cs
  Respell.spliceFrom offset (w ++ spell cs) edits = w ++ spell swept.1 ∧
    edits.filterMap (Respell.recordEdit rule n) = swept.2

section

variable {resume offset : Nat} (hp : rule.IsPlain)
include hp

/-- At a quote nothing is edited. -/
theorem Sweeps.quote {c : Cut} (hcs : ∀ d ∈ c :: cs, d.IsProper)
    (h : rule.Sweeps cwd file n resume (offset + 1) (some c.quote) c.piece cs) :
    rule.Sweeps cwd file n resume offset before [] (c :: cs) := by
  have hnone : rule.editAt cwd file ⟨offset, before, spell (c :: cs)⟩ = none :=
    editAt_quote hp hcs offset
  have hclosed : rule.form.opensFrom before [] = false := rfl
  obtain ⟨hspliced, hrecorded⟩ := h
  rw [spell_cons] at hnone
  rw [Form.opensFrom_quote (hcs c List.mem_cons_self).isQuote] at hspliced hrecorded
  rw [Sweeps]
  rw [List.nil_append, List.nil_append, spell_cons, findFrom_none hnone,
    Respell.spliceFrom_cons fun e => le_start_of_mem_findFrom, hclosed, sweep_passed (by simp),
    hspliced, hrecorded, spell_cons]
  exact ⟨rfl, rfl⟩

/-- Where nothing is edited both go on with the next character. -/
theorem Sweeps.passed {x : Char} {v : Text} (hcs : ∀ c ∈ cs, c.IsProper)
    (he : rule.editAt cwd file ⟨offset, before, (x :: v) ++ spell cs⟩ = none)
    (h : rule.Sweeps cwd file n resume (offset + 1) (some x) v cs) :
    rule.Sweeps cwd file n resume offset before (x :: v) cs := by
  obtain ⟨hspliced, hrecorded⟩ := h
  rw [Sweeps, sweep_opensFrom hp hcs he, List.cons_append]
  rw [List.cons_append] at he
  rw [findFrom_none he,
    Respell.spliceFrom_cons fun e => le_start_of_mem_findFrom, hspliced, hrecorded]
  exact ⟨rfl, rfl⟩

/-- Where there is an edit the piece is taken, and both go on after the quote that closes it. -/
theorem Sweeps.taken (hr : rule.IsTidy cwd file) (hw : w.IsUnquoted) {c d : Cut}
    (hcs : ∀ c' ∈ c :: d :: cs, c'.IsProper) {e : Edit} (hresume : resume ≤ offset)
    (he : rule.editAt cwd file ⟨offset, before, w ++ spell (c :: d :: cs)⟩ = some e)
    (h : rule.Sweeps cwd file n e.stop e.stop (some c.quote) d.piece cs) :
    rule.Sweeps cwd file n resume offset before w (c :: d :: cs) := by
  obtain ⟨hlead, hb, c, d, cs', t, hcut, htaken, hnew, hsplit, hedit⟩ :=
    exists_of_editAt hp hw hcs he
  obtain ⟨rfl, rfl, rfl⟩ : _ ∧ _ ∧ _ := by simpa only [List.cons.injEq] using hcut
  have hc := hcs c List.mem_cons_self
  have hstart : e.start = offset := by rw [hedit]
  have hstop : e.stop = offset + (enclosed w c.quote c.piece).length := by rw [hedit]
  have hnewText : e.new = enclosed w c.quote t := by rw [hedit]
  have hrecord : (Respell.recordEdit rule n e).toList = rule.record n c.piece t := by
    rw [hedit]
    exact recordEdit_enclosed hr hw hc.isQuote hc.all hnew
  have hopen : rule.form.opensFrom before w = true := by
    cases w with
    | nil => exact absurd rfl hlead.ne_nil
    | cons x v => rw [Form.opensFrom, Form.any_lead_iff.mpr ⟨hb, hlead⟩, Bool.true_or]
  obtain ⟨_, _, hcons, hquote, -⟩ := taken_cons_eq_some htaken
  obtain ⟨rfl, -⟩ := List.cons.inj hcons
  obtain ⟨hspliced, hrecorded⟩ := h
  rw [Form.opensFrom_quote hc.isQuote] at hspliced hrecorded
  rw [hsplit] at he
  rw [Sweeps, hsplit]
  rw [findFrom_found hresume (Respell.enclosed_ne_nil _ _ _) he hstop, hopen, sweep_taken htaken,
    Respell.getLast?_enclosed, Respell.spliceFrom_append hstart hstop, hnewText,
    filterMap_cons_toList, hrecord, hspliced, hrecorded]
  refine ⟨?_, rfl⟩
  simp [enclosed, hquote]

theorem sweep_findFrom (hr : rule.IsTidy cwd file) (n : Nat) :
    ∀ (w : Text) (cs : List Cut), w.IsUnquoted → (∀ c ∈ cs, c.IsProper) →
      ∀ (resume offset : Nat) (before : Option Char), resume ≤ offset →
        rule.Sweeps cwd file n resume offset before w cs
  | [], [], _, _, _, _, _, _ => ⟨rfl, rfl⟩
  | [], c :: cs, _, hcs, resume, offset, before, hresume =>
    .quote hp hcs (sweep_findFrom hr n c.piece cs
      (isUnquoted_of_all (hcs c List.mem_cons_self).all)
      (fun d hd => hcs d (List.mem_cons_of_mem _ hd)) resume (offset + 1) (some c.quote)
      (Nat.le_succ_of_le hresume))
  | x :: v, cs, hw, hcs, resume, offset, before, hresume => by
    cases he : rule.editAt cwd file ⟨offset, before, (x :: v) ++ spell cs⟩ with
    | none =>
      have hv : Text.IsUnquoted v := fun y hy => hw y (List.mem_cons_of_mem _ hy)
      exact .passed hp hcs he (sweep_findFrom hr n v cs hv hcs resume (offset + 1) (some x)
        (Nat.le_succ_of_le hresume))
    | some e =>
      obtain ⟨-, -, c, d, cs', -, hcut, -⟩ := exists_of_editAt hp hw hcs he
      subst hcut
      have hd : d.IsProper := hcs d (by simp)
      exact .taken hp hr hw hcs hresume he (sweep_findFrom hr n d.piece cs'
        (isUnquoted_of_all hd.all) (fun d' hd' => hcs d' (by simp [hd'])) e.stop e.stop
        (some c.quote) (Nat.le_refl _))
termination_by w cs => (w ++ spell cs).length
decreasing_by
  · simp
  · simp
  · simp only [hcut, spell_cons, List.length_append, List.length_cons]
    omega

end

theorem isProper_sweep (hr : rule.IsTidy cwd file) (n : Nat) (o : Bool)
    (hcs : ∀ c ∈ cs, c.IsProper) : ∀ c ∈ (rule.sweep cwd file n o cs).1, c.IsProper := by
  fun_induction sweep rule cwd file n o cs with
  | case1 => exact hcs
  | case2 => exact hcs
  | case3 o c d cs t ht later ih =>
    have hc := hcs c List.mem_cons_self
    have htq : rule.replacement cwd file c.piece = some t := by
      split at ht
      · exact ht
      · cases ht
    intro e he
    simp only [List.mem_cons] at he
    rcases he with rfl | rfl | he
    · exact ⟨hc.isQuote, (hr _ t hc.all htq).2.all⟩
    · exact hcs e (by simp)
    · exact ih (fun x hx => hcs x (by simp [hx])) e he
  | case4 o c d cs ht later ih =>
    intro e he
    rcases List.mem_cons.mp he with rfl | he
    · exact hcs e List.mem_cons_self
    · exact ih (fun x hx => hcs x (List.mem_cons_of_mem _ hx)) e he

end Rule

namespace Respell

open Cut

variable {cwd file w : Text} {rules : List Rule} {n : Nat} {cs : List Cut}

/-- One rule on the pieces of a line that begins with `w`, and on the record so far. -/
def sweepRule (cwd file : Text) (n : Nat) (w : Text) (state : List Cut × List Change)
    (rule : Rule) : List Cut × List Change :=
  let swept := rule.sweep cwd file n (rule.form.opens w) state.1
  (swept.1, state.2 ++ swept.2)

/-- All rules on the pieces of a line that begins with `w`. -/
def sweepAll (cwd file : Text) (n : Nat) (w : Text) (rules : List Rule) (cs : List Cut) :
    List Cut × List Change :=
  rules.foldl (sweepRule cwd file n w) (cs, [])

theorem applyRule_spell {rule : Rule} (hp : rule.IsPlain) (hr : rule.IsTidy cwd file) (n : Nat)
    (hw : w.IsUnquoted) (hcs : ∀ c ∈ cs, c.IsProper) (changes : List Change) :
    applyRule cwd file n (w ++ spell cs, changes) rule =
      (w ++ spell (sweepRule cwd file n w (cs, changes) rule).1,
        (sweepRule cwd file n w (cs, changes) rule).2) := by
  obtain ⟨h, h'⟩ := Rule.sweep_findFrom hp hr n w cs hw hcs 0 0 none (Nat.le_refl 0)
  rw [applyRule, splice, findAll]
  dsimp only
  rw [h, h']
  rfl

/-- All rules on one line do to its pieces what they do one after the other in a sweep. -/
theorem respellLine_spell (hp : ∀ rule ∈ rules, rule.IsPlain)
    (hr : ∀ rule ∈ rules, rule.IsTidy cwd file) (n : Nat) (hw : w.IsUnquoted)
    (hcs : ∀ c ∈ cs, c.IsProper) :
    respellLine cwd file rules n (w ++ spell cs) =
      (w ++ spell (sweepAll cwd file n w rules cs).1, (sweepAll cwd file n w rules cs).2) := by
  have hfold : ∀ (cs : List Cut) (changes : List Change), (∀ c ∈ cs, c.IsProper) →
      rules.foldl (applyRule cwd file n) (w ++ spell cs, changes) =
        (w ++ spell (rules.foldl (sweepRule cwd file n w) (cs, changes)).1,
          (rules.foldl (sweepRule cwd file n w) (cs, changes)).2) := by
    clear hcs
    induction rules with
    | nil => exact fun _ _ _ => rfl
    | cons rule rules ih =>
      intro cs changes hcs
      rw [List.foldl_cons, List.foldl_cons,
        applyRule_spell (hp rule List.mem_cons_self) (hr rule List.mem_cons_self) n hw hcs changes]
      exact ih (fun r hr => hp r (List.mem_cons_of_mem _ hr))
        (fun r hm => hr r (List.mem_cons_of_mem _ hm)) _ _
        (Rule.isProper_sweep (hr rule List.mem_cons_self) n _ hcs)
  exact hfold cs [] hcs

theorem isProper_sweepAll (hr : ∀ rule ∈ rules, rule.IsTidy cwd file) (n : Nat) (w : Text)
    (hcs : ∀ c ∈ cs, c.IsProper) : ∀ c ∈ (sweepAll cwd file n w rules cs).1, c.IsProper := by
  have hfold : ∀ state : List Cut × List Change, (∀ c ∈ state.1, c.IsProper) →
      ∀ c ∈ (rules.foldl (sweepRule cwd file n w) state).1, c.IsProper := by
    induction rules with
    | nil => exact fun _ h => h
    | cons rule rules ih =>
      intro state h
      exact ih (fun r hm => hr r (List.mem_cons_of_mem _ hm)) _
        (Rule.isProper_sweep (hr rule List.mem_cons_self) n _ h)
  exact hfold (cs, []) hcs

end Respell
end ModuleGraph
