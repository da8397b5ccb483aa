import ModuleGraph.Proofs.Respell.Sweep
import ModuleGraph.Proofs.Text.Lines

/-!
When a rule finds nothing more to do in a line that all rules went over.

* `Altered`: the pieces of a line before and after, the quotes staying what they are;
* `Settles`: a rule leaves what became of the pieces that it went over, given what is recorded;
* `text_again`: if every rule settles, respelling a text again changes nothing.
-/

namespace ModuleGraph

open Cursor Cut

/-- What can stand between quotes is on one line. -/
theorem Text.not_mem_of_all_isQuotable {w : Text} (hw : w.all isQuotable = true) : '\n' ∉ w := by
  intro hmem
  have hend := List.all_eq_true.mp hw _ hmem
  revert hend
  decide

/-- What a piece became, if anything: the same piece, or one that is related to it. -/
def Kept (R : Text → Text → Prop) (s t : Text) : Prop := t = s ∨ R s t

/-- One piece of a line before and after. -/
structure Altered (R : Text → Text → Prop) (c d : Cut) : Prop where
  quote : d.quote = c.quote
  piece : Kept R c.piece d.piece

/-- Nothing that was put in the place of a piece is replaced again. -/
def IsOnce (Q : Text → Text → Prop) : Prop := ∀ s t u, Q s t → ¬ Q t u

namespace Altered

variable {R Q : Text → Text → Prop} {c d e : Cut} {cs ds es : List Cut}

theorem refl (R : Text → Text → Prop) (c : Cut) : Altered R c c := ⟨rfl, Or.inl rfl⟩

theorem mono (h : Altered R c d) (hRQ : ∀ s t, R s t → Q s t) : Altered Q c d :=
  ⟨h.quote, h.piece.imp id (hRQ _ _)⟩

theorem trans (hR : IsOnce R) (h : Altered R c d) (h' : Altered R d e) : Altered R c e := by
  refine ⟨h'.quote.trans h.quote, ?_⟩
  rcases h.piece with hd | hd
  · rw [← hd]
    exact h'.piece
  · rcases h'.piece with he | he
    · rw [he]
      exact Or.inr hd
    · exact absurd he (hR _ _ _ hd)

theorem forall₂_refl (R : Text → Text → Prop) (cs : List Cut) :
    List.Forall₂ (Altered R) cs cs := List.forall₂_same.mpr fun c _ => refl R c

theorem forall₂_trans (hR : IsOnce R) (h : List.Forall₂ (Altered R) cs ds)
    (h' : List.Forall₂ (Altered R) ds es) : List.Forall₂ (Altered R) cs es := by
  induction h generalizing es with
  | nil => exact h'
  | cons hc _ ih =>
    cases h' with
    | cons hd h' => exact .cons (hc.trans hR hd) (ih h')

end Altered

/-- The pieces that were replaced, with what is on record. -/
def Marked (changes : List Change) (Q : Text → Text → Prop) (s t : Text) : Prop :=
  Recorded changes s t ∧ Q s t

namespace Rule

variable {rule : Rule} {cwd file : Text} {n : Nat} {o : Bool} {cs ds : List Cut}
  {changes : List Change} {Q : Text → Text → Prop} {s t : Text}

/-- The replacements of a rule that change something are related by `Q`. -/
def Moves (rule : Rule) (cwd file : Text) (Q : Text → Text → Prop) : Prop :=
  ∀ s t, rule.replacement cwd file s = some t → t ≠ s → Q s t

theorem recorded_of_record (hne : t ≠ s) (h : ∀ c ∈ rule.record n s t, c ∈ changes) :
    Recorded changes s t := by
  rw [record, if_neg hne] at h
  exact ⟨_, h _ List.mem_cons_self, rfl, rfl⟩

theorem replacement_of_ite {q q' : Char}
    (h : (if o && q == q' then rule.replacement cwd file s else none) = some t) :
    o = true ∧ q = q' ∧ rule.replacement cwd file s = some t := by
  split at h
  · rename_i hcond
    rw [Bool.and_eq_true, beq_iff_eq] at hcond
    exact ⟨hcond.1, hcond.2, h⟩
  · cases h

/-- A sweep alters pieces, and records what it alters. -/
theorem altered_sweep (hQ : rule.Moves cwd file Q) (n : Nat) (o : Bool) (cs : List Cut)
    (hchanges : ∀ c ∈ (rule.sweep cwd file n o cs).2, c ∈ changes) :
    List.Forall₂ (Altered (Marked changes Q)) cs (rule.sweep cwd file n o cs).1 := by
  fun_induction sweep rule cwd file n o cs with
  | case1 => exact .nil
  | case2 o c => exact Altered.forall₂_refl _ _
  | case3 o c d cs t ht later ih =>
    obtain ⟨-, -, hnew⟩ := replacement_of_ite ht
    simp only [List.mem_append] at hchanges
    refine .cons ⟨rfl, ?_⟩ (.cons (.refl _ d) (ih fun x hx => hchanges x (Or.inr hx)))
    by_cases hne : t = c.piece
    · exact Or.inl hne
    · exact Or.inr ⟨recorded_of_record hne fun x hx => hchanges x (Or.inl hx), hQ _ _ hnew hne⟩
  | case4 o c d cs ht later ih => exact .cons (.refl _ c) (ih hchanges)

/-- A rule leaves what became of the pieces that it went over, wherever they stand in a text that
all rules have gone over. -/
def Settles (rule : Rule) (cwd file : Text) (changes : List Change) (Q : Text → Text → Prop)
    (after : Text) : Prop :=
  ∀ (n m : Nat) (cs ds : List Cut) (s t : Text), Kept (Marked changes Q) s t →
    t ++ spell ds <:+: after → (∀ d ∈ ds, d.IsProper) →
    (∀ c ∈ (rule.sweep cwd file n (rule.form.opens s) cs).2, c ∈ changes) →
    List.Forall₂ (Altered (Marked changes Q)) (rule.sweep cwd file n (rule.form.opens s) cs).1 ds →
    rule.sweep cwd file m (rule.form.opens t) ds = (ds, [])

end Rule

namespace Respell

variable {cwd file w : Text} {rules : List Rule} {n : Nat} {cs : List Cut}
  {changes : List Change} {Q : Text → Text → Prop} {after : Text} {state : List Cut × List Change}

theorem exists_foldl_sweepRule (rules : List Rule) (state : List Cut × List Change) :
    ∃ more, (rules.foldl (sweepRule cwd file n w) state).2 = state.2 ++ more := by
  induction rules generalizing state with
  | nil => exact ⟨[], (List.append_nil _).symm⟩
  | cons rule rules ih =>
    obtain ⟨more, hmore⟩ := ih (sweepRule cwd file n w state rule)
    exact ⟨_, hmore.trans (List.append_assoc _ _ _)⟩

/-- What one rule records is still on record when all have gone over the line. -/
theorem mem_foldl_sweepRule {rule : Rule}
    (hchanges : ∀ c ∈ ((rule :: rules).foldl (sweepRule cwd file n w) state).2, c ∈ changes) :
    ∀ c ∈ (rule.sweep cwd file n (rule.form.opens w) state.1).2, c ∈ changes := by
  intro c hc
  obtain ⟨more, hmore⟩ :=
    exists_foldl_sweepRule (n := n) (w := w) rules (sweepRule cwd file n w state rule)
  refine hchanges c ?_
  rw [List.foldl_cons, hmore]
  exact List.mem_append_left _ (List.mem_append_right _ hc)

/-- All rules alter pieces, and record what they alter. -/
theorem altered_foldl (hQ : ∀ rule ∈ rules, rule.Moves cwd file Q) (honce : IsOnce Q)
    (hchanges : ∀ c ∈ (rules.foldl (sweepRule cwd file n w) state).2, c ∈ changes) :
    List.Forall₂ (Altered (Marked changes Q)) state.1
      (rules.foldl (sweepRule cwd file n w) state).1 := by
  induction rules generalizing state with
  | nil => exact Altered.forall₂_refl _ _
  | cons rule rules ih =>
    have hmarked : IsOnce (Marked changes Q) := fun s t u h h' => honce s t u h.2 h'.2
    exact Altered.forall₂_trans hmarked
      (Rule.altered_sweep (hQ rule List.mem_cons_self) n _ _ (mem_foldl_sweepRule hchanges))
      (ih (fun r hr => hQ r (List.mem_cons_of_mem _ hr)) hchanges)

/-- Every rule leaves what all rules made of the pieces of a line. -/
theorem sweep_foldl (hQ : ∀ rule ∈ rules, rule.Moves cwd file Q) (honce : IsOnce Q)
    (hsettles : ∀ rule ∈ rules, rule.Settles cwd file changes Q after)
    (hafter : w ++ spell (rules.foldl (sweepRule cwd file n w) state).1 <:+: after)
    (hproper : ∀ c ∈ (rules.foldl (sweepRule cwd file n w) state).1, c.IsProper)
    (hchanges : ∀ c ∈ (rules.foldl (sweepRule cwd file n w) state).2, c ∈ changes) (m : Nat) :
    ∀ rule ∈ rules, rule.sweep cwd file m (rule.form.opens w)
        (rules.foldl (sweepRule cwd file n w) state).1 =
      ((rules.foldl (sweepRule cwd file n w) state).1, []) := by
  induction rules generalizing state with
  | nil => simp
  | cons rule rules ih =>
    have hQ' : ∀ r ∈ rules, r.Moves cwd file Q := fun r hr => hQ r (List.mem_cons_of_mem _ hr)
    intro r hr
    rcases List.mem_cons.mp hr with rfl | hr
    · exact hsettles r List.mem_cons_self n m state.1 _ w w (Or.inl rfl) hafter hproper
        (mem_foldl_sweepRule hchanges)
        (altered_foldl hQ' honce hchanges)
    · exact ih hQ' (fun r hr => hsettles r (List.mem_cons_of_mem _ hr)) hafter hproper hchanges r hr

/-- All rules on one line again. -/
theorem respellLine_again (hp : ∀ rule ∈ rules, rule.IsPlain)
    (hr : ∀ rule ∈ rules, rule.IsTidy cwd file) (hQ : ∀ rule ∈ rules, rule.Moves cwd file Q)
    (honce : IsOnce Q) (hsettles : ∀ rule ∈ rules, rule.Settles cwd file changes Q after)
    {line : Text} (hline : '\n' ∉ line)
    (hafter : (respellLine cwd file rules n line).1 <:+: after)
    (hchanges : ∀ c ∈ (respellLine cwd file rules n line).2, c ∈ changes) (m : Nat) :
    respellLine cwd file rules m (respellLine cwd file rules n line).1 =
      ((respellLine cwd file rules n line).1, []) := by
  obtain ⟨w, cs, rfl, hw, hcs⟩ := exists_spell hline
  have hw' := Rule.isUnquoted_of_all hw
  rw [respellLine_spell hp hr n hw' hcs] at hafter hchanges ⊢
  have hproper := isProper_sweepAll hr n w hcs
  rw [respellLine_spell hp hr m hw' hproper]
  have hsame : ∀ rule ∈ rules, rule.sweep cwd file m (rule.form.opens w)
      (sweepAll cwd file n w rules cs).1 = ((sweepAll cwd file n w rules cs).1, []) :=
    sweep_foldl hQ honce hsettles hafter hproper hchanges m
  have hfold : sweepAll cwd file m w rules (sweepAll cwd file n w rules cs).1 =
      ((sweepAll cwd file n w rules cs).1, []) := by
    generalize (sweepAll cwd file n w rules cs).1 = ds at hsame ⊢
    clear hQ hsettles hp hr hafter hchanges hproper
    rw [sweepAll]
    induction rules with
    | nil => rfl
    | cons rule rules ih =>
      rw [List.foldl_cons, sweepRule, hsame rule List.mem_cons_self]
      exact ih fun r hr => hsame r (List.mem_cons_of_mem _ hr)
  rw [hfold]

theorem not_mem_respellLine (hp : ∀ rule ∈ rules, rule.IsPlain)
    (hr : ∀ rule ∈ rules, rule.IsTidy cwd file) (n : Nat) {line : Text} (hline : '\n' ∉ line) :
    '\n' ∉ (respellLine cwd file rules n line).1 := by
  obtain ⟨w, cs, rfl, hw, hcs⟩ := exists_spell hline
  rw [respellLine_spell hp hr n (Rule.isUnquoted_of_all hw) hcs]
  have hproper : ∀ c ∈ (sweepAll cwd file n w rules cs).1, c.IsProper :=
    isProper_sweepAll hr n w hcs
  rw [List.mem_append, not_or]
  refine ⟨Text.not_mem_of_all_isQuotable hw, ?_⟩
  intro hmem
  rw [spell, List.mem_flatMap] at hmem
  obtain ⟨c, hc, hmem⟩ := hmem
  rcases List.mem_cons.mp hmem with hq | hmem
  · have := (hproper c hc).isQuote
    rw [← hq] at this
    revert this
    decide
  · exact Text.not_mem_of_all_isQuotable (hproper c hc).all hmem

theorem infix_unlines {l : Text} {ls : List Text} (h : l ∈ ls) : l <:+: Text.unlines ls := by
  induction ls with
  | nil => cases h
  | cons k ls ih =>
    cases ls with
    | nil =>
      obtain rfl := List.mem_singleton.mp h
      exact ⟨[], [], by simp [Text.unlines, Text.join]⟩
    | cons k' ls =>
      have hsplit : Text.unlines (k :: k' :: ls) =
          k ++ ['\n'] ++ Text.unlines (k' :: ls) := List.intercalate_cons_cons
      rcases List.mem_cons.mp h with rfl | h
      · exact ⟨[], ['\n'] ++ Text.unlines (k' :: ls), by rw [hsplit]; simp⟩
      · obtain ⟨a, b, hab⟩ := ih h
        exact ⟨k ++ ['\n'] ++ a, b, by rw [hsplit, ← hab]; simp⟩

/-- The lines of a text after respelling, with what is recorded of each. -/
theorem mem_respellLines {lines : List Text} {done : Text × List Change}
    (h : done ∈ respellLines cwd file rules n lines) :
    ∃ line ∈ lines, ∃ m, done = respellLine cwd file rules m line := by
  obtain ⟨⟨line, m⟩, hmem, rfl⟩ := List.mem_map.mp h
  exact ⟨line, (List.mem_zipIdx hmem).2.2 ▸ List.getElem_mem _, m, rfl⟩

theorem respellLines_cons (n : Nat) (line : Text) (lines : List Text) :
    respellLines cwd file rules n (line :: lines) =
      respellLine cwd file rules n line :: respellLines cwd file rules (n + 1) lines := by
  simp [respellLines, List.zipIdx_cons]

/-- Lines that are left alone one by one. -/
theorem respellLines_of_forall {lines : List Text}
    (h : ∀ line ∈ lines, ∀ m, respellLine cwd file rules m line = (line, [])) (n : Nat) :
    respellLines cwd file rules n lines = lines.map fun line => (line, []) := by
  induction lines generalizing n with
  | nil => rfl
  | cons line lines ih =>
    have htail := ih (fun l hl => h l (List.mem_cons_of_mem _ hl)) (n + 1)
    rw [respellLines_cons, h line List.mem_cons_self, htail, List.map_cons]

/-- If every rule settles, respelling a text again changes nothing and records nothing. -/
theorem text_again (hp : ∀ rule ∈ rules, rule.IsPlain)
    (hr : ∀ rule ∈ rules, rule.IsTidy cwd file) (hQ : ∀ rule ∈ rules, rule.Moves cwd file Q)
    (honce : IsOnce Q) (content : Text) :
    let r := text cwd file rules content
    (∀ rule ∈ rules, rule.Settles cwd file r.changes Q r.after) →
      text cwd file rules r.after = ⟨r.after, r.after, []⟩ := by
  intro r hsettles
  have hnewline : ∀ l ∈ content.lines, '\n' ∉ l := fun l hl => Text.not_mem_of_mem_splitOn hl
  have hlines : r.after.lines = (respellLines cwd file rules 1 content.lines).map (·.1) := by
    refine Text.lines_unlines ?_ ?_
    · simp [respellLines, Text.lines, Text.splitOn_ne_nil]
    · intro l hl
      obtain ⟨done, hdone, rfl⟩ := List.mem_map.mp hl
      obtain ⟨line, hline, m, rfl⟩ := mem_respellLines hdone
      exact not_mem_respellLine hp hr m (hnewline line hline)
  have hsame : ∀ l ∈ r.after.lines, ∀ m, respellLine cwd file rules m l = (l, []) := by
    intro l hl m
    rw [hlines] at hl
    have hafter : l <:+: r.after := infix_unlines hl
    obtain ⟨done, hdone, rfl⟩ := List.mem_map.mp hl
    have hchanges : ∀ c ∈ done.2, c ∈ r.changes := fun c hc =>
      List.mem_flatMap.mpr ⟨done, hdone, hc⟩
    obtain ⟨line, hline, k, rfl⟩ := mem_respellLines hdone
    exact respellLine_again hp hr hQ honce hsettles (hnewline line hline) hafter hchanges m
  have hmap : ∀ ls : List Text,
      (ls.map fun l => ((l, []) : Text × List Change)).map (·.1) = ls := by
    intro ls
    simp [Function.comp_def]
  have hrecord : ∀ ls : List Text,
      (ls.map fun l => ((l, []) : Text × List Change)).flatMap (·.2) = [] := by
    intro ls
    simp
  rw [text, respellLines_of_forall hsame, hmap, hrecord, Text.unlines, Text.lines,
    Text.join_splitOn]

end Respell
end ModuleGraph
