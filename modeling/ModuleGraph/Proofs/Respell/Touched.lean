import ModuleGraph.Proofs.Respell.Lines

/-!
Which pieces of a line the rules touch, and that these are the ones on record.

* `Touched`: the pieces before and after, with the pairs of texts that stood and stand between two
  equal quotes;
* `touched_sweep`: one rule records just what it touches, left to right;
* `touched_sweepAll`: all rules do, in some order, if nothing is replaced twice;
* `onLine_changes`: the record of a line is found by its number.
-/

namespace ModuleGraph

open Cursor Cut

/-- The old and the new specifier of a change. -/
def Change.pair (c : Change) : Text × Text := (c.before, c.after)

/-- The changes that are recorded of one line. -/
def Change.onLine (n : Nat) (changes : List Change) : List Change :=
  changes.filter fun c => c.line = (n : Int)

namespace Change

variable {n : Nat} {changes more : List Change}

theorem onLine_append : onLine n (changes ++ more) = onLine n changes ++ onLine n more :=
  List.filter_append changes more

theorem onLine_eq_self (h : ∀ c ∈ changes, c.line = n) : onLine n changes = changes :=
  List.filter_eq_self.mpr fun c hc => decide_eq_true (h c hc)

theorem onLine_eq_nil (h : ∀ c ∈ changes, c.line ≠ n) : onLine n changes = [] :=
  List.filter_eq_nil_iff.mpr fun c hc => by simpa using h c hc

end Change

/-- The pieces of a line before and after. A piece may be touched if the quotes around it are the
same; the pairs tell what it was and what it is now, left to right. -/
inductive Touched (R : Text → Text → Prop) : List Cut → List Cut → List (Text × Text) → Prop
  | nil : Touched R [] [] []
  | keep {cs ds : List Cut} {ps : List (Text × Text)} (c : Cut) :
      Touched R cs ds ps → Touched R (c :: cs) (c :: ds) ps
  | touch {cs ds : List Cut} {ps : List (Text × Text)} (c : Cut) {t : Text} : R c.piece t →
      cs.head?.map Cut.quote = some c.quote → Touched R cs ds ps →
      Touched R (c :: cs) (⟨c.quote, t⟩ :: ds) ((c.piece, t) :: ps)

theorem IsOnce.ne {R : Text → Text → Prop} (h : IsOnce R) {s t : Text} (hst : R s t) : t ≠ s := by
  rintro rfl
  exact h t t t hst hst

namespace Touched

variable {R : Text → Text → Prop} {cs ds es : List Cut} {ps qs : List (Text × Text)}
  {s t : Text}

theorem refl (R : Text → Text → Prop) (cs : List Cut) : Touched R cs cs [] := by
  induction cs with
  | nil => exact .nil
  | cons c cs ih => exact .keep c ih

theorem quotes (h : Touched R cs ds ps) : ds.map Cut.quote = cs.map Cut.quote := by
  induction h with
  | nil => rfl
  | keep c _ ih => rw [List.map_cons, List.map_cons, ih]
  | touch c _ _ _ ih => rw [List.map_cons, List.map_cons, ih]

theorem head?_quote (h : Touched R cs ds ps) :
    ds.head?.map Cut.quote = cs.head?.map Cut.quote := by
  rw [← List.head?_map, ← List.head?_map, h.quotes]

/-- What stands behind the last quote is never touched. -/
theorem getLast?_piece (h : Touched R cs ds ps) :
    ds.getLast?.map Cut.piece = cs.getLast?.map Cut.piece := by
  induction h with
  | nil => rfl
  | keep c h ih =>
    cases h with
    | nil => rfl
    | keep => simpa [List.getLast?_cons_cons] using ih
    | touch => simpa [List.getLast?_cons_cons] using ih
  | touch c _ hclose h ih =>
    cases h with
    | nil => cases hclose
    | keep => simpa [List.getLast?_cons_cons] using ih
    | touch => simpa [List.getLast?_cons_cons] using ih

theorem eq_of_nil (h : Touched R cs ds ps) (hps : ps = []) : ds = cs := by
  induction h with
  | nil => rfl
  | keep c _ ih => rw [ih hps]
  | touch => cases hps

/-- The pairs are those of the pieces that differ. -/
theorem pairs_eq (hR : IsOnce R) (h : Touched R cs ds ps) :
    ps = ((cs.map Cut.piece).zip (ds.map Cut.piece)).filter fun p => p.1 ≠ p.2 := by
  induction h with
  | nil => rfl
  | keep c _ ih => simpa using ih
  | touch c hst _ _ ih => simpa [(hR.ne hst).symm] using ih

/-- A new text stands between two equal quotes. -/
theorem exists_enclosed (h : Touched R cs ds ps) (hp : (s, t) ∈ ps) :
    ∃ front q back, spell ds = front ++ q :: (t ++ q :: back) ∧ q ∈ ds.map Cut.quote := by
  induction h with
  | nil => cases hp
  | keep c _ ih =>
    obtain ⟨front, q, back, hspell, hq⟩ := ih hp
    exact ⟨c.quote :: (c.piece ++ front), q, back, by simp [hspell], List.mem_cons_of_mem _ hq⟩
  | @touch cs ds ps c u _ hclose h ih =>
    rcases List.mem_cons.mp hp with heq | hp
    · obtain ⟨rfl, rfl⟩ := Prod.mk.inj heq
      rw [← h.head?_quote] at hclose
      obtain ⟨d, hd, hquote⟩ := Option.map_eq_some_iff.mp hclose
      obtain ⟨ds', rfl⟩ := List.head?_eq_some_iff.mp hd
      exact ⟨[], c.quote, d.piece ++ spell ds', by simp [hquote], List.mem_cons_self⟩
    · obtain ⟨front, q, back, hspell, hq⟩ := ih hp
      exact ⟨c.quote :: (u ++ front), q, back, by simp [hspell], List.mem_cons_of_mem _ hq⟩

/-- One run after another touches what either of them touches, if nothing is replaced twice. -/
theorem trans (hR : IsOnce R) (h : Touched R cs ds ps) (h' : Touched R ds es qs) :
    ∃ rs, Touched R cs es rs ∧ rs.Perm (ps ++ qs) := by
  induction h generalizing es qs with
  | nil => exact ⟨qs, h', .refl _⟩
  | keep c h ih =>
    cases h' with
    | keep _ h' =>
      obtain ⟨rs, hrs, hperm⟩ := ih h'
      exact ⟨rs, .keep c hrs, hperm⟩
    | touch _ hst hclose h' =>
      obtain ⟨rs, hrs, hperm⟩ := ih h'
      rw [h.head?_quote] at hclose
      exact ⟨_, .touch c hst hclose hrs, (hperm.cons _).trans List.perm_middle.symm⟩
  | touch c hst hclose h ih =>
    cases h' with
    | keep _ h' =>
      obtain ⟨rs, hrs, hperm⟩ := ih h'
      exact ⟨_, .touch c hst hclose hrs, hperm.cons _⟩
    | touch _ htu _ _ => exact absurd htu (hR _ _ _ hst)

end Touched

namespace Rule

variable {rule : Rule} {cwd file : Text} {Q : Text → Text → Prop}

/-- A rule records just what it touches. -/
theorem touched_sweep (hQ : rule.Moves cwd file Q) (n : Nat) (o : Bool) (cs : List Cut) :
    Touched Q cs (rule.sweep cwd file n o cs).1
      ((rule.sweep cwd file n o cs).2.map Change.pair) := by
  fun_induction sweep rule cwd file n o cs with
  | case1 => exact .nil
  | case2 o c => exact Touched.refl _ _
  | case3 o c d cs t ht later ih =>
    obtain ⟨-, hquote, hnew⟩ := replacement_of_ite ht
    rw [List.map_append]
    by_cases hne : t = c.piece
    · subst hne
      rw [record, if_pos rfl]
      exact .keep c (.keep d ih)
    · rw [record, if_neg hne]
      refine .touch c (hQ _ _ hnew hne) ?_ (.keep d ih)
      rw [hquote]
      rfl
  | case4 o c d cs ht later ih => exact .keep c ih

end Rule

namespace Respell

variable {cwd file : Text} {rules : List Rule} {Q : Text → Text → Prop} {n : Nat}
  {line content : Text} {c : Change}

/-- All rules record what they touch, in the order of the rules. -/
theorem touched_sweepAll (hQ : ∀ rule ∈ rules, rule.Moves cwd file Q) (honce : IsOnce Q) (n : Nat)
    (w : Text) (cs : List Cut) :
    ∃ ps, Touched Q cs (sweepAll cwd file n w rules cs).1 ps ∧
      ps.Perm ((sweepAll cwd file n w rules cs).2.map Change.pair) := by
  have hfold : ∀ state : List Cut × List Change,
      ∃ ps, Touched Q state.1 (rules.foldl (sweepRule cwd file n w) state).1 ps ∧
        (state.2.map Change.pair ++ ps).Perm
          ((rules.foldl (sweepRule cwd file n w) state).2.map Change.pair) := by
    induction rules with
    | nil => exact fun state => ⟨[], Touched.refl _ _, by simp⟩
    | cons rule rules ih =>
      intro state
      have hone := Rule.touched_sweep (hQ rule List.mem_cons_self) n (rule.form.opens w) state.1
      obtain ⟨ps, hps, hperm⟩ := ih (fun r hr => hQ r (List.mem_cons_of_mem _ hr))
        (sweepRule cwd file n w state rule)
      obtain ⟨rs, hrs, hrperm⟩ := hone.trans honce hps
      refine ⟨rs, hrs, ?_⟩
      rw [List.foldl_cons]
      refine .trans ?_ hperm
      rw [sweepRule, List.map_append, List.append_assoc]
      exact hrperm.append_left _
  exact hfold (cs, [])

theorem line_of_mem_respellLine (h : c ∈ (respellLine cwd file rules n line).2) : c.line = n := by
  obtain ⟨rule, -, -, e, -, hrecord⟩ := mem_respellLine h
  rw [recordEdit] at hrecord
  split at hrecord
  · cases hrecord
  · cases hrecord
    rfl

theorem exists_line_of_mem {lines : List Text}
    (h : c ∈ (respellLines cwd file rules n lines).flatMap (·.2)) :
    ∃ i < lines.length, c.line = (n + i : Nat) := by
  induction lines generalizing n with
  | nil => cases h
  | cons line lines ih =>
    rw [respellLines_cons, List.flatMap_cons, List.mem_append] at h
    rcases h with h | h
    · exact ⟨0, Nat.succ_pos _, line_of_mem_respellLine h⟩
    · obtain ⟨i, hi, hline⟩ := ih h
      exact ⟨i + 1, Nat.succ_lt_succ hi, by rw [hline]; congr 1; omega⟩

/-- Of all that is recorded, the record of a line has its number. -/
theorem onLine_respellLines {lines : List Text} {i : Nat} (h : lines[i]? = some line) :
    Change.onLine (n + i) ((respellLines cwd file rules n lines).flatMap (·.2)) =
      (respellLine cwd file rules (n + i) line).2 := by
  induction lines generalizing n i with
  | nil => cases h
  | cons first lines ih =>
    rw [respellLines_cons, List.flatMap_cons, Change.onLine_append]
    cases i with
    | zero =>
      obtain rfl : first = line := by simpa using h
      have hfirst : Change.onLine n (respellLine cwd file rules n first).2 = _ :=
        Change.onLine_eq_self fun c hc => line_of_mem_respellLine hc
      have hrest : Change.onLine n
          ((respellLines cwd file rules (n + 1) lines).flatMap (·.2)) = [] := by
        refine Change.onLine_eq_nil fun c hc => ?_
        obtain ⟨i, -, hline⟩ := exists_line_of_mem hc
        omega
      rw [Nat.add_zero, hfirst, hrest, List.append_nil]
    | succ i =>
      have hfirst : Change.onLine (n + (i + 1)) (respellLine cwd file rules n first).2 = [] := by
        refine Change.onLine_eq_nil fun c hc => ?_
        have hline := line_of_mem_respellLine hc
        omega
      have hrest := ih (n := n + 1) (i := i) (by simpa using h)
      rw [Nat.add_assoc, Nat.add_comm 1 i] at hrest
      rw [hfirst, hrest, List.nil_append]

/-- The record of a line of a text. -/
theorem onLine_changes {i : Nat} (h : content.lines[i]? = some line) :
    Change.onLine (i + 1) (text cwd file rules content).changes =
      (respellLine cwd file rules (i + 1) line).2 := by
  rw [Nat.add_comm i 1]
  exact onLine_respellLines h

theorem exists_line_of_mem_changes (h : c ∈ (text cwd file rules content).changes) :
    ∃ i < content.lines.length, c.line = (i + 1 : Nat) := by
  obtain ⟨i, hi, hline⟩ := exists_line_of_mem (show c ∈ List.flatMap _ _ from h)
  exact ⟨i, hi, by rw [hline, Nat.add_comm]⟩

end Respell
end ModuleGraph
