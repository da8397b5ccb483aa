import ModuleGraph.Proofs.Respell.Lines
import ModuleGraph.Proofs.Source.Inverse
import ModuleGraph.Proofs.Source.Leads

/-!
The imports that respelling reaches.

* `spell_inj`: a line is cut at its quotes in one way;
* `sweep_append`: what stands behind a piece that is not taken is swept on its own;
* `aliased_of_opened`: after all rules, a piece that a statement opens has no aliased form, if the
  piece before it is none that a statement opens;
* `reaches_imports`: so the rules reach the imports that are found, but for the layouts that
  `InReach` names.
-/

namespace ModuleGraph

open Cursor Cut

/-- Only what follows the last quote counts for the beginning of a statement. -/
theorem Form.opens_append_quote {f : Form} {q : Char} (hq : isQuote q = true) (v w : Text) :
    f.opens (v ++ q :: w) = f.opens w := by
  have hfrom : ∀ before : Option Char,
      f.opensFrom before (v ++ q :: w) = f.opensFrom (some q) w := by
    have hno : ∀ (x : Char) (u : Text) (before : Option Char), q ∈ x :: u →
        (f.lead ⟨0, before, x :: u⟩).any (·.rest.isEmpty) = false := by
      intro x u before hmem
      rw [← Bool.not_eq_true, any_lead_iff]
      rintro ⟨-, hlead⟩
      have hunquoted := hlead.isUnquoted q hmem
      rw [hq] at hunquoted
      cases hunquoted
    induction v with
    | nil =>
      intro before
      rw [List.nil_append, opensFrom, hno q w before List.mem_cons_self, Bool.false_or]
    | cons x v ih =>
      intro before
      rw [List.cons_append, opensFrom, hno x _ before (by simp), Bool.false_or, ih]
  rw [opens, hfrom, opensFrom_quote hq]

namespace Cut

variable {w v : Text} {cs ds : List Cut}

/-- The piece before what follows; without one, the beginning of the line. -/
def lastPiece (w : Text) (cs : List Cut) : Text := (cs.getLast?.map piece).getD w

@[simp] theorem lastPiece_nil (w : Text) : lastPiece w [] = w := rfl

@[simp] theorem lastPiece_concat (w : Text) (cs : List Cut) (c : Cut) :
    lastPiece w (cs ++ [c]) = c.piece := by
  simp [lastPiece]

theorem lastPiece_cons (w : Text) (c : Cut) (cs : List Cut) :
    lastPiece w (c :: cs) = lastPiece c.piece cs := by
  rw [lastPiece, lastPiece, List.getLast?_cons]
  cases cs.getLast? <;> rfl

theorem spell_append (cs ds : List Cut) : spell (cs ++ ds) = spell cs ++ spell ds := by
  simp [spell]

/-- A line is cut at its quotes in one way. -/
theorem spell_inj (hw : w.IsUnquoted) (hv : v.IsUnquoted) (hcs : ∀ c ∈ cs, c.IsProper)
    (hds : ∀ d ∈ ds, d.IsProper) (h : w ++ spell cs = v ++ spell ds) : w = v ∧ cs = ds := by
  induction cs generalizing w v ds with
  | nil =>
    cases ds with
    | nil => exact ⟨by simpa using h, rfl⟩
    | cons d ds =>
      rw [spell_nil, List.append_nil, spell_cons] at h
      exact (Respelt.not_isUnquoted (hds d List.mem_cons_self).isQuote (h ▸ hw)).elim
  | cons c cs ih =>
    have hc := hcs c List.mem_cons_self
    cases ds with
    | nil =>
      rw [spell_nil, List.append_nil, spell_cons] at h
      exact (Respelt.not_isUnquoted hc.isQuote (h ▸ hv)).elim
    | cons d ds =>
      have hd := hds d List.mem_cons_self
      rw [spell_cons, spell_cons] at h
      obtain ⟨rfl, hquote, h⟩ := Respelt.append_cons_inj hw hv hc.isQuote hd.isQuote h
      obtain ⟨hpiece, rfl⟩ := ih (Rule.isUnquoted_of_all hc.all) (Rule.isUnquoted_of_all hd.all)
        (fun x hx => hcs x (List.mem_cons_of_mem _ hx))
        (fun x hx => hds x (List.mem_cons_of_mem _ hx)) h
      obtain ⟨quote, piece⟩ := c
      obtain ⟨quote', piece'⟩ := d
      simp only at hquote hpiece
      exact ⟨rfl, by rw [hquote, hpiece]⟩

/-- Where a statement begins before a quote, it does so in the piece before it. -/
theorem opens_spell {f : Form} (hcs : ∀ c ∈ cs, c.IsProper) (w : Text) :
    f.opens (w ++ spell cs) = f.opens (lastPiece w cs) := by
  rcases List.eq_nil_or_concat cs with rfl | ⟨pre, p, rfl⟩
  · simp
  · rw [List.concat_eq_append] at hcs ⊢
    have hp := hcs p (by simp)
    rw [spell_append, spell_cons, spell_nil, List.append_nil, ← List.append_assoc,
      Form.opens_append_quote hp.isQuote, lastPiece_concat]

end Cut

/-- Two lists that are related, the second one cut in two. -/
theorem exists_of_forall₂_append {α β : Type} {R : α → β → Prop} {xs : List α} {ys zs : List β}
    (h : List.Forall₂ R xs (ys ++ zs)) :
    ∃ us vs, xs = us ++ vs ∧ List.Forall₂ R us ys ∧ List.Forall₂ R vs zs := by
  induction ys generalizing xs with
  | nil => exact ⟨[], xs, rfl, .nil, h⟩
  | cons y ys ih =>
    rw [List.cons_append] at h
    cases h with
    | cons hxy h =>
      obtain ⟨us, vs, rfl, hus, hvs⟩ := ih h
      exact ⟨_ :: us, vs, rfl, .cons hxy hus, hvs⟩

namespace Rule

variable {rule : Rule} {cwd file s : Text} {n : Nat} {pre rest : List Cut}

/-- What stands behind a piece that is not taken is swept on its own, and the piece stays. -/
theorem sweep_append (rule : Rule) (cwd file : Text) (n : Nat) (rest : List Cut) :
    ∀ (pre : List Cut) (s : Text), (∀ front p, pre = front ++ [p] →
      rule.form.opens (lastPiece s front) = true → rule.taken cwd file (p :: rest) = none) →
    ∃ pre', (rule.sweep cwd file n (rule.form.opens s) (pre ++ rest)).1 =
        pre' ++ (rule.sweep cwd file n (rule.form.opens (lastPiece s pre)) rest).1 ∧
      pre'.length = pre.length ∧ pre'.getLast? = pre.getLast?
  | [], s, _ => ⟨[], rfl, rfl, rfl⟩
  | [b], s, hfree => by
    have hb : rule.form.opens s = true → rule.taken cwd file (b :: rest) = none := hfree [] b rfl
    refine ⟨[b], ?_, rfl, rfl⟩
    rw [List.singleton_append, sweep_passed hb, lastPiece_cons, lastPiece_nil]
    rfl
  | b :: b' :: pre, s, hfree => by
    by_cases ht : rule.form.opens s = true ∧
        (rule.taken cwd file (b :: b' :: (pre ++ rest))).isSome = true
    · obtain ⟨hopen, ht⟩ := ht
      obtain ⟨t, ht⟩ := Option.isSome_iff_exists.mp ht
      obtain ⟨pre', hsweep, hlength, hlast⟩ :=
        sweep_append rule cwd file n rest pre b'.piece fun front p hpre => by
          have h := hfree (b :: b' :: front) p (by rw [hpre]; rfl)
          rwa [lastPiece_cons, lastPiece_cons] at h
      refine ⟨⟨b.quote, t⟩ :: b' :: pre', ?_, by simp [hlength], ?_⟩
      · rw [hopen, List.cons_append, List.cons_append, sweep_taken ht, hsweep, lastPiece_cons,
          lastPiece_cons]
        rfl
      · rw [List.getLast?_cons_cons, List.getLast?_cons_cons, List.getLast?_cons,
          List.getLast?_cons, hlast]
    · have hpassed : rule.form.opens s = true →
          rule.taken cwd file (b :: b' :: (pre ++ rest)) = none := by
        intro hopen
        rw [← Option.not_isSome_iff_eq_none]
        exact fun h => ht ⟨hopen, h⟩
      obtain ⟨pre', hsweep, hlength, hlast⟩ :=
        sweep_append rule cwd file n rest (b' :: pre) b.piece fun front p hpre => by
          have h := hfree (b :: front) p (by rw [hpre]; rfl)
          rwa [lastPiece_cons] at h
      refine ⟨b :: pre', ?_, by simp [hlength], ?_⟩
      · rw [List.cons_append, List.cons_append, sweep_passed hpassed, lastPiece_cons]
        rw [List.cons_append] at hsweep
        rw [hsweep]
        rfl
      · rw [List.getLast?_cons, List.getLast?_cons, hlast]

end Rule

/-- At a file, aliased forms have none of their own, and open what the specifiers opened. -/
structure Aliasing.Steady (a : Aliasing) (cwd file : Text) : Prop where
  ne_nil : ∀ s t, a.aliased cwd file s = some t → s ≠ [] ∧ t ≠ []
  once : ∀ s t, a.aliased cwd file s = some t → a.aliased cwd file t = none
  opens : ∀ (f : Form) s t, a.aliased cwd file s = some t → f.opens s = true → f.opens t = true

namespace Aliasing.Steady

variable {a : Aliasing} {cwd file w : Text} {g : Form} {n : Nat} {cs pre post : List Cut}
  {c d : Cut} {q : Char}

/-- What rules may have made of a piece of a line. -/
abbrev Became (a : Aliasing) (cwd file : Text) : Cut → Cut → Prop :=
  Altered fun s t => a.aliased cwd file s = some t

/-- No statement opens the last of the pieces, or not with the quote `q` behind it. -/
def Free (w : Text) (pre : List Cut) (q : Char) : Prop :=
  ∀ front p, pre = front ++ [p] → p.quote = q → p.piece ≠ [] →
    ∀ g : Form, g.opens (lastPiece w front) = false

theorem opens_lastPiece (ha : a.Steady cwd file) {cs ds : List Cut}
    (h : List.Forall₂ (Became a cwd file) cs ds) {w v : Text}
    (hw : g.opens w = true → g.opens v = true) (ho : g.opens (lastPiece w cs) = true) :
    g.opens (lastPiece v ds) = true := by
  induction h generalizing w v with
  | nil => exact hw ho
  | cons hc _ ih =>
    rw [lastPiece_cons] at ho ⊢
    refine ih (fun hopen => ?_) ho
    rcases hc.piece with hpiece | hpiece
    · rwa [hpiece]
    · exact ha.opens g _ _ hpiece hopen

theorem ne_nil_of_became (ha : a.Steady cwd file) (h : Became a cwd file c d) :
    c.piece ≠ [] ↔ d.piece ≠ [] := by
  rcases h.piece with hpiece | hpiece
  · rw [hpiece]
  · obtain ⟨hc, hd⟩ := ha.ne_nil _ _ hpiece
    exact iff_of_true hc hd

/-- A piece that no statement opens in the end is not taken on the way. -/
theorem taken_eq_none (ha : a.Steady cwd file) {pre₀ post₀ front : List Cut} {c₀ p : Cut}
    (hpre : List.Forall₂ (Became a cwd file) pre₀ pre) (hc : Became a cwd file c₀ c)
    (hfree : Free w pre c.quote) (hsplit : pre₀ = front ++ [p])
    (hopen : g.opens (lastPiece w front) = true) :
    (Rule.computed g a).taken cwd file (p :: c₀ :: post₀) = none := by
  rw [Option.eq_none_iff_forall_ne_some]
  intro t ht
  obtain ⟨_, _, hcons, hquote, hnew⟩ := Rule.taken_cons_eq_some ht
  obtain ⟨rfl, rfl⟩ := List.cons_eq_cons.mp hcons
  rcases List.eq_nil_or_concat pre with rfl | ⟨front', p', rfl⟩
  · cases hpre
    simp at hsplit
  · rw [List.concat_eq_append] at hpre hfree
    obtain ⟨us, vs, rfl, hus, hvs⟩ := exists_of_forall₂_append hpre
    rcases hvs with _ | ⟨hp, ⟨⟩⟩
    obtain ⟨rfl, hlast⟩ := List.append_inj' hsplit rfl
    have hsame := (List.singleton_inj.mp hlast).symm
    subst hsame
    have hne : p.piece ≠ [] := by
      intro hnil
      rw [hnil] at hnew
      cases hnew
    have hclosed := hfree front' p' rfl (by rw [hp.quote, hquote, ← hc.quote])
      ((ha.ne_nil_of_became hp).mp hne) g
    rw [ha.opens_lastPiece hus id hopen] at hclosed
    cases hclosed

/-- One rule on a line, seen from a piece on that stands behind one that is free. -/
theorem exists_swept (ha : a.Steady cwd file) (g : Form) (n : Nat)
    (h : List.Forall₂ (Became a cwd file) cs (pre ++ c :: post)) (hfree : Free w pre c.quote) :
    ∃ pre₀ c₀ post₀ pre', cs = pre₀ ++ c₀ :: post₀ ∧ pre₀.length = pre.length ∧
      Became a cwd file c₀ c ∧ List.Forall₂ (Became a cwd file) post₀ post ∧
      ((Rule.computed g a).sweep cwd file n (g.opens w) cs).1 =
        pre' ++ ((Rule.computed g a).sweep cwd file n (g.opens (lastPiece w pre₀))
          (c₀ :: post₀)).1 ∧
      pre'.length = pre.length ∧ pre'.getLast? = pre₀.getLast? := by
  obtain ⟨pre₀, rest, rfl, hpre, hrest⟩ := exists_of_forall₂_append h
  rcases hrest with _ | ⟨hc, hpost⟩
  obtain ⟨pre', hsweep, hlength, hlast⟩ := Rule.sweep_append (.computed g a) cwd file n _ pre₀ w
    fun front p hsplit hopen => ha.taken_eq_none hpre hc hfree hsplit hopen
  exact ⟨pre₀, _, _, pre', rfl, hpre.length_eq, hc, hpost, hsweep, hlength.trans hpre.length_eq,
    hlast⟩

end Aliasing.Steady

namespace Respell

open Aliasing.Steady

variable {a : Aliasing} {cwd file w : Text} {n : Nat} {pre post : List Cut} {c d : Cut}

theorem became_foldl (ha : a.Steady cwd file) (fs : List Form) (state : List Cut × List Change) :
    List.Forall₂ (Became a cwd file) state.1
      ((fs.map (Rule.computed · a)).foldl (sweepRule cwd file n w) state).1 := by
  have hmoves : ∀ rule ∈ fs.map (Rule.computed · a), rule.Moves cwd file fun s t =>
      a.aliased cwd file s = some t := by
    intro rule hrule s t ht hne
    obtain ⟨f, -, rfl⟩ := List.mem_map.mp hrule
    rw [Rule.replacement] at ht
    split at ht
    · cases ht
    · rw [Option.some.injEq] at ht
      subst ht
      cases hal : a.aliased cwd file s with
      | none =>
        rw [Rule.respelled, hal] at hne
        exact absurd rfl hne
      | some u => rw [Rule.respelled, hal, Option.getD_some]
  have honce : IsOnce fun s t => a.aliased cwd file s = some t := by
    intro s t u h h'
    rw [ha.once s t h] at h'
    cases h'
  exact (altered_foldl hmoves honce fun _ hc => hc).imp fun _ _ h => h.mono fun _ _ h => h.2

/-- A free piece is left alone by all rules. -/
theorem exists_last_kept (ha : a.Steady cwd file) (fs : List Form)
    (state : List Cut × List Change)
    (h : ((fs.map (Rule.computed · a)).foldl (sweepRule cwd file n w) state).1 = pre ++ c :: post)
    (hfree : Free w pre c.quote) :
    ∃ pre₀ rest, state.1 = pre₀ ++ rest ∧ pre₀.length = pre.length ∧
      pre₀.getLast? = pre.getLast? := by
  induction fs generalizing state with
  | nil => exact ⟨pre, c :: post, h, rfl, rfl⟩
  | cons g fs ih =>
    have hbecame := became_foldl (n := n) (w := w) ha (g :: fs) state
    rw [h] at hbecame
    obtain ⟨pre₀, c₀, post₀, pre', hcs, hlength, -, -, hsweep, hlength', hlast⟩ :=
      ha.exists_swept g n hbecame hfree
    obtain ⟨pre₁, rest₁, hstate, hlength₁, hlast₁⟩ := ih _ h
    have hsame : pre₁ = pre' := by
      have hsplit : pre₁ ++ rest₁ = pre' ++ _ := hstate.symm.trans hsweep
      exact (List.append_inj hsplit (hlength₁.trans hlength'.symm)).1
    exact ⟨pre₀, _, hcs, hlength, by rw [← hlast, ← hsame, hlast₁]⟩

/-- After all rules, a piece that a statement opens has no aliased form, if the piece before it is
free. -/
theorem aliased_of_opened (ha : a.Steady cwd file) {f : Form} (cs : List Cut)
    (h : (sweepAll cwd file n w (Rule.computedRules a) cs).1 = pre ++ c :: d :: post)
    (hfree : Free w pre c.quote) (hopen : f.opens (lastPiece w pre) = true)
    (hquote : c.quote = d.quote) (hne : c.piece ≠ []) :
    a.aliased cwd file c.piece = none := by
  obtain ⟨before, after, hall⟩ : ∃ before after, Form.all = before ++ f :: after := by
    have hmem : f ∈ Form.all := by cases f <;> decide
    exact List.append_of_mem hmem
  rw [sweepAll, Rule.computedRules, hall, List.map_append, List.map_cons, List.foldl_append] at h
  generalize hstate : (before.map (Rule.computed · a)).foldl (sweepRule cwd file n w) (cs, []) =
    state at h
  have hbecame := became_foldl (n := n) (w := w) ha (f :: after) state
  rw [List.map_cons, h] at hbecame
  obtain ⟨pre₀, c₀, post₀, pre', hcs, hlength, hc, hpost, hsweep, hlength', hlast⟩ :=
    ha.exists_swept f n hbecame hfree
  obtain ⟨pre₁, rest₁, hcs₁, hlength₁, hlast₁⟩ := exists_last_kept ha (f :: after) state h hfree
  have hpre : pre₀ = pre₁ :=
    (List.append_inj (hcs.symm.trans hcs₁) (hlength.trans hlength₁.symm)).1
  have hopen₀ : f.opens (lastPiece w pre₀) = true := by
    rwa [lastPiece, hpre, hlast₁, ← lastPiece]
  rcases hpost with _ | @⟨d₀, _, later, _, hd, hpost⟩
  have hne₀ : c₀.piece ≠ [] := (ha.ne_nil_of_became hc).mpr hne
  have htaken : (Rule.computed f a).taken cwd file (c₀ :: d₀ :: later) =
      some (Rule.respelled a cwd file c₀.piece) := by
    rw [Rule.taken, if_pos (by rw [← hc.quote, hquote, hd.quote]), Rule.replacement,
      if_neg (by simpa using hne₀)]
  rw [hopen₀, Rule.sweep_taken htaken] at hsweep
  have hafter := became_foldl (n := n) (w := w) ha after
    (sweepRule cwd file n w state (.computed f a))
  rw [List.foldl_cons] at h
  rw [h] at hafter
  obtain ⟨us, vs, hsplit, hus, hvs⟩ := exists_of_forall₂_append hafter
  obtain ⟨-, rfl⟩ := List.append_inj (hsweep.symm.trans hsplit) (hlength'.trans hus.length_eq.symm)
  rcases hvs with _ | ⟨hlate, -⟩
  obtain ⟨-, hnone⟩ := Rule.replacement_computed (f := f)
    (fun s t hst => ⟨(ha.ne_nil s t hst).2, ha.once s t hst⟩)
    (show (Rule.computed f a).replacement cwd file c₀.piece = some _ from
      if_neg (by simpa using hne₀))
  rcases hlate.piece with hpiece | hpiece
  · rw [hpiece]
    exact hnone
  · rw [hnone] at hpiece
    cases hpiece

/-- With the usual mark, aliased forms have none of their own, and open what the specifiers
opened. -/
theorem steady_atMark (hcwd : Path.isAbsolute cwd = true) (root file : Text) (skip : Bool) :
    Aliasing.Steady ⟨root, atMark, skip⟩ cwd file where
  ne_nil s t h := by
    refine ⟨?_, (aliased_again h).1⟩
    rintro rfl
    cases h
  once s t h := (aliased_again h).2
  opens f s t h := by
    rw [← Aliasing.aliased_root hcwd, ← Aliasing.aliased_absolute hcwd] at h
    exact Aliasing.opens_aliased rfl (Path.isNormal_absolute hcwd file)
      (Path.isNormal_absolute hcwd root) h

end Respell

/-- The layouts in which the rules reach an import that is found in a text. -/
structure Statement.Found.InReach (f : Statement.Found) (t : Text) : Prop where
  /-- The word before the opening quote, and what is between them, stand on one line. -/
  inline : ∀ (u v : Text) (g : Form), f.front t = u ++ v → g.IsLead v → '\n' ∉ v
  /-- The word before the opening quote is not `type`. -/
  untyped : ∀ u gap : Text, f.front t = u ++ (Binding.typeWord ++ gap) →
    gap.all Text.isBlank = false
  /-- The opening quote does not close a quoted text that a statement opens. -/
  own : ∀ (u s : Text) (g : Form), f.front t = u ++ f.quoted.quote :: s → s.IsQuotable →
    g.opens u.lastLine = false

namespace Respell

variable {a : Aliasing} {cwd file w : Text} {t front back s : Text} {q : Char}

/-- The line on which a quoted text stands. -/
theorem exists_line (hq : isQuote q = true) (hs : s.IsQuotable) (front back : Text) :
    ∃ tail, front.lastLine ++ q :: (s ++ q :: tail) ∈
        Text.lines (front ++ q :: (s ++ q :: back)) ∧
      '\n' ∉ front.lastLine ++ q :: (s ++ q :: tail) := by
  have hone : ∀ {m : Text}, '\n' ∉ m → m.lines = [m] := Text.splitOn_of_not_mem
  have hquote : '\n' ≠ q := by
    rintro rfl
    revert hq
    decide
  have hspecifier : '\n' ∉ s := by
    intro hmem
    have hend := List.all_eq_true.mp hs.all _ hmem
    revert hend
    decide
  obtain ⟨tail, htail, hback⟩ := Text.exists_firstLine back
  refine ⟨tail, ?_⟩
  have hno : ∀ {line : Text}, '\n' ∉ line → '\n' ∉ line ++ q :: (s ++ q :: tail) := by
    intro line hline
    simp [hline, hquote, hspecifier, htail]
  have hhead : ∀ {line : Text}, '\n' ∉ line → line ++ q :: (s ++ q :: tail) ∈
      Text.lines (line ++ q :: (s ++ q :: back)) := by
    intro line hline
    rcases hback with rfl | ⟨later, rfl⟩
    · rw [hone (hno hline)]
      exact List.mem_singleton_self _
    · have hsplit : line ++ q :: (s ++ q :: (tail ++ '\n' :: later)) =
          (line ++ q :: (s ++ q :: tail)) ++ '\n' :: later := by simp
      rw [hsplit, Text.lines_append, hone (hno hline)]
      exact List.mem_append_left _ (List.mem_singleton_self _)
  obtain ⟨line, hline, rfl | ⟨earlier, rfl⟩⟩ := Text.exists_lastLine front
  · rw [Text.lastLine_of_not_mem hline]
    exact ⟨hhead hline, hno hline⟩
  · rw [Text.lastLine_append_cons, Text.lastLine_of_not_mem hline, List.append_assoc,
      List.cons_append, Text.lines_append]
    exact ⟨List.mem_append_right _ (hhead hline), hno hline⟩

/-- After computed rules, a quoted text that a statement opens on its line has no aliased form, if
its opening quote closes no quoted text that a statement opens. -/
theorem aliased_of_opens (ha : a.Steady cwd file)
    (hquotable : ∀ s t, s.IsQuotable → a.aliased cwd file s = some t → t.IsQuotable)
    (content : Text) {f : Form}
    (ht : (text cwd file (Rule.computedRules a) content).after = front ++ q :: (s ++ q :: back))
    (hq : isQuote q = true) (hs : s.IsQuotable) (hopen : f.opens front.lastLine = true)
    (hown : ∀ (u v : Text) (g : Form), front = u ++ q :: v → v.IsQuotable →
      g.opens u.lastLine = false) :
    a.aliased cwd file s = none := by
  have hp := Rule.isPlain_computedRules (a := a)
  have hr := Rule.isTidy_computedRules hquotable
  obtain ⟨tail, hmem, hno⟩ := exists_line hq hs front back
  rw [← ht, lines_after hp hr] at hmem
  obtain ⟨l, hl, hline⟩ := List.mem_map.mp hmem
  obtain ⟨w, cs, rfl, hw, hcs⟩ := exists_spell (Text.not_mem_of_mem_splitOn hl)
  rw [respellLine_spell hp hr 1 (Rule.isUnquoted_of_all hw) hcs] at hline
  have hproper := isProper_sweepAll hr 1 w hcs
  rw [List.mem_append, not_or] at hno
  obtain ⟨w', pre, hlast, hw', hpre⟩ := exists_spell hno.1
  have htail : '\n' ∉ tail := fun h => hno.2 (by simp [h])
  obtain ⟨v, post, rfl, hv, hpost⟩ := exists_spell htail
  have hcuts : ∀ c ∈ pre ++ ⟨q, s⟩ :: ⟨q, v⟩ :: post, c.IsProper := by
    intro c hc
    simp only [List.mem_append, List.mem_cons] at hc
    rcases hc with hc | rfl | rfl | hc
    · exact hpre c hc
    · exact ⟨hq, hs.all⟩
    · exact ⟨hq, hv⟩
    · exact hpost c hc
  have hspell : w ++ spell (sweepAll cwd file 1 w (Rule.computedRules a) cs).1 =
      w' ++ spell (pre ++ ⟨q, s⟩ :: ⟨q, v⟩ :: post) := by
    have hline' : w ++ spell (sweepAll cwd file 1 w (Rule.computedRules a) cs).1 = _ := hline
    rw [hline', hlast, spell_append]
    simp
  obtain ⟨rfl, hsweep⟩ := spell_inj (Rule.isUnquoted_of_all hw) (Rule.isUnquoted_of_all hw')
    hproper hcuts hspell
  rw [hlast, opens_spell hpre] at hopen
  refine aliased_of_opened ha cs hsweep ?_ hopen rfl hs.ne_nil
  rintro before p rfl hquote hne g
  have hp' : p.piece.IsQuotable := ⟨hne, (hpre p (by simp)).all⟩
  have hbefore : ∀ c ∈ before, c.IsProper := fun c hc => hpre c (by simp [hc])
  have hsplit : front.lastLine = (w ++ spell before) ++ q :: p.piece := by
    rw [hlast, spell_append, spell_cons, spell_nil, List.append_nil, List.append_assoc, hquote]
  have hno' : '\n' ∉ w ++ spell before := by
    have h := hno.1
    rw [hsplit, List.mem_append, not_or] at h
    exact h.1
  rw [← opens_spell hbefore]
  obtain ⟨line, hend, hfront⟩ := Text.exists_lastLine front
  rcases hfront with rfl | ⟨earlier, rfl⟩
  · rw [Text.lastLine_of_not_mem hend] at hsplit
    have h := hown _ _ g hsplit hp'
    rwa [Text.lastLine_of_not_mem hno'] at h
  · rw [Text.lastLine_append_cons, Text.lastLine_of_not_mem hend] at hsplit
    have h := hown (earlier ++ '\n' :: (w ++ spell before)) p.piece g (by rw [hsplit]; simp) hp'
    rwa [Text.lastLine_append_cons, Text.lastLine_of_not_mem hno'] at h

/-- What the rules leave of an import that they reach has no aliased form. -/
theorem aliased_of_inReach (ha : a.Steady cwd file)
    (hquotable : ∀ s t, s.IsQuotable → a.aliased cwd file s = some t → t.IsQuotable)
    (content : Text) {k : ImportKind} {f : Statement.Found} :
    let after := (text cwd file (Rule.computedRules a) content).after
    f ∈ findAll k.recognise (·.stop.offset) after → f.InReach after →
      a.aliased cwd file f.quoted.text = none := by
  intro after hf hreach
  obtain ⟨back, -, ht, hq, hs, u, v, hfront, hlead | ⟨-, gap, rfl, hgap⟩⟩ :=
    Statement.exists_of_found hf
  · obtain ⟨hword, g, -, hlead⟩ := hlead
    rw [Option.or_none] at hword
    have hopen : g.opens (f.front after).lastLine = true := by
      rw [hfront, Text.lastLine_append u (hreach.inline u v g hfront hlead), Form.opens_iff]
      exact ⟨u.lastLine, v, rfl, Text.any_getLast?_lastLine hword, hlead⟩
    exact aliased_of_opens ha hquotable content ht hq hs hopen fun u v g => hreach.own u v g
  · have hno := hreach.untyped u gap hfront
    rw [hgap] at hno
    cases hno

end Respell

namespace Source

/-- The imports of a text are its finds, kind by kind. -/
theorem mem_findImports {marks : List Text} {t : Text} {i : Import} :
    i ∈ findImports marks t ↔ ∃ k : ImportKind, ∃ f ∈ findAll k.recognise (·.stop.offset) t,
      i = (Import.ofFound marks (.ofText t) k f).2 := by
  have hkind : ∀ k : ImportKind, k ∈ ImportKind.all := by
    intro k
    cases k <;> decide
  simp only [findImports, inOrder, List.mem_map, List.mem_mergeSort, List.mem_flatMap, importsOf_eq]
  constructor
  · rintro ⟨_, ⟨k, -, f, hf, rfl⟩, rfl⟩
    exact ⟨k, f, hf, rfl⟩
  · rintro ⟨k, f, hf, rfl⟩
    exact ⟨_, ⟨k, hkind k, f, hf, rfl⟩, rfl⟩

end Source

namespace Respell

variable {cwd file : Text}

/-- The rules reach every import that is found in the respelled text, but for the layouts that
`InReach` names: no quoted text there has an aliased form, and no specifier does that is quoted
without blanks at its ends. -/
theorem reaches_imports (hcwd : Path.isAbsolute cwd = true) (hfile : Path.isAbsolute file = true)
    (hq : file.all isQuotable = true) (root : Text) (skip : Bool) (marks : List Text)
    (content : Text) :
    let a : Aliasing := ⟨root, atMark, skip⟩
    let after := (text cwd file (Rule.computedRules a) content).after
    (∀ i, i ∈ Source.findImports marks after ↔
      ∃ k : ImportKind, ∃ f ∈ findAll k.recognise (·.stop.offset) after,
        i = (Import.ofFound marks (.ofText after) k f).2) ∧
    ∀ k : ImportKind, ∀ f ∈ findAll k.recognise (·.stop.offset) after, f.InReach after →
      a.aliased cwd file f.quoted.text = none ∧
      (f.quoted.text.trim = f.quoted.text →
        a.aliased cwd file (Import.ofFound marks (.ofText after) k f).2.specifier = none) := by
  intro a after
  refine ⟨fun i => Source.mem_findImports, fun k f hf hreach => ?_⟩
  have hnone : a.aliased cwd file f.quoted.text = none :=
    aliased_of_inReach (steady_atMark hcwd root file skip)
      (fun s t => Aliasing.isQuotable_aliased_of_absolute hcwd hfile hq rfl) content hf hreach
  refine ⟨hnone, fun htrim => ?_⟩
  rw [Import.ofFound, htrim]
  exact hnone

/-- Any text before the opening quote that has no line end, no quote and no `y` will do. -/
theorem inReach_of_front {f : Statement.Found} {t front : Text} (hf : f.front t = front)
    (hline : '\n' ∉ front) (htype : 'y' ∉ front) (hquote : f.quoted.quote ∉ front) :
    f.InReach t where
  inline u v g h _ hmem := hline (by rw [← hf, h]; exact List.mem_append_right _ hmem)
  untyped u gap h := by
    exact absurd (by rw [← hf, h]; simp [Binding.typeWord]) htype
  own u s g h _ := by
    exact absurd (by rw [← hf, h]; simp) hquote

theorem reaches_imports_sample :
    let a : Aliasing := ⟨"/p/src", atMark, true⟩
    let after := (text "/p" "/p/src/a/b.ts" (Rule.computedRules a) "import a from '../x'").after
    after = "import a from '@/x'" ∧
      ∃ f ∈ findAll (ImportKind.recognise .static) (·.stop.offset) after, f.InReach after ∧
        a.aliased "/p" "/p/src/a/b.ts" (Import.ofFound [] (.ofText after) .static f).2.specifier =
          none := by
  intro a after
  have hafter : after = "import a from '@/x'" := by decide
  have hany : (findAll (ImportKind.recognise .static) (·.stop.offset) after).any (fun f =>
      f.front after = "import a from " ∧ f.quoted.quote = '\'' ∧
        f.quoted.text.trim = f.quoted.text) = true := by
    rw [hafter]
    decide
  obtain ⟨f, hf, hfound⟩ := List.any_eq_true.mp hany
  obtain ⟨hfront, hquote, htrim⟩ := of_decide_eq_true hfound
  have hreach : f.InReach after :=
    inReach_of_front hfront (by decide) (by decide) (by rw [hquote]; decide)
  have hall := (reaches_imports (by decide) (by decide) (by decide) "/p/src" true []
    "import a from '../x'").2 .static f hf hreach
  exact ⟨hafter, f, hf, hreach, hall.2 htrim⟩

/-- Imports in layouts that the rules do not reach: the word on the line before, `type` alone, a
blank before the specifier, a quote that closes another quoted text, and a path with a quote. -/
def leftBehind : List (Text × Text) := [
  ("/p/src/a/b.ts", "import a from\n'../x'"),
  ("/p/src/a/b.ts", "import type '../x'"),
  ("/p/src/a/b.ts", "import ' ../x'"),
  ("/p/src/a/b.ts", "from 'import a from'../x'"),
  ("/p/src/import a from'../b/c.ts", "export * from '../x'")]

theorem not_reaches_imports :
    (∀ c ∈ leftBehind, ∃ i ∈ Source.findImports []
        (text "/p" c.1 (Rule.computedRules ⟨"/p/src", atMark, true⟩) c.2).after,
      Aliasing.aliased ⟨"/p/src", atMark, true⟩ "/p" c.1 i.specifier ≠ none) ∧
    ¬ ∀ cwd file root content : Text, Path.isAbsolute cwd = true → Path.isAbsolute file = true →
      file.startsWith (root ++ ['/']) = true →
      ∀ i ∈ Source.findImports []
          (text cwd file (Rule.computedRules ⟨root, atMark, true⟩) content).after,
        Aliasing.aliased ⟨root, atMark, true⟩ cwd file i.specifier = none := by
  have hleft : ∀ c ∈ leftBehind, ∃ i ∈ Source.findImports []
      (text "/p" c.1 (Rule.computedRules ⟨"/p/src", atMark, true⟩) c.2).after,
      Aliasing.aliased ⟨"/p/src", atMark, true⟩ "/p" c.1 i.specifier ≠ none := by
    intro c hc
    have hany : ∀ c ∈ leftBehind, (findAll (ImportKind.recognise .static) (·.stop.offset)
        (text "/p" c.1 (Rule.computedRules ⟨"/p/src", atMark, true⟩) c.2).after).any (fun f =>
          (Aliasing.aliased ⟨"/p/src", atMark, true⟩ "/p" c.1 f.quoted.text.trim).isSome) =
        true := by
      decide
    obtain ⟨f, hf, hsome⟩ := List.any_eq_true.mp (hany c hc)
    refine ⟨_, Source.mem_findImports.mpr ⟨.static, f, hf, rfl⟩, ?_⟩
    exact Option.isSome_iff_ne_none.mp hsome
  refine ⟨hleft, fun h => ?_⟩
  obtain ⟨i, hi, hne⟩ := hleft ("/p/src/a/b.ts", "import a from\n'../x'") List.mem_cons_self
  exact hne (h "/p" "/p/src/a/b.ts" "/p/src" "import a from\n'../x'" (by decide) (by decide)
    (by decide) i hi)

end Respell
end ModuleGraph
