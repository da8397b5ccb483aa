import ModuleGraph.Proofs.Respell.Meaning
import ModuleGraph.Proofs.Respell.References
import ModuleGraph.Proofs.Respell.Settled

/-!
Respelling a text again.

* `opens_aliased`: if a statement begins at the end of a specifier, one does at the end of its
  aliased form;
* `Stands`, `settles_of_steps`: where a second sweep stands, and what each of its steps must do for
  it to change nothing;
* `settles_computed`, `settles_dotted`: rules whose steps do that;
* `text_twice`: respelling twice is respelling once, unless a new specifier and the quote after it
  come to open a quoted text;
* `not_text_twice`: they can.
-/

namespace ModuleGraph

open Cursor Cut

namespace Aliasing

variable {a : Aliasing} {cwd file s t : Text} {f : Form}

/-- A specifier at whose end a statement begins ends with a step to a name. -/
theorem exists_last (hs : Specifier.isRelative s = true) (ho : f.opens s = true) :
    ∃ pre front back : Text, s = pre ++ Path.slash :: (front ++ back) ∧ f.IsLead back ∧
      front.getLast?.any Text.isWord = false ∧ Path.IsName (front ++ back) := by
  obtain ⟨front, back, rfl, hfront, hback⟩ := Form.opens_iff.mp ho
  obtain ⟨x, v, hcons, hx⟩ := hback.exists_cons
  have hxmem : x ∈ front ++ back := by simp [hcons]
  have hslash : Path.slash ∈ front := by
    have hno : ∀ p : Text, p.all (· == '.') = true → front ++ back ≠ p := by
      rintro p hp rfl
      exact hx (eq_of_beq (List.all_eq_true.mp hp x hxmem))
    have hmem : Path.slash ∈ front ++ back := by
      rcases Specifier.isRelative_iff.mp hs with h | h
      · rcases Text.eq_of_head?_splitOn h with h | ⟨rest, h⟩
        · exact absurd h (hno _ (by decide))
        · rw [h]
          exact List.mem_append_right _ List.mem_cons_self
      · rcases Text.eq_of_head?_splitOn h with h | ⟨rest, h⟩
        · exact absurd h (hno _ (by decide))
        · rw [h]
          exact List.mem_append_right _ List.mem_cons_self
    exact (List.mem_append.mp hmem).resolve_right hback.not_mem_slash
  obtain ⟨tail, pre, hrev, htail⟩ := List.eq_append_cons_of_mem (List.mem_reverse.mpr hslash)
  have hsplit : front = pre.reverse ++ Path.slash :: tail.reverse := by
    have := congrArg List.reverse hrev
    simpa using this
  have hname : Path.IsName (tail.reverse ++ back) := by
    have hxmem : x ∈ tail.reverse ++ back := by simp [hcons]
    refine ⟨?_, by simp [hback.ne_nil], ?_, ?_⟩
    · rw [List.mem_append, not_or]
      exact ⟨by simpa using htail, hback.not_mem_slash⟩
    all_goals
      intro h
      rw [h] at hxmem
      simp only [Path.here, Path.up, List.mem_cons, List.not_mem_nil, or_false] at hxmem
      simp_all
  refine ⟨pre.reverse, tail.reverse, back, by rw [hsplit]; simp, hback, ?_, hname⟩
  cases htail' : tail.reverse.getLast? with
  | none => rfl
  | some y =>
    rw [hsplit, List.getLast?_append, List.getLast?_cons, htail'] at hfront
    exact hfront

/-- The place that a specifier means has the last name of the specifier. -/
theorem getLast?_target (hf : Path.IsNormal file) {pre last : Text} (hlast : Path.IsName last)
    (hs : Specifier.isRelative (pre ++ Path.slash :: last) = true) :
    (Path.names (target cwd file (pre ++ Path.slash :: last))).getLast? = some last := by
  obtain ⟨hd, -, -⟩ := hf.directory
  have hb := Specifier.not_isAbsolute hs
  have hnames : Path.names last = [last] := by
    have hjoin : Path.names (Text.join [Path.slash] [last]) = [last] :=
      Path.names_join_names (by simpa using hlast)
    rwa [Text.join, List.intercalate_singleton] at hjoin
  rw [target, hf.absolute_eq, Path.names_normalize (Path.isAbsolute_join hd.absolute _),
    Path.resolved_join hd hb, Path.names_append_slash, hnames, List.foldl_append,
    Path.foldl_pushName_of_isName (by simpa using hlast), List.reverse_append,
    List.getLast?_append]
  rfl

/-- If a statement begins at the end of a specifier, one does at the end of its aliased form. -/
theorem opens_aliased (hm : a.mark.getLast?.any Text.isWord = false) (hf : Path.IsNormal file)
    (hr : Path.IsNormal a.root) (h : a.aliased cwd file s = some t) (ho : f.opens s = true) :
    f.opens t = true := by
  obtain ⟨hs, below, hne, hnames, rfl⟩ := aliased_spec hf hr h
  obtain ⟨pre, front, back, rfl, hback, hfront, hname⟩ := exists_last hs ho
  have hlast : (Path.names (target cwd file (pre ++ Path.slash :: (front ++ back)))).getLast? =
      some (front ++ back) := getLast?_target hf hname hs
  rcases List.eq_nil_or_concat below with rfl | ⟨init, last, rfl⟩
  · exact absurd rfl hne
  rw [List.concat_eq_append] at hnames ⊢
  rw [hnames, ← List.append_assoc, List.getLast?_concat, Option.some.injEq] at hlast
  subst hlast
  rw [Form.opens_iff]
  have hlastOf : ∀ lead : Text, lead.getLast?.any Text.isWord = false →
      (lead ++ front).getLast?.any Text.isWord = false := by
    intro lead hlead
    rw [List.getLast?_append]
    cases hf : front.getLast? with
    | none => exact hlead
    | some y =>
      rw [hf] at hfront
      exact hfront
  by_cases hinit : init = []
  · subst hinit
    refine ⟨a.mark ++ front, back, ?_, hlastOf _ hm, hback⟩
    simp [Text.join]
  · refine ⟨(a.mark ++ Text.join [Path.slash] init ++ [Path.slash]) ++ front, back, ?_,
      hlastOf _ ?_, hback⟩
    · rw [Text.join_concat hinit]
      simp
    · rw [List.getLast?_concat]
      decide

end Aliasing

/-- A specifier that begins with a dot became one that does not. -/
def Dotted (s t : Text) : Prop := s.head? = some '.' ∧ t.head? ≠ some '.'

theorem isOnce_dotted : IsOnce Dotted := fun _ _ _ h h' => h.2 h'.1

namespace Rule

variable {a : Aliasing} {cwd file : Text} {f : Form} {changes : List Change} {after : Text}
  {rule : Rule} {n : Nat} {o : Bool} {cs : List Cut} {Q : Text → Text → Prop}

/-- What a computed rule puts in a place has no aliased form. -/
theorem replacement_computed {s t : Text} (ha : ∀ s t, a.aliased cwd file s = some t →
      t ≠ [] ∧ a.aliased cwd file t = none)
    (h : (computed f a).replacement cwd file s = some t) :
    t ≠ [] ∧ a.aliased cwd file t = none := by
  rw [replacement] at h
  split at h
  · cases h
  · rename_i hne
    rw [Option.some.injEq] at h
    subst h
    cases hal : a.aliased cwd file s with
    | none =>
      rw [respelled, hal]
      exact ⟨by simpa using hne, hal⟩
    | some u =>
      rw [respelled, hal]
      exact ha s u hal

/-- A computed rule that changes something puts the aliased form in the place of a specifier. -/
theorem moves_computed :
    (computed f a).Moves cwd file fun s t => a.aliased cwd file s = some t := by
  intro s t ht hne
  rw [replacement] at ht
  split at ht
  · cases ht
  · rw [Option.some.injEq] at ht
    subst ht
    cases hal : a.aliased cwd file s with
    | none =>
      rw [respelled, hal] at hne
      exact absurd rfl hne
    | some u =>
      rw [respelled, hal]
      rfl

theorem moves_computedRules :
    ∀ rule ∈ computedRules a, rule.Moves cwd file fun s t => a.aliased cwd file s = some t := by
  intro rule hrule
  obtain ⟨f, -, rfl⟩ := List.mem_map.mp hrule
  exact moves_computed

/-- One piece after another in a text. -/
theorem infix_of_append {s : Text} {c : Cut} {ds : List Cut}
    (h : s ++ spell (c :: ds) <:+: after) : c.piece ++ spell ds <:+: after := by
  refine List.IsInfix.trans ⟨s ++ [c.quote], [], ?_⟩ h
  simp

theorem taken_eq_none_of_replacement {c : Cut} {ds : List Cut}
    (h : rule.replacement cwd file c.piece = none) : rule.taken cwd file (c :: ds) = none := by
  rw [Option.eq_none_iff_forall_ne_some]
  intro t htaken
  obtain ⟨-, -, -, -, hnew⟩ := taken_cons_eq_some htaken
  rw [h] at hnew
  cases hnew

/-- The quote that closes the first piece is still there after a sweep and what comes after. -/
theorem quote_eq {R : Text → Text → Prop} {d : Cut} {es : List Cut} {e : Cut}
    (h : List.Forall₂ (Altered R) (rule.sweep cwd file n o (d :: cs)).1 (e :: es)) :
    e.quote = d.quote := by
  have hmoves : rule.Moves cwd file fun _ _ => True := fun _ _ _ _ => trivial
  have hself := altered_sweep hmoves n o (d :: cs) fun _ hc => hc
  generalize (rule.sweep cwd file n o (d :: cs)).1 = ds at h hself
  cases hself with
  | cons hd _ =>
    cases h with
    | cons he _ => exact he.quote.trans hd.quote

/-- Where a second sweep stands: before pieces of the text, after what became of a piece. -/
structure Stands (changes : List Change) (Q : Text → Text → Prop) (after s t : Text)
    (ds : List Cut) : Prop where
  kept : Kept (Marked changes Q) s t
  inside : t ++ spell ds <:+: after
  proper : ∀ d ∈ ds, d.IsProper

theorem Stands.next {s t u : Text} {d : Cut} {ds : List Cut}
    (h : Stands changes Q after s t (d :: ds)) (hd : Kept (Marked changes Q) u d.piece) :
    Stands changes Q after u d.piece ds :=
  ⟨hd, infix_of_append h.inside, fun c hc => h.proper c (List.mem_cons_of_mem _ hc)⟩

/-- A rule leaves what became of the pieces if it leaves what became of a piece that it took and
does not take what became of one that it did not take. -/
theorem settles_of_steps
    (htook : ∀ {n m : Nat} {s t u : Text} {c d c' d' : Cut} {ds : List Cut},
      Stands changes Q after s t (c' :: d' :: ds) → rule.form.opens s = true →
      c.quote = d.quote → rule.replacement cwd file c.piece = some u →
      (∀ x ∈ rule.record n c.piece u, x ∈ changes) →
      Altered (Marked changes Q) ⟨c.quote, u⟩ c' → Altered (Marked changes Q) d d' →
      rule.sweep cwd file m (rule.form.opens d'.piece) ds = (ds, []) →
      rule.sweep cwd file m (rule.form.opens t) (c' :: d' :: ds) = (c' :: d' :: ds, []))
    (hleft : ∀ {s t : Text} {c c' d' : Cut} {ds : List Cut},
      Stands changes Q after s t (c' :: d' :: ds) → Altered (Marked changes Q) c c' →
      (rule.form.opens s = true → rule.replacement cwd file c.piece = none) →
      c'.quote = d'.quote → rule.form.opens t = true →
      rule.replacement cwd file c'.piece = none) :
    rule.Settles cwd file changes Q after := by
  intro n m cs ds s₀ t₀ hkept hinside hproper
  have hstands : Stands changes Q after s₀ t₀ ds := ⟨hkept, hinside, hproper⟩
  clear hkept hinside hproper
  generalize ho : rule.form.opens s₀ = o
  -- The second sweep meets the pieces in the order in which the first one took or left them.
  fun_induction sweep rule cwd file n o cs generalizing s₀ t₀ ds with
  | case1 o =>
    intro _ h
    cases h
    rfl
  | case2 o c =>
    intro _ h
    rcases h with _ | ⟨_, _ | _⟩
    rfl
  | case3 o c d cs u hu later ih =>
    intro hchanges h
    obtain ⟨rfl, hquote, hnew⟩ := replacement_of_ite hu
    rcases h with _ | @⟨_, c', _, _, hc, _ | @⟨_, d', _, ds, hd, h⟩⟩
    refine htook hstands ho hquote hnew (fun x hx => hchanges x (List.mem_append_left _ hx))
      hc hd ?_
    exact ih ds d.piece d'.piece ((hstands.next hc.piece).next hd.piece) rfl
      (fun x hx => hchanges x (List.mem_append_right _ hx)) h
  | case4 o c d cs hu later ih =>
    intro hchanges h
    rcases h with _ | @⟨_, c', _, ds, hc, h⟩
    have hpassed : rule.form.opens t₀ = true → rule.taken cwd file (c' :: ds) = none := by
      intro hopen
      rw [Option.eq_none_iff_forall_ne_some]
      intro v htaken
      obtain ⟨d', es, rfl, hquote', hnew⟩ := taken_cons_eq_some htaken
      have hquote : c.quote = d.quote := by rw [← hc.quote, hquote', quote_eq h]
      rw [hleft hstands hc (fun hs => ?_) hquote' hopen] at hnew
      · cases hnew
      · rwa [← ho, hs, hquote, Bool.true_and, beq_self_eq_true, if_pos rfl] at hu
    rw [sweep_passed hpassed, ih ds c.piece c'.piece (hstands.next hc.piece) rfl hchanges h]

/-- A computed rule leaves what became of the pieces, if a piece that was altered opens a quoted
text just when the piece did that it was before. -/
theorem settles_computed (ha : ∀ s t, a.aliased cwd file s = some t →
      t ≠ [] ∧ a.aliased cwd file t = none)
    (hQ : ∀ s t, Q s t → a.aliased cwd file s = some t)
    (hopens : ∀ (s t : Text) (q : Char) (u : Text), Marked changes Q s t → isQuote q = true →
      u.IsQuotable → t ++ q :: u ++ [q] <:+: after → f.opens t = f.opens s) :
    (Rule.computed f a).Settles cwd file changes Q after := by
  have hsame : ∀ {s t : Text} {c d : Cut} {ds : List Cut},
      Stands changes Q after s t (c :: d :: ds) → c.piece ≠ [] → c.quote = d.quote →
      f.opens t = f.opens s := by
    intro s t c d ds hstands hne hquote
    rcases hstands.kept with rfl | hst
    · rfl
    · have hc := hstands.proper c List.mem_cons_self
      refine hopens s t c.quote c.piece hst hc.isQuote ⟨hne, hc.all⟩
        (List.IsInfix.trans ⟨[], d.piece ++ spell ds, ?_⟩ hstands.inside)
      simp [hquote]
  refine settles_of_steps ?_ ?_
  · -- what was put there has no aliased form, so it is taken and left as it is
    intro n m s t u c d c' d' ds hstands hopen hquote hnew _ hc hd hrest
    obtain ⟨hne, hnone⟩ := replacement_computed ha hnew
    have hpiece : c'.piece = u := by
      rcases hc.piece with h | h
      · exact h
      · rw [hQ _ _ h.2] at hnone
        cases hnone
    have hquote' : c'.quote = d'.quote := by rw [hc.quote, hd.quote, ← hquote]
    have hopen' : f.opens t = true := (hsame hstands (hpiece ▸ hne) hquote').trans hopen
    have htaken : (computed f a).taken cwd file (c' :: d' :: ds) = some u := by
      rw [taken, if_pos hquote', hpiece, replacement, if_neg (by simpa using hne), respelled, hnone]
      rfl
    have hcut : (⟨c'.quote, u⟩ : Cut) = c' := by rw [← hpiece]
    rw [show (computed f a).form.opens t = true from hopen', sweep_taken htaken, hpiece, hcut,
      record, if_pos rfl, hrest]
    rfl
  · -- what was left there was empty, and nothing that was empty is altered
    intro s t c c' d' ds hstands hc hold hquote hopen
    by_contra hnew
    have hne' : c'.piece ≠ [] := fun hnil => hnew (by rw [hnil]; rfl)
    have hne : c.piece ≠ [] := by
      rcases hc.piece with h | h
      · exact h ▸ hne'
      · intro hnil
        have hal := hQ _ _ h.2
        rw [hnil] at hal
        cases hal
    have hnone := hold ((hsame hstands hne' hquote).symm.trans hopen)
    rw [replacement, if_neg (by simpa using hne)] at hnone
    cases hnone

/-- A rule that takes up nothing but specifiers that begin with a dot, and puts others in their
place, leaves what became of the pieces, if no piece that was altered opens a quoted text that
begins with a dot. -/
theorem settles_dotted (hdot : ∀ s t, rule.replacement cwd file s = some t → Dotted s t)
    (hopens : ∀ (s t : Text) (q : Char), Marked changes Dotted s t → isQuote q = true →
      rule.form.opens t = true → ¬ t ++ [q, '.'] <:+: after) :
    rule.Settles cwd file changes Dotted after := by
  have hclosed : ∀ {s t : Text} {c : Cut} {ds : List Cut},
      Stands changes Dotted after s t (c :: ds) → Marked changes Dotted s t →
      rule.form.opens t = true → rule.replacement cwd file c.piece = none := by
    intro s t c ds hstands hst ho
    rw [Option.eq_none_iff_forall_ne_some]
    intro u hnew
    obtain ⟨v, hv⟩ := List.head?_eq_some_iff.mp (hdot _ _ hnew).1
    refine hopens s t c.quote hst (hstands.proper c List.mem_cons_self).isQuote ho
      (List.IsInfix.trans ⟨[], v ++ spell ds, ?_⟩ hstands.inside)
    simp [hv]
  refine settles_of_steps ?_ ?_
  · -- what was put there is not taken again, nor is the piece after its quote
    intro n m s t u c d c' d' ds hstands _ _ hnew hrecord hc hd hrest
    have hdotted := hdot _ _ hnew
    have hne : u ≠ c.piece := fun heq => hdotted.2 (heq ▸ hdotted.1)
    have hmarked : Marked changes Dotted c.piece u := ⟨recorded_of_record hne hrecord, hdotted⟩
    have hpiece : c'.piece = u := by
      rcases hc.piece with h | h
      · exact h
      · exact absurd h.2.1 hdotted.2
    have hpassed : rule.replacement cwd file c'.piece = none := by
      rw [Option.eq_none_iff_forall_ne_some]
      exact fun v hagain => hdotted.2 (hpiece ▸ (hdot _ _ hagain).1)
    have hnext : Stands changes Dotted after c.piece c'.piece (d' :: ds) :=
      hstands.next (.inr (hpiece ▸ hmarked))
    rw [sweep_passed fun _ => taken_eq_none_of_replacement hpassed,
      sweep_passed fun ho => taken_eq_none_of_replacement (hclosed hnext (hpiece ▸ hmarked) ho),
      hrest]
  · intro s t c c' d' ds hstands hc hold hquote hopen
    rcases hstands.kept with rfl | hst
    · rw [Option.eq_none_iff_forall_ne_some]
      intro v hnew
      have hpiece : c'.piece = c.piece := by
        rcases hc.piece with h | h
        · exact h
        · exact absurd (hdot _ _ hnew).1 h.2.2
      rw [hpiece, hold hopen] at hnew
      cases hnew
    · exact hclosed hstands hst hopen

end Rule

/-- No specifier that is new opens a quoted text that its old form did not open. -/
def Respelled.GainsNoLead (r : Respelled) : Prop :=
  ∀ c ∈ r.changes, ∀ (f : Form) (q : Char) (u : Text), isQuote q = true → u.IsQuotable →
    c.after ++ q :: u ++ [q] <:+: r.after → f.opens c.after = true → f.opens c.before = true

/-- No specifier that is new opens a quoted text that begins with a dot. -/
def Respelled.LeadsToNoStep (r : Respelled) : Prop :=
  ∀ c ∈ r.changes, ∀ (f : Form) (q : Char), isQuote q = true → f.opens c.after = true →
    ¬ c.after ++ [q, '.'] <:+: r.after

namespace Respell

variable {cwd file root : Text} {skip : Bool}

/-- The mark that both rule sets put before a path unless another is asked for. -/
def atMark : Text := ['@', '/']

theorem exists_way {a : Aliasing} {s t : Text} (h : a.aliased cwd file s = some t) :
    Specifier.isRelative s = true ∧ ∃ way, t = a.mark ++ way := by
  unfold Aliasing.aliased at h
  split at h
  · cases h
  · rename_i hrel
    rw [Bool.or_eq_true, not_or] at hrel
    dsimp only at h
    split at h
    · cases h
    · rw [Option.some.injEq] at h
      exact ⟨by simpa using hrel.1, _, h.symm⟩

/-- A specifier with the mark is not respelled, and is not empty. -/
theorem aliased_again {s t : Text} (h : Aliasing.aliased ⟨root, atMark, skip⟩ cwd file s = some t) :
    t ≠ [] ∧ Aliasing.aliased ⟨root, atMark, skip⟩ cwd file t = none := by
  obtain ⟨-, way, rfl⟩ := exists_way h
  exact ⟨by simp [atMark], rfl⟩

/-- Computed rules have nothing more to do in a text that they went over, if no new specifier
opens a quoted text that the old one did not. -/
theorem computed_twice (hcwd : Path.isAbsolute cwd = true) (hfile : Path.isAbsolute file = true)
    (hq : file.all isQuotable = true) (root : Text) (skip : Bool) (content : Text) :
    let rules := Rule.computedRules ⟨root, atMark, skip⟩
    let r := text cwd file rules content
    r.GainsNoLead → text cwd file rules r.after = ⟨r.after, r.after, []⟩ := by
  intro rules r hgains
  have hrules : ∀ rule ∈ rules, ∃ f, rule = .computed f ⟨root, atMark, skip⟩ := by
    intro rule hrule
    obtain ⟨f, -, rfl⟩ := List.mem_map.mp hrule
    exact ⟨f, rfl⟩
  let Q : Text → Text → Prop := fun s t =>
    Aliasing.aliased ⟨root, atMark, skip⟩ cwd file s = some t
  have honce : IsOnce Q := by
    intro s t u h h'
    have hnone := (aliased_again h).2
    rw [show Aliasing.aliased _ cwd file t = some u from h'] at hnone
    cases hnone
  refine text_again (Q := Q) ?_ ?_ ?_ honce content ?_
  · intro rule hrule
    obtain ⟨f, rfl⟩ := hrules rule hrule
    trivial
  · intro rule hrule
    obtain ⟨f, rfl⟩ := hrules rule hrule
    exact Rule.isTidy_computed f fun s t =>
      Aliasing.isQuotable_aliased_of_absolute hcwd hfile hq rfl
  · intro rule hrule
    obtain ⟨f, rfl⟩ := hrules rule hrule
    exact Rule.moves_computed
  · intro rule hrule
    obtain ⟨f, rfl⟩ := hrules rule hrule
    refine Rule.settles_computed (fun s t => aliased_again) (fun s t h => h) ?_
    rintro s t q u ⟨⟨c, hc, rfl, rfl⟩, hal⟩ hquote hu hafter
    rw [Bool.eq_iff_iff]
    refine ⟨hgains c hc f q u hquote hu hafter, ?_⟩
    have hal : Aliasing.aliased ⟨root, atMark, skip⟩ cwd file c.before = some c.after := hal
    rw [← Aliasing.aliased_root hcwd, ← Aliasing.aliased_absolute hcwd] at hal
    exact Aliasing.opens_aliased rfl (Path.isNormal_absolute hcwd file)
      (Path.isNormal_absolute hcwd root) hal

/-- A fixed rule that goes up at least one step takes up a specifier that begins with a dot. -/
theorem dotted_fixed {f : Form} {depth : Int} {directories : List Text} (hdepth : 0 < depth)
    {s t : Text} (h : (Rule.fixed f depth atMark directories).replacement cwd file s = some t) :
    Dotted s t ∧ ∃ r, s = Rule.steps depth ++ r ∧ t = atMark ++ r := by
  obtain ⟨r, rfl, rfl, -⟩ := Rule.replacement_fixed h
  refine ⟨⟨?_, by simp [atMark]⟩, r, rfl, rfl⟩
  obtain ⟨k, rfl⟩ := Int.exists_add_of_le hdepth
  rw [show (0 : Int) + 1 + k = Int.ofNat (k + 1) by simp; omega]
  rfl

/-- Fixed rules have nothing more to do in a text that they went over, if no new specifier opens
a quoted text that begins with a dot. -/
theorem fixed_twice (cwd file content : Text) :
    let rules := Rule.fixedRules atMark Rule.knownDirectories Rule.knownDepths
    let r := text cwd file rules content
    r.LeadsToNoStep → text cwd file rules r.after = ⟨r.after, r.after, []⟩ := by
  intro rules r hleads
  have hrules : ∀ rule ∈ rules, ∃ f depth, 0 < depth ∧
      rule = .fixed f depth atMark Rule.knownDirectories := by
    intro rule hrule
    obtain ⟨f, depth, hdepth, rfl⟩ := Rule.exists_of_mem_fixedRules hrule
    have hknown : ∀ d ∈ Rule.knownDepths, 0 < d := by decide
    exact ⟨f, depth, hknown depth hdepth, rfl⟩
  refine text_again (Q := Dotted) ?_ ?_ ?_ isOnce_dotted content ?_
  · intro rule hrule
    obtain ⟨f, depth, -, rfl⟩ := hrules rule hrule
    exact ⟨Rule.all_steps depth, by decide⟩
  · intro rule hrule
    obtain ⟨f, depth, -, rfl⟩ := hrules rule hrule
    exact Rule.isTidy_fixed (by decide) (by decide) (by decide) cwd file f depth
  · intro rule hrule s t ht _
    obtain ⟨f, depth, hpos, rfl⟩ := hrules rule hrule
    exact (dotted_fixed hpos ht).1
  · intro rule hrule
    obtain ⟨f, depth, hpos, rfl⟩ := hrules rule hrule
    refine Rule.settles_dotted (fun s t h => (dotted_fixed hpos h).1) ?_
    rintro s t q ⟨⟨c, hc, rfl, rfl⟩, -⟩ hquote hopen
    exact hleads c hc f q hquote hopen

/-- Respelling a text a second time changes nothing and records nothing, with the computed rules
if no new specifier opens a quoted text that its old form did not open, and with the fixed rules
if none opens a quoted text that begins with a dot. -/
theorem text_twice (hcwd : Path.isAbsolute cwd = true) (hfile : Path.isAbsolute file = true)
    (hq : file.all isQuotable = true) (root : Text) (skip : Bool) (content : Text) :
    (let rules := Rule.computedRules ⟨root, atMark, skip⟩
      let r := text cwd file rules content
      r.GainsNoLead → text cwd file rules r.after = ⟨r.after, r.after, []⟩) ∧
    (let rules := Rule.fixedRules atMark Rule.knownDirectories Rule.knownDepths
      let r := text cwd file rules content
      r.LeadsToNoStep → text cwd file rules r.after = ⟨r.after, r.after, []⟩) :=
  ⟨computed_twice hcwd hfile hq root skip content, fixed_twice cwd file content⟩

/-- An import whose specifier ends with a word that opens quoted texts. -/
def observing : Text := "import { from } from '../lib/from'"

theorem text_computed_observing :
    text "/p" "/p/src/a/b.ts" (Rule.computedRules ⟨"/p/src", atMark, true⟩) observing =
      ⟨observing, "import { from } from '@/lib/from'",
        [⟨"../lib/from", "@/lib/from", 1, "relative-to-alias:from"⟩]⟩ := by
  decide +kernel

/-- The fixed rules with the depths that are usual, which are in order. -/
theorem fixedRules_known (mark : Text) :
    Rule.fixedRules mark Rule.knownDirectories Rule.knownDepths =
      Rule.fixedForms.flatMap fun f =>
        Rule.knownDepths.map (.fixed f · mark Rule.knownDirectories) := by
  have hsorted : (Rule.knownDepths.mergeSort fun a b => b ≤ a) = Rule.knownDepths :=
    List.mergeSort_of_pairwise (by decide)
  rw [Rule.fixedRules, hsorted]

theorem text_fixed_observing :
    text "/p" "/p/src/a/b.ts" (Rule.fixedRules atMark Rule.knownDirectories Rule.knownDepths)
      observing = ⟨observing, "import { from } from '@/lib/from'",
        [⟨"../lib/from", "@/lib/from", 1, "deep-relative:from:1"⟩]⟩ := by
  rw [fixedRules_known]
  decide +kernel

theorem text_twice_observing :
    let rules := Rule.computedRules ⟨"/p/src", atMark, true⟩
    let fixed := Rule.fixedRules atMark Rule.knownDirectories Rule.knownDepths
    let r := text "/p" "/p/src/a/b.ts" rules observing
    let d := text "/p" "/p/src/a/b.ts" fixed observing
    (r.hasChanges = true ∧ r.GainsNoLead ∧
      text "/p" "/p/src/a/b.ts" rules r.after = ⟨r.after, r.after, []⟩) ∧
    (d.hasChanges = true ∧ d.LeadsToNoStep ∧
      text "/p" "/p/src/a/b.ts" fixed d.after = ⟨d.after, d.after, []⟩) := by
  intro rules fixed r d
  have hr : r = _ := text_computed_observing
  have hd : d = _ := text_fixed_observing
  have hgains : r.GainsNoLead := by
    intro c hc f q u _ _ _
    rw [hr, List.mem_singleton] at hc
    subst hc
    cases f <;> decide +kernel
  have hleads : d.LeadsToNoStep := by
    intro c hc f q hquote _
    rw [hd] at hc ⊢
    rw [List.mem_singleton] at hc
    subst hc
    simp only [isQuote, Bool.or_eq_true, beq_iff_eq] at hquote
    rcases hquote with rfl | rfl <;> decide +kernel
  have hcwd : Path.isAbsolute "/p" = true := by decide
  have hfile : Path.isAbsolute "/p/src/a/b.ts" = true := by decide
  obtain ⟨hcomputed, hfixed⟩ := text_twice hcwd hfile (by decide) "/p/src" true observing
  exact ⟨⟨by rw [hr]; decide, hgains, hcomputed hgains⟩, by rw [hd]; decide, hleads,
    hfixed hleads⟩

/-- A new specifier can open a quoted text, which is then respelled the second time. -/
theorem not_text_twice :
    (¬ ∀ cwd file root content : Text, Path.isAbsolute cwd = true → Path.isAbsolute file = true →
      file.all isQuotable = true →
      let rules := Rule.computedRules ⟨root, atMark, true⟩
      (text cwd file rules (text cwd file rules content).after).hasChanges = false) ∧
    (¬ ∀ cwd file content : Text, Path.isAbsolute cwd = true → Path.isAbsolute file = true →
      file.all isQuotable = true →
      let rules := Rule.fixedRules atMark Rule.knownDirectories Rule.knownDepths
      (text cwd file rules (text cwd file rules content).after).hasChanges = false) := by
  constructor
  · intro h
    have hsame := h "/p" "/p/src/a/b.ts" "/p/src" "import '../from/.'../y'" (by decide)
      (by decide) (by decide)
    revert hsame
    decide +kernel
  · intro h
    have hsame := h "/p" "/p/src/a/b.ts" "from '../lib/a from'../lib/b'" (by decide) (by decide)
      (by decide)
    rw [fixedRules_known] at hsame
    revert hsame
    decide +kernel

end Respell
end ModuleGraph
