import ModuleGraph.Proofs.Respell.Lines
import ModuleGraph.Proofs.Source.LineEnds

/-!
Respelling does not depend on the characters that the lines end in.

* `Cursor.extend`: the same place of a text that goes on;
* `editAt_extend`: an edit does not see what follows it, if no quote stands there;
* `respellLine_append`: so a line with something behind it is respelled as the line alone;
* `text_crlf`: the lines of a text are respelled as those of the text with carriage returns.
-/

namespace ModuleGraph

open Cursor

namespace Cursor

variable {c d e : Cursor} {v w : Text} {q : Char}

/-- The same place of a text that goes on with `v`. -/
def extend (v : Text) (c : Cursor) : Cursor := ⟨c.offset, c.before, c.rest ++ v⟩

theorem Passes.extend (h : Passes c w d) (v : Text) : Passes (c.extend v) w (d.extend v) where
  rest_eq := by simp [Cursor.extend, h.rest_eq]
  offset_eq := h.offset_eq
  before_eq := h.before_eq

theorem Passes.of_extend (h : Passes (c.extend v) w (d.extend v)) : Passes c w d where
  rest_eq := by
    have hrest : c.rest ++ v = w ++ (d.rest ++ v) := h.rest_eq
    rw [← List.append_assoc] at hrest
    exact List.append_cancel_right hrest
  offset_eq := h.offset_eq
  before_eq := h.before_eq

theorem upTo_extend (h : Passes c w d) (v : Text) : (c.extend v).upTo (d.extend v) = c.upTo d := by
  rw [(h.extend v).upTo_eq, h.upTo_eq]

/-- A quote does not stand in what a text goes on with. -/
theorem exists_of_append_unquoted {u z : Text} (hv : v.IsUnquoted) (hq : isQuote q = true)
    (h : u ++ v = w ++ q :: z) : ∃ z', u = w ++ q :: z' ∧ z = z' ++ v := by
  rcases List.append_eq_append_iff.mp h with ⟨a, rfl, hv'⟩ | ⟨a, rfl, hz⟩
  · have hmem : q ∈ v := by simp [hv']
    rw [hv q hmem] at hq
    cases hq
  · cases a with
    | nil =>
      rw [List.nil_append] at hz
      have hmem : q ∈ v := hz ▸ List.mem_cons_self
      rw [hv q hmem] at hq
      cases hq
    | cons y a =>
      obtain ⟨rfl, rfl⟩ := List.cons_eq_cons.mp hz
      exact ⟨a, rfl, rfl⟩

/-- What ends with a quote is passed over before the text goes on. -/
theorem exists_of_passes_extend (hv : v.IsUnquoted) (hq : isQuote q = true)
    (h : Passes (c.extend v) w d) {z : Text} (hd : d.rest = q :: z) :
    ∃ e z', d = e.extend v ∧ Passes c w e ∧ e.rest = q :: z' := by
  have hrest : c.rest ++ v = w ++ q :: z := by rw [← hd, ← h.rest_eq, extend]
  obtain ⟨z', hc, rfl⟩ := exists_of_append_unquoted hv hq hrest
  obtain ⟨e, he, hez⟩ := exists_passes hc
  refine ⟨e, z', ?_, he, hez⟩
  obtain ⟨-, hd'⟩ := Form.Passes.eq_mk h
  obtain ⟨-, he'⟩ := Form.Passes.eq_mk he
  rw [hd', hd, he', hez]
  rfl

theorem quoted_extend (hv : v.IsUnquoted) (c : Cursor) :
    (c.extend v).quoted = c.quoted.map fun q =>
      ⟨q.inside.extend v, q.text, q.quote, q.stop.extend v⟩ := by
  cases h : c.quoted with
  | some q =>
    obtain ⟨hq, hne, hall, hopen, hclose⟩ := quoted_eq_some h
    exact quoted_eq_some_of_passes hq ⟨hne, hall⟩ (hopen.extend v) (hclose.extend v)
  | none =>
    cases h' : (c.extend v).quoted with
    | none => rfl
    | some q =>
      obtain ⟨hq, hne, hall, hopen, hclose⟩ := quoted_eq_some h'
      have hsplit : c.rest ++ v = (q.quote :: q.text) ++ q.quote :: q.stop.rest := by
        have hrest : c.rest ++ v = [q.quote] ++ q.inside.rest := hopen.rest_eq
        rw [hrest, hclose.rest_eq]
        simp
      obtain ⟨z, hz, -⟩ := exists_of_append_unquoted hv hq hsplit
      obtain ⟨d, hd, hdz⟩ := exists_passes (w := [q.quote]) hz
      obtain ⟨e, he, -⟩ := exists_passes (c := d) (w := q.text ++ [q.quote]) (v := z)
        (by simp [hdz])
      rw [quoted_eq_some_of_passes hq ⟨hne, hall⟩ hd he] at h
      cases h

end Cursor

namespace Rule

variable {c d inner : Cursor} {v w dir z mark : Text} {q : Char} {f : Form} {rule : Rule}
  {cwd file : Text} {depth : Int} {directories : List Text} {e : Edit}

/-- The place of the opening quote behind a statement's beginning. -/
theorem lead_extend (hq : isQuote q = true) (hz : inner.rest = q :: z) :
    f.lead (c.extend v) = some (inner.extend v) ↔ f.lead c = some inner := by
  have hhalts : Form.Halts inner.rest := by
    rw [hz]
    exact .quote hq z
  have hhalts' : Form.Halts (inner.extend v).rest := by
    rw [extend, hz]
    exact .quote hq (z ++ v)
  constructor
  · intro h
    obtain ⟨hb, w, hw, hpass, -⟩ := Form.lead_iff.mp h
    exact Form.lead_iff.mpr ⟨hb, w, hw, hpass.of_extend, hhalts⟩
  · intro h
    obtain ⟨hb, w, hw, hpass, -⟩ := Form.lead_iff.mp h
    exact Form.lead_iff.mpr ⟨hb, w, hw, hpass.extend v, hhalts'⟩

theorem directoryEnd_extend (hv : v.IsUnquoted) (hq : isQuote q = true) (dir : Text) (c : Cursor) :
    directoryEnd q dir (c.extend v) =
      (directoryEnd q dir c).map fun x => (x.1.extend v, x.2.extend v) := by
  cases h : directoryEnd q dir c with
  | some x =>
    obtain ⟨close, stop⟩ := x
    obtain ⟨tail, hclose, hstop, hall, htail⟩ := exists_of_directoryEnd h
    exact directoryEnd_eq_some_of_passes hq hall htail (hclose.extend v) (hstop.extend v)
  | none =>
    cases h' : directoryEnd q dir (c.extend v) with
    | none => rfl
    | some x =>
      obtain ⟨close, stop⟩ := x
      obtain ⟨tail, hclose, hstop, hall, htail⟩ := exists_of_directoryEnd h'
      obtain ⟨e, z, -, he, hrest⟩ := exists_of_passes_extend hv hq hclose hstop.rest_eq
      obtain ⟨e', he', -⟩ := exists_passes (w := [q]) hrest
      rw [directoryEnd_eq_some_of_passes hq hall htail he he'] at h
      cases h

theorem fixedEdit_extend (hv : v.IsUnquoted) (hq : isQuote q = true) (hz : inner.rest = q :: z)
    (hw : Passes c w inner) : fixedEdit depth mark directories (c.extend v) (inner.extend v) =
      fixedEdit depth mark directories c inner := by
  have hz' : (inner.extend v).rest = q :: (z ++ v) := by
    rw [extend, hz]
    rfl
  have hnext : (inner.extend v).next = inner.next.extend v := by simp [next, extend, hz]
  have hopen := passes_next hz
  rw [fixedEdit, fixedEdit, hz, hz']
  dsimp only
  rw [if_pos hq, if_pos hq, hnext]
  cases hd : inner.next.literal (steps depth) with
  | some d =>
    have hsteps := passes_literal hd
    rw [literal_eq_some.mpr (hsteps.extend v), Option.bind_some, Option.bind_some]
    have hfind : ((choices directories).findSome? fun dir => directoryEnd q dir (d.extend v)) =
        ((choices directories).findSome? fun dir => directoryEnd q dir d).map
          fun x => (x.1.extend v, x.2.extend v) := by
      rw [List.map_findSome?]
      congr 1
      funext dir
      exact directoryEnd_extend hv hq dir d
    rw [choices] at hfind
    rw [hfind]
    cases hx : (if directories.isEmpty then [[]] else directories).findSome? fun dir =>
        directoryEnd q dir d with
    | none => rfl
    | some x =>
      obtain ⟨close, stop⟩ := x
      obtain ⟨dir, -, hend⟩ := List.exists_of_findSome?_eq_some hx
      obtain ⟨tail, hclose, hstop, -, -⟩ := exists_of_directoryEnd hend
      have hall := hw.trans (hopen.trans (hsteps.trans (hclose.trans hstop)))
      simp only [Option.map_some, upTo_extend hall, upTo_extend hw, upTo_extend hclose]
      rfl
  | none =>
    cases hd' : (inner.next.extend v).literal (steps depth) with
    | none => rfl
    | some d =>
      -- the steps would reach into what follows, where no closing quote stands
      have hnone : ((if directories.isEmpty then [[]] else directories).findSome? fun dir =>
          directoryEnd q dir d) = none := by
        rw [List.findSome?_eq_none_iff]
        intro dir _
        rw [Option.eq_none_iff_forall_ne_some]
        rintro ⟨close, stop⟩ hend
        obtain ⟨tail, hclose, hstop, -, -⟩ := exists_of_directoryEnd hend
        obtain ⟨e, _, -, he, -⟩ :=
          exists_of_passes_extend hv hq ((passes_literal hd').trans hclose) hstop.rest_eq
        have hsplit : inner.next.rest = steps depth ++ ((dir ++ tail) ++ e.rest) := by
          rw [he.rest_eq, List.append_assoc]
        obtain ⟨d', hd'', -⟩ := exists_passes hsplit
        rw [literal_eq_some.mpr hd''] at hd
        cases hd
      rw [Option.bind_some, hnone]
      rfl

theorem computedEdit_extend (hv : v.IsUnquoted) (a : Aliasing) (cwd file : Text)
    (hw : Passes c w inner) :
    computedEdit a cwd file (c.extend v) (inner.extend v) = computedEdit a cwd file c inner := by
  rw [computedEdit, computedEdit, quoted_extend hv, Option.map_map]
  cases h : inner.quoted with
  | none => rfl
  | some q =>
    obtain ⟨-, -, -, hopen, hclose⟩ := quoted_eq_some h
    have hall := hw.trans (hopen.trans hclose)
    simp only [Option.map_some, Function.comp_apply, upTo_extend hall, upTo_extend hw]
    rfl

/-- The edit of a rule behind the beginning of its statement. -/
def editFrom (rule : Rule) (cwd file : Text) (c inner : Cursor) : Option Edit :=
  match rule with
  | .computed _ a => computedEdit a cwd file c inner
  | .fixed _ depth mark directories => fixedEdit depth mark directories c inner

theorem editAt_eq (rule : Rule) (cwd file : Text) (c : Cursor) :
    rule.editAt cwd file c = (rule.form.lead c).bind (rule.editFrom cwd file c) := by
  cases rule <;> rfl

theorem exists_of_editFrom (hw : Passes c w inner)
    (h : rule.editFrom cwd file c inner = some e) :
    ∃ q z, isQuote q = true ∧ inner.rest = q :: z := by
  cases rule with
  | computed f a =>
    obtain ⟨q, hq, -⟩ := Option.map_eq_some_iff.mp h
    obtain ⟨hquote, -, -, hopen, -⟩ := quoted_eq_some hq
    exact ⟨q.quote, q.inside.rest, hquote, hopen.rest_eq⟩
  | fixed f depth mark directories =>
    obtain ⟨q, s, t, rest, hrest, hq, -⟩ := exists_of_fixedEdit (f := f) cwd file hw h
    exact ⟨q, s ++ q :: rest, hq, hrest⟩

theorem editFrom_extend (hv : v.IsUnquoted) (hq : isQuote q = true) (hz : inner.rest = q :: z)
    (hw : Passes c w inner) : rule.editFrom cwd file (c.extend v) (inner.extend v) =
      rule.editFrom cwd file c inner := by
  cases rule with
  | computed f a => exact computedEdit_extend hv a cwd file hw
  | fixed f depth mark directories => exact fixedEdit_extend hv hq hz hw

/-- An edit does not see what follows it, if no quote stands there. -/
theorem editAt_extend (hv : v.IsUnquoted) (rule : Rule) (cwd file : Text) (c : Cursor) :
    rule.editAt cwd file (c.extend v) = rule.editAt cwd file c := by
  refine Option.ext fun e => ?_
  rw [editAt_eq, editAt_eq, Option.bind_eq_some_iff, Option.bind_eq_some_iff]
  constructor
  · rintro ⟨inner, hlead, he⟩
    obtain ⟨-, w, -, hw, -⟩ := Form.lead_iff.mp hlead
    obtain ⟨q, z, hq, hz⟩ := exists_of_editFrom hw he
    obtain ⟨inner, z', rfl, hw, hz⟩ := exists_of_passes_extend hv hq hw hz
    exact ⟨inner, (lead_extend hq hz).mp hlead, (editFrom_extend hv hq hz hw) ▸ he⟩
  · rintro ⟨inner, hlead, he⟩
    obtain ⟨-, w, -, hw, -⟩ := Form.lead_iff.mp hlead
    obtain ⟨q, z, hq, hz⟩ := exists_of_editFrom hw he
    exact ⟨inner.extend v, (lead_extend hq hz).mpr hlead, (editFrom_extend hv hq hz hw).trans he⟩

/-- The replacement of a text without line ends has none. -/
def KeepsLines (rule : Rule) (cwd file : Text) : Prop :=
  ∀ s t, '\n' ∉ s → rule.replacement cwd file s = some t → '\n' ∉ t

/-- Where no quote stands nothing is edited. -/
theorem splices_unquoted (hv : v.IsUnquoted) (offset : Nat) (before : Option Char) :
    rule.Splices cwd file offset before v [] v := by
  induction v generalizing offset before with
  | nil => exact .nil
  | cons x v ih =>
    refine .keep ?_ (ih (fun y hy => hv y (List.mem_cons_of_mem _ hy)) _ _)
    rw [Option.eq_none_iff_forall_ne_some]
    intro e he
    obtain ⟨w, q, s, t, back, hrest, -, -, hq, -⟩ := exists_of_editAt_eq_some he
    have hmem : q ∈ x :: v := by
      rw [show x :: v = enclosed w q s ++ back from hrest]
      simp [enclosed]
    rw [hv q hmem] at hq
    cases hq

/-- The edits of a text are those of the text with something behind it in which no quote stands,
and leave that as it is. -/
theorem Splices.extend {offset : Nat} {before : Option Char} {t after : Text} {edits : List Edit}
    (h : rule.Splices cwd file offset before t edits after) (hv : v.IsUnquoted) :
    rule.Splices cwd file offset before (t ++ v) edits (after ++ v) := by
  induction h with
  | nil => exact splices_unquoted hv _ _
  | keep h _ ih => exact .keep ((editAt_extend hv rule cwd file _).trans h) ih
  | edit h he hw hq hs hnew _ ih =>
    have hextend := (editAt_extend hv rule cwd file _).trans h
    rw [Cursor.extend, List.append_assoc] at hextend
    rw [List.append_assoc, List.append_assoc]
    exact .edit hextend he hw hq hs hnew ih

/-- Edits put no line ends into a line. -/
theorem Splices.not_mem_lineEnd {offset : Nat} {before : Option Char} {t after : Text}
    {edits : List Edit} (h : rule.Splices cwd file offset before t edits after)
    (hk : rule.KeepsLines cwd file) (ht : '\n' ∉ t) : '\n' ∉ after := by
  induction h with
  | nil => exact ht
  | keep _ _ ih =>
    rw [List.mem_cons, not_or] at ht ⊢
    exact ⟨ht.1, ih ht.2⟩
  | edit _ _ _ _ _ hnew _ ih =>
    simp only [enclosed, List.mem_append, List.mem_cons, not_or] at ht ⊢
    obtain ⟨⟨⟨hw, hq, hs⟩, hend⟩, hback⟩ := ht
    exact ⟨⟨⟨hw, hq, hk _ _ hs hnew⟩, hend⟩, ih hback⟩

theorem keepsLines_computed {a : Aliasing} (f : Form) (hcwd : Path.isAbsolute cwd = true)
    (hfile : Path.isAbsolute file = true) (hline : '\n' ∉ file) (hmark : '\n' ∉ a.mark) :
    (computed f a).KeepsLines cwd file := by
  intro s t hs ht
  rw [replacement] at ht
  split at ht
  · cases ht
  · rw [Option.some.injEq, respelled] at ht
    cases hal : a.aliased cwd file s with
    | none =>
      rw [hal] at ht
      exact ht ▸ hs
    | some u =>
      rw [hal] at ht
      subst ht
      intro hmem
      rcases Aliasing.mem_aliased_of_absolute hcwd hfile hal hmem with h | h | h | h
      · exact hmark h
      · cases h
      · exact hline h
      · exact hs h

theorem keepsLines_fixed (f : Form) (depth : Int) (directories : List Text) (hmark : '\n' ∉ mark)
    (cwd file : Text) : (fixed f depth mark directories).KeepsLines cwd file := by
  intro s t hs ht
  obtain ⟨r, hr, hnew⟩ := Option.bind_eq_some_iff.mp ht
  obtain rfl := Text.after?_eq_some.mp hr
  split at hnew
  · rw [Option.some.injEq] at hnew
    subst hnew
    rw [List.mem_append, not_or] at hs ⊢
    exact ⟨hmark, hs.2⟩
  · cases hnew

end Rule

namespace Respell

variable {cwd file v : Text} {rules : List Rule}

/-- A line with something behind it in which no quote stands is respelled as the line alone. -/
theorem foldl_applyRule_append (hv : v.IsUnquoted) (n : Nat) (rules : List Rule) (line : Text)
    (changes : List Change) :
    rules.foldl (applyRule cwd file n) (line ++ v, changes) =
      ((rules.foldl (applyRule cwd file n) (line, changes)).1 ++ v,
        (rules.foldl (applyRule cwd file n) (line, changes)).2) := by
  induction rules generalizing line changes with
  | nil => rfl
  | cons rule rules ih =>
    obtain ⟨hfind, hsplice⟩ :=
      ((rule.splices_findFrom cwd file line (Nat.le_refl 0) none).extend hv).eq (Nat.le_refl 0)
    have hstep : applyRule cwd file n (line ++ v, changes) rule =
        ((applyRule cwd file n (line, changes) rule).1 ++ v,
          (applyRule cwd file n (line, changes) rule).2) := by
      simp only [applyRule, findAll, splice, hfind, hsplice]
    rw [List.foldl_cons, List.foldl_cons, hstep, ih]

theorem respellLine_append (hv : v.IsUnquoted) (n : Nat) (line : Text) :
    respellLine cwd file rules n (line ++ v) =
      ((respellLine cwd file rules n line).1 ++ v, (respellLine cwd file rules n line).2) :=
  foldl_applyRule_append hv n rules line []

theorem not_mem_lineEnd_respellLine (hk : ∀ rule ∈ rules, rule.KeepsLines cwd file) (n : Nat)
    {line : Text} (hline : '\n' ∉ line) : '\n' ∉ (respellLine cwd file rules n line).1 := by
  have hfold : ∀ (line : Text) (changes : List Change), '\n' ∉ line →
      '\n' ∉ (rules.foldl (applyRule cwd file n) (line, changes)).1 := by
    induction rules with
    | nil => exact fun _ _ h => h
    | cons rule rules ih =>
      intro line changes h
      exact ih (fun r hr => hk r (List.mem_cons_of_mem _ hr)) _ _
        ((rule.splices_findFrom cwd file line (Nat.le_refl 0) none).not_mem_lineEnd
          (hk rule List.mem_cons_self) h)
  exact hfold line [] hline

/-- The lines of a text with carriage returns, from the line numbered `n` on. -/
theorem respellLines_crlf (hk : ∀ rule ∈ rules, rule.KeepsLines cwd file) (content : Text)
    (n : Nat) :
    Text.unlines ((respellLines cwd file rules n content.crlf.lines).map (·.1)) =
        Text.crlf (Text.unlines ((respellLines cwd file rules n content.lines).map (·.1))) ∧
      (respellLines cwd file rules n content.crlf.lines).flatMap (·.2) =
        (respellLines cwd file rules n content.lines).flatMap (·.2) := by
  obtain ⟨line, hline, rfl | ⟨back, rfl⟩⟩ := Text.exists_firstLine content
  · have hnewline := not_mem_lineEnd_respellLine hk n hline
    rw [Text.crlf_of_not_mem hline, Text.lines, Text.splitOn_of_not_mem hline, respellLines_cons]
    simp [respellLines, Text.unlines, Text.join, Text.crlf_of_not_mem hnewline]
  · have hcr : Text.IsUnquoted ['\r'] := by simp [Text.IsUnquoted, isQuote]
    have hnewline := not_mem_lineEnd_respellLine hk n hline
    have hcrlf : Text.crlf (line ++ '\n' :: back) = (line ++ ['\r']) ++ '\n' :: Text.crlf back := by
      rw [Text.crlf_append, Text.crlf_of_not_mem hline, Text.crlf_lineEnd]
      simp
    have hlines : (Text.crlf (line ++ '\n' :: back)).lines =
        (line ++ ['\r']) :: (Text.crlf back).lines := by
      rw [hcrlf]
      exact Text.splitOn_append_cons (by simp [hline]) _
    have hlines' : Text.lines (line ++ '\n' :: back) = line :: Text.lines back :=
      Text.splitOn_append_cons hline back
    have hne : ∀ t : Text, (respellLines cwd file rules (n + 1) t.lines).map (·.1) ≠ [] := by
      intro t
      simp [respellLines, Text.lines, Text.splitOn_ne_nil]
    obtain ⟨hafter, hchanges⟩ := respellLines_crlf hk back (n + 1)
    rw [hlines, hlines', respellLines_cons, respellLines_cons, respellLine_append hcr]
    constructor
    · rw [List.map_cons, List.map_cons, Text.unlines_cons (hne _), Text.unlines_cons (hne _),
        hafter, Text.crlf_append, Text.crlf_of_not_mem hnewline, Text.crlf_lineEnd]
      simp
    · rw [List.flatMap_cons, List.flatMap_cons, hchanges]
termination_by content.length

/-- The lines of a text are respelled as those of the text with carriage returns, and the same is
recorded of them. -/
theorem text_crlf (hk : ∀ rule ∈ rules, rule.KeepsLines cwd file) (content : Text) :
    (text cwd file rules content.crlf).after = (text cwd file rules content).after.crlf ∧
      (text cwd file rules content.crlf).changes = (text cwd file rules content).changes :=
  respellLines_crlf hk content 1

theorem keepsLines_computedRules {a : Aliasing} (hcwd : Path.isAbsolute cwd = true)
    (hfile : Path.isAbsolute file = true) (hline : '\n' ∉ file) (hmark : '\n' ∉ a.mark) :
    ∀ rule ∈ Rule.computedRules a, rule.KeepsLines cwd file := by
  intro rule hrule
  obtain ⟨f, -, rfl⟩ := List.mem_map.mp hrule
  exact Rule.keepsLines_computed f hcwd hfile hline hmark

theorem keepsLines_fixedRules {mark : Text} (hmark : '\n' ∉ mark) (directories : List Text)
    (depths : List Int) (cwd file : Text) :
    ∀ rule ∈ Rule.fixedRules mark directories depths, rule.KeepsLines cwd file := by
  intro rule hrule
  obtain ⟨f, -, hrule⟩ := List.mem_flatMap.mp hrule
  obtain ⟨depth, -, rfl⟩ := List.mem_map.mp hrule
  exact Rule.keepsLines_fixed f depth directories hmark cwd file

/-- What is extracted from a text, and what is respelled in it, does not depend on whether its
lines end in a line feed alone or in a carriage return and a line feed. -/
theorem line_ends_do_not_count (content : Text) (marks : List Text) :
    Source.findImports marks content.crlf = Source.findImports marks content ∧
    Source.findExports content.crlf = Source.findExports content ∧
    ∀ cwd file mark : Text, Path.isAbsolute cwd = true → Path.isAbsolute file = true →
      '\n' ∉ file → '\n' ∉ mark → ∀ rules : List Rule,
      ((∃ root skip, rules = Rule.computedRules ⟨root, mark, skip⟩) ∨
        ∃ directories depths, rules = Rule.fixedRules mark directories depths) →
      (text cwd file rules content.crlf).after = (text cwd file rules content).after.crlf ∧
      (text cwd file rules content.crlf).changes = (text cwd file rules content).changes := by
  refine ⟨findImports_crlf marks content, findExports_crlf content, ?_⟩
  rintro cwd file mark hcwd hfile hline hmark rules (⟨root, skip, rfl⟩ |
    ⟨directories, depths, rfl⟩)
  · exact text_crlf (keepsLines_computedRules hcwd hfile hline hmark) content
  · exact text_crlf (keepsLines_fixedRules hmark directories depths cwd file) content

theorem line_ends_do_not_count_sample :
    let content : Text := "import \x7b\n  a,\n  type B as b\n\x7d from '../lib/ab'\nexport * from './c'\n"
    let rules := Rule.computedRules ⟨"/p/src", atMark, true⟩
    let r := text "/p" "/p/src/x/y.ts" rules content.crlf
    (Source.findImports [atMark] content.crlf).map (fun i => (i.specifier, i.bindings)) =
      [⟨"../lib/ab", ["a", "b"]⟩] ∧
    (Source.findExports content.crlf).map (fun e => (e.kind, e.source)) =
      [⟨ExportKind.namespaceAll, some "./c"⟩] ∧
    r.after = Text.crlf "import \x7b\n  a,\n  type B as b\n\x7d from '@/lib/ab'\nexport * from './c'\n" ∧
    r.changes = [⟨"../lib/ab", "@/lib/ab", 4, "relative-to-alias:from"⟩] := by
  intro content rules r
  obtain ⟨himports, hexports, hrespell⟩ := line_ends_do_not_count content [atMark]
  obtain ⟨hafter, hchanges⟩ := hrespell "/p" "/p/src/x/y.ts" atMark rfl rfl (by decide) (by decide)
    rules (Or.inl ⟨"/p/src", true, rfl⟩)
  refine ⟨?_, ?_, ?_, ?_⟩
  · rw [himports]
    decide +kernel
  · rw [hexports]
    decide +kernel
  · exact hafter.trans (by decide)
  · exact hchanges.trans (by decide)

end Respell

end ModuleGraph
