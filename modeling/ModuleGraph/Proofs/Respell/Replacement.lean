import ModuleGraph.Proofs.Respell.Lead
import ModuleGraph.Proofs.Respell.Respelt

/-!
A rule at one place of a line, in terms of the specifier alone, and what its edits make of the line.

* `replacement`: what a rule puts in the place of a specifier, if it takes it up at all;
* `editAt_eq_some`: an edit is about the beginning of a statement and a specifier between two
  quotes that are the same, and puts the replacement between them;
* `editAt_enclosed`: where these are, the rule makes that edit;
* `Splices`, `splices_findFrom`, `Splices.eq`: the edits that the rule makes one after the other,
  and the text that they leave.
-/

namespace ModuleGraph

open Cursor

namespace Rule

/-- The directories that a fixed rule looks for; without any it takes what follows the steps. -/
def choices (directories : List Text) : List Text :=
  if directories.isEmpty then [[]] else directories

/-- Is this one of the directories, or a path in one? -/
def isBelow (directories : List Text) (r : Text) : Bool :=
  (choices directories).any fun dir =>
    (Text.after? dir r).any fun tail => tail.isEmpty || tail.head? == some '/'

/-- What a rule puts in the place of a specifier, if it takes the specifier up. A computed rule
takes up everything that is not empty, and may put back what it took. -/
def replacement (rule : Rule) (cwd file s : Text) : Option Text :=
  match rule with
  | .computed _ a => if s.isEmpty then none else some (respelled a cwd file s)
  | .fixed _ depth mark directories =>
    (Text.after? (steps depth) s).bind fun r =>
      if isBelow directories r then some (mark ++ r) else none

/-- The steps and the directories of a fixed rule can stand between quotes. -/
def IsPlain : Rule → Prop
  | .computed _ _ => True
  | .fixed _ depth _ directories =>
    (steps depth).all isQuotable = true ∧ ∀ dir ∈ directories, dir.all isQuotable = true

variable {cwd file w s t r rest dir tail mark : Text} {directories : List Text} {q : Char}
  {c d inner close stop : Cursor} {offset : Nat} {before : Option Char} {depth : Int} {e : Edit}
  {rule : Rule}

theorem isUnquoted_of_all (h : s.all isQuotable = true) : s.IsUnquoted := by
  intro x hx
  have hq := List.all_eq_true.mp h x hx
  simp only [isQuotable, Bool.and_eq_true, Bool.not_eq_true'] at hq
  exact hq.1

theorem char_cons (q : Char) (offset : Nat) (before : Option Char) (rest : Text) :
    char q ⟨offset, before, q :: rest⟩ = some ⟨offset + 1, some q, rest⟩ := by
  simp [char]

theorem isBelow_iff : isBelow directories r = true ↔
    ∃ dir ∈ choices directories, ∃ tail, r = dir ++ tail ∧
      (tail = [] ∨ tail.head? = some '/') := by
  simp only [isBelow, List.any_eq_true, Option.any_eq_true, Text.after?_eq_some, Bool.or_eq_true,
    List.isEmpty_iff, beq_iff_eq]

/-- A fixed rule puts the mark in the place of the steps before one of its directories. -/
theorem replacement_fixed {f : Form}
    (h : (fixed f depth mark directories).replacement cwd file s = some t) :
    ∃ r, s = steps depth ++ r ∧ t = mark ++ r ∧ isBelow directories r = true := by
  obtain ⟨r, hr, hbelow⟩ := Option.bind_eq_some_iff.mp h
  split at hbelow
  · exact ⟨r, Text.after?_eq_some.mp hr, (Option.some.inj hbelow).symm, ‹_›⟩
  · cases hbelow

/-- What is one of some directories that begin as words do, or below one, does so too. -/
theorem exists_cons_of_isBelow (hne : directories ≠ [])
    (hword : ∀ dir ∈ directories, dir.head?.any Text.isWord = true)
    (h : isBelow directories r = true) : ∃ x v, r = x :: v ∧ Text.isWord x = true := by
  obtain ⟨dir, hdir, tail, rfl, -⟩ := isBelow_iff.mp h
  rw [choices, if_neg (by simpa using hne)] at hdir
  obtain ⟨x, hx, hxword⟩ := (Option.any_eq_true _ _).mp (hword dir hdir)
  obtain ⟨v, rfl⟩ := List.head?_eq_some_iff.mp hx
  exact ⟨x, v ++ tail, rfl, hxword⟩

theorem exists_of_mem_fixedRules {depths : List Int}
    (h : rule ∈ fixedRules mark directories depths) :
    ∃ f, ∃ depth ∈ depths, rule = .fixed f depth mark directories := by
  obtain ⟨f, -, h⟩ := List.mem_flatMap.mp h
  obtain ⟨depth, hdepth, rfl⟩ := List.mem_map.mp h
  exact ⟨f, depth, List.mem_mergeSort.mp hdepth, rfl⟩

theorem all_ofNat (n : Nat) : (Text.ofNat n).all isQuotable = true := by
  have hdigit : ∀ x : Char, x.isDigit = true → isQuotable x = true := by
    intro x hx
    simp only [isQuotable, isQuote, Bool.and_eq_true, Bool.not_eq_true', Bool.or_eq_false_iff,
      beq_eq_false_iff_ne, bne_iff_ne]
    refine ⟨⟨?_, ?_⟩, ?_⟩ <;> rintro rfl <;> revert hx <;> decide
  exact List.all_eq_true.mpr fun x hx =>
    hdigit x (Nat.isDigit_of_mem_toDigits (by decide) (by decide) hx)

/-- Steps of any number can stand between quotes. -/
theorem all_steps (depth : Int) : (steps depth).all isQuotable = true := by
  cases depth with
  | ofNat n =>
    have hstep : ∀ l ∈ List.replicate n ['.', '.', '/'], l.all isQuotable = true := by
      intro l hl
      rw [List.eq_of_mem_replicate hl]
      decide
    rw [steps, List.all_flatten, List.all_eq_true]
    exact hstep
  | negSucc n =>
    have hnumber : (Text.ofInt (.negSucc n)).all isQuotable = true := by
      rw [Text.ofInt, List.all_cons, all_ofNat]
      decide
    rw [steps, List.all_append, List.all_append, hnumber]
    decide

theorem exists_of_directoryEnd (h : directoryEnd q dir c = some (close, stop)) :
    ∃ tail, Passes c (dir ++ tail) close ∧ Passes close [q] stop ∧
      tail.all isQuotable = true ∧ (tail = [] ∨ tail.head? = some '/') := by
  obtain ⟨d, hlit, h⟩ := Option.bind_eq_some_iff.mp h
  obtain ⟨stop', hchar, h⟩ := Option.map_eq_some_iff.mp h
  obtain ⟨rfl, rfl⟩ := Prod.mk.injEq _ _ _ _ ▸ h
  have hpass := passes_literal hlit
  split at hchar
  · rename_i hslash
    obtain ⟨tail, htail, hall, -⟩ := passes_skip isQuotable d
    rw [if_pos hslash]
    refine ⟨tail, hpass.trans htail, passes_char hchar, hall, ?_⟩
    cases tail with
    | nil => exact Or.inl rfl
    | cons y tail =>
      rw [htail.rest_eq] at hslash
      exact Or.inr (by simpa using hslash)
  · rename_i hslash
    rw [if_neg hslash]
    exact ⟨[], by simpa using hpass, passes_char hchar, rfl, Or.inl rfl⟩

theorem directoryEnd_eq_some_of_passes (hq : isQuote q = true) (hall : tail.all isQuotable = true)
    (htail : tail = [] ∨ tail.head? = some '/') (hclose : Passes c (dir ++ tail) close)
    (hstop : Passes close [q] stop) : directoryEnd q dir c = some (close, stop) := by
  obtain ⟨hc, hd⟩ := Form.Passes.eq_mk hclose
  obtain ⟨hd', he⟩ := Form.Passes.eq_mk hstop
  have hrest : close.rest = q :: stop.rest := hstop.rest_eq
  have hchar : close.char q = some stop := by
    rw [hd', he]
    exact char_cons q _ _ _
  have hoffset : c.offset + (dir ++ tail).length = c.offset + dir.length + tail.length := by
    rw [List.length_append, Nat.add_assoc]
  have hlit : c.literal dir = some ⟨c.offset + dir.length, dir.getLast?.or c.before,
      tail ++ q :: stop.rest⟩ := by
    rw [hc, List.append_assoc, Form.literal_append, hrest]
  rw [directoryEnd, hlit, Option.bind_some]
  dsimp only
  rcases htail with rfl | hslash
  · have hne : ¬ ((q :: stop.rest).head? == some '/') = true := by
      simp only [isQuote, Bool.or_eq_true, beq_iff_eq] at hq
      rcases hq with rfl | rfl <;> simp
    have hinner : close = ⟨c.offset + dir.length, dir.getLast?.or c.before, q :: stop.rest⟩ := by
      rw [hd, hrest, List.append_nil]
    rw [List.nil_append, if_neg hne, ← hinner, hchar]
    rfl
  · have hhead : ((tail ++ q :: stop.rest).head? == some '/') = true := by
      rw [List.head?_append, hslash]
      rfl
    have hinner : close = ⟨c.offset + dir.length + tail.length,
        tail.getLast?.or (dir.getLast?.or c.before), q :: stop.rest⟩ := by
      rw [hd, hrest, hoffset, getLast?_or_append]
    rw [if_pos hhead, skip_append hall (not_isQuotable_of_isQuote hq), ← hinner, hchar]
    rfl

theorem all_of_mem_choices (h : ∀ dir ∈ directories, dir.all isQuotable = true) :
    ∀ dir ∈ choices directories, dir.all isQuotable = true := by
  intro dir hdir
  rw [choices] at hdir
  split at hdir
  · rw [List.mem_singleton.mp hdir]
    rfl
  · exact h dir hdir

/-- A fixed rule finds its steps and one of its directories between two quotes. -/
theorem exists_of_fixedEdit (cwd file : Text) {f : Form} (hw : Passes c w inner)
    (h : fixedEdit depth mark directories c inner = some e) :
    ∃ q s t rest, inner.rest = q :: s ++ q :: rest ∧ isQuote q = true ∧
      (IsPlain (.fixed f depth mark directories) → s.all isQuotable = true) ∧
      (Rule.fixed f depth mark directories).replacement cwd file s = some t ∧
      e = ⟨c.offset, c.offset + (enclosed w q s).length, enclosed w q s, enclosed w q t⟩ := by
  rw [fixedEdit] at h
  split at h
  · cases h
  · rename_i q after hafter
    split at h
    · rename_i hq
      obtain ⟨d, hd, h⟩ := Option.bind_eq_some_iff.mp h
      obtain ⟨⟨close, stop⟩, hfind, rfl⟩ := Option.map_eq_some_iff.mp h
      obtain ⟨dir, hdir, hend⟩ := List.exists_of_findSome?_eq_some hfind
      obtain ⟨tail, hclose, hstop, htailAll, htail⟩ := exists_of_directoryEnd hend
      have hopen := passes_next hafter
      have hsteps := passes_literal hd
      have hinside : Passes inner ([q] ++ (steps depth ++ ((dir ++ tail) ++ [q]))) stop :=
        hopen.trans (hsteps.trans (hclose.trans hstop))
      have hnew : (Rule.fixed f depth mark directories).replacement cwd file
          (steps depth ++ (dir ++ tail)) = some (mark ++ (dir ++ tail)) := by
        have hsome := Text.after?_eq_some.mpr (Eq.refl (steps depth ++ (dir ++ tail)))
        rw [replacement, hsome, Option.bind_some,
          if_pos (isBelow_iff.mpr ⟨dir, hdir, tail, rfl, htail⟩)]
      refine ⟨q, steps depth ++ (dir ++ tail), _, stop.rest, ?_, hq, ?_, hnew, ?_⟩
      · rw [hinside.rest_eq]
        simp
      · intro hp
        rw [List.all_append, hp.1, List.all_append, all_of_mem_choices hp.2 dir hdir, htailAll]
        rfl
      · have hall := hw.trans hinside
        dsimp only
        rw [hall.upTo_eq, hw.upTo_eq, hclose.upTo_eq, hall.offset_eq]
        simp [enclosed]
    · cases h

/-- Where the steps and one of the directories of a fixed rule stand between two quotes, the rule
makes an edit. -/
theorem isSome_fixedEdit {f : Form} (hq : isQuote q = true) (hs : s.all isQuotable = true)
    (hnew : (Rule.fixed f depth mark directories).replacement cwd file s = some t)
    (c : Cursor) (offset : Nat) (before : Option Char) (rest : Text) :
    (fixedEdit depth mark directories c ⟨offset, before, q :: s ++ q :: rest⟩).isSome = true := by
  obtain ⟨r, hr, hbelow⟩ := Option.bind_eq_some_iff.mp hnew
  obtain rfl := Text.after?_eq_some.mp hr
  split at hbelow
  · rename_i hb
    obtain ⟨dir, hdir, tail, rfl, htail⟩ := isBelow_iff.mp hb
    have htailAll : tail.all isQuotable = true := by
      simp only [List.all_append, Bool.and_eq_true] at hs
      exact hs.2.2
    have hfind : ∀ offset before, ((choices directories).findSome? fun dir' =>
        directoryEnd q dir' ⟨offset, before, (dir ++ tail) ++ q :: rest⟩).isSome = true := by
      intro offset before
      rw [List.findSome?_isSome_iff]
      let close : Cursor :=
        ⟨offset + (dir ++ tail).length, (dir ++ tail).getLast?.or before, q :: rest⟩
      have hclose : Passes ⟨offset, before, (dir ++ tail) ++ q :: rest⟩ (dir ++ tail) close :=
        ⟨rfl, rfl, rfl⟩
      have hstop : Passes close [q] ⟨close.offset + 1, some q, rest⟩ := ⟨rfl, rfl, rfl⟩
      refine ⟨dir, hdir, ?_⟩
      rw [directoryEnd_eq_some_of_passes hq htailAll htail hclose hstop]
      rfl
    simp only [fixedEdit, List.cons_append, hq, if_true, next]
    rw [List.append_assoc (steps depth), Form.literal_append, Option.bind_some, Option.isSome_map]
    exact hfind _ _
  · cases hbelow

/-- An edit of a rule is about the beginning of a statement and a text between two quotes that are
the same; it puts the replacement in the place of that text. -/
theorem exists_of_editAt_eq_some (h : rule.editAt cwd file c = some e) :
    ∃ w q s t rest, c.rest = enclosed w q s ++ rest ∧ rule.form.IsLead w ∧
      c.before.any Text.isWord = false ∧ isQuote q = true ∧
      (rule.IsPlain → s.all isQuotable = true) ∧ rule.replacement cwd file s = some t ∧
      e = ⟨c.offset, c.offset + (enclosed w q s).length, enclosed w q s, enclosed w q t⟩ := by
  cases rule with
  | computed f a =>
    obtain ⟨inner, hinner, h⟩ := Option.bind_eq_some_iff.mp h
    obtain ⟨q, hq, h⟩ := Option.map_eq_some_iff.mp h
    obtain ⟨hb, w, hw, hpass, -⟩ := Form.lead_iff.mp hinner
    obtain ⟨hquote, hne, hall, hopen, hclose⟩ := quoted_eq_some hq
    have hstop : Passes c (enclosed w q.quote q.text) q.stop := by
      have := hpass.trans (hopen.trans hclose)
      simpa [enclosed] using this
    have hnew : (Rule.computed f a).replacement cwd file q.text =
        some (respelled a cwd file q.text) := if_neg (by simpa using hne)
    refine ⟨w, q.quote, q.text, _, q.stop.rest, hstop.rest_eq, hw, hb, hquote, fun _ => hall, hnew,
      ?_⟩
    rw [← h, hstop.upTo_eq, hpass.upTo_eq, hstop.offset_eq, respelled]
    cases a.aliased cwd file q.text <;> simp [enclosed]
  | fixed f depth mark directories =>
    obtain ⟨inner, hinner, h⟩ := Option.bind_eq_some_iff.mp h
    obtain ⟨hb, w, hw, hpass, -⟩ := Form.lead_iff.mp hinner
    obtain ⟨q, s, t, rest, hrest, hq, hs, hnew, he⟩ := exists_of_fixedEdit cwd file hpass h
    refine ⟨w, q, s, t, rest, ?_, hw, hb, hq, hs, hnew, he⟩
    rw [hpass.rest_eq, hrest]
    simp [enclosed]

/-- A rule whose steps and directories can stand between quotes edits specifiers only. -/
theorem editAt_eq_some (hp : rule.IsPlain) (h : rule.editAt cwd file c = some e) :
    ∃ w q s t rest, c.rest = enclosed w q s ++ rest ∧ rule.form.IsLead w ∧
      c.before.any Text.isWord = false ∧ isQuote q = true ∧ s.all isQuotable = true ∧
      rule.replacement cwd file s = some t ∧
      e = ⟨c.offset, c.offset + (enclosed w q s).length, enclosed w q s, enclosed w q t⟩ := by
  obtain ⟨w, q, s, t, rest, hrest, hw, hb, hq, hs, hnew, he⟩ := exists_of_editAt_eq_some h
  exact ⟨w, q, s, t, rest, hrest, hw, hb, hq, hs hp, hnew, he⟩

/-- Where a statement begins, and a specifier that a rule takes up follows between two quotes, the
rule makes its edit. -/
theorem editAt_enclosed (hp : rule.IsPlain) (hw : rule.form.IsLead w)
    (hb : before.any Text.isWord = false) (hq : isQuote q = true) (hs : s.all isQuotable = true)
    (hnew : rule.replacement cwd file s = some t) (offset : Nat) (rest : Text) :
    rule.editAt cwd file ⟨offset, before, enclosed w q s ++ rest⟩ =
      some ⟨offset, offset + (enclosed w q s).length, enclosed w q s, enclosed w q t⟩ := by
  have hsplit : enclosed w q s ++ rest = w ++ (q :: s ++ q :: rest) := by simp [enclosed]
  have hlead : rule.form.lead ⟨offset, before, w ++ (q :: s ++ q :: rest)⟩ =
      some ⟨offset + w.length, w.getLast?.or before, q :: s ++ q :: rest⟩ :=
    Form.lead_iff.mpr ⟨hb, w, hw, ⟨rfl, rfl, rfl⟩, .quote hq _⟩
  have hsome : (rule.editAt cwd file ⟨offset, before, enclosed w q s ++ rest⟩).isSome = true := by
    rw [hsplit]
    cases rule with
    | computed f a =>
      have hne : s ≠ [] := by
        rintro rfl
        cases hnew
      simp only [form] at hlead
      rw [editAt, hlead, Option.bind_some, computedEdit, Option.isSome_map]
      rw [List.cons_append, quoted_enclosed hq ⟨hne, hs⟩]
      rfl
    | fixed f depth mark directories =>
      simp only [form] at hlead
      rw [editAt, hlead, Option.bind_some]
      exact isSome_fixedEdit hq hs hnew _ _ _ _
  obtain ⟨e, he⟩ := Option.isSome_iff_exists.mp hsome
  obtain ⟨w', q', s', t', rest', hrest, hw', -, hq', hs', hnew', rfl⟩ := editAt_eq_some hp he
  have hrest : w ++ q :: (s ++ q :: rest) = w' ++ q' :: (s' ++ q' :: rest') := by
    simpa [enclosed] using hrest
  obtain ⟨rfl, rfl, hrest⟩ := Respelt.append_cons_inj hw.isUnquoted hw'.isUnquoted hq hq' hrest
  obtain ⟨rfl, -, -⟩ :=
    Respelt.append_cons_inj (isUnquoted_of_all hs) (isUnquoted_of_all hs') hq hq hrest
  rw [hnew, Option.some.injEq] at hnew'
  rw [he, hnew']

end Rule

namespace Respell

theorem enclosed_ne_nil (lead : Text) (q : Char) (s : Text) : enclosed lead q s ≠ [] := by
  simp [enclosed]

theorem getLast?_enclosed (lead : Text) (q : Char) (s : Text) :
    (enclosed lead q s).getLast? = some q := by
  rw [enclosed, List.getLast?_append]
  rfl

/-- Edits that come later leave the first character. -/
theorem spliceFrom_cons {offset : Nat} {x : Char} {t : Text} {edits : List Edit}
    (h : ∀ e ∈ edits, offset + 1 ≤ e.start ∧ e.start ≤ e.stop) :
    spliceFrom offset (x :: t) edits = x :: spliceFrom (offset + 1) t edits := by
  cases edits with
  | nil => rfl
  | cons e edits =>
    obtain ⟨hstart, hstop⟩ := h e List.mem_cons_self
    have h1 : e.start - offset = (e.start - (offset + 1)) + 1 := by omega
    have h2 : e.stop - offset = (e.stop - (offset + 1)) + 1 := by omega
    rw [spliceFrom, spliceFrom, h1, h2, List.take_succ_cons, List.drop_succ_cons]
    rfl

/-- An edit where the text starts, and the edits after it. -/
theorem spliceFrom_append {offset : Nat} {old back : Text} {e : Edit} (hstart : e.start = offset)
    (hstop : e.stop = offset + old.length) (edits : List Edit) :
    spliceFrom offset (old ++ back) (e :: edits) = e.new ++ spliceFrom e.stop back edits := by
  have hdrop : e.stop - offset = old.length := by omega
  rw [spliceFrom, hstart, hdrop, Nat.sub_self, List.drop_left]
  rfl

end Respell

namespace Rule

variable {cwd file t : Text} {offset : Nat} {before : Option Char} {e : Edit} {rule : Rule}

/-- Where nothing is recognised a search goes on with the next character. -/
theorem findFrom_none {α : Type} {recognise : Cursor → Option α} {stop : α → Nat} {x : Char}
    {rest : Text} {resume offset : Nat} (h : recognise ⟨offset, before, x :: rest⟩ = none) :
    findFrom recognise stop resume offset before (x :: rest) =
      findFrom recognise stop resume (offset + 1) (some x) rest := by
  rw [findFrom, h]
  split <;> rfl

theorem le_start_of_mem_findFrom {resume : Nat}
    (h : e ∈ findFrom (rule.editAt cwd file) Edit.stop resume offset before t) :
    offset ≤ e.start ∧ e.start ≤ e.stop := by
  obtain ⟨c, hc, hle⟩ := mem_findFrom h
  obtain ⟨_, _, _, _, _, -, -, -, -, -, -, rfl⟩ := exists_of_editAt_eq_some hc
  exact ⟨hle, Nat.le_add_right _ _⟩

/-- What the edits of a rule make of a text, from the place `offset` on: each is about the
beginning of a statement and the specifier after it, and everything else is kept. -/
inductive Splices (rule : Rule) (cwd file : Text) :
    Nat → Option Char → Text → List Edit → Text → Prop
  | nil {offset : Nat} {before : Option Char} : Splices rule cwd file offset before [] [] []
  | keep {offset : Nat} {before : Option Char} {x : Char} {t after : Text} {edits : List Edit}
      (h : rule.editAt cwd file ⟨offset, before, x :: t⟩ = none)
      (hrest : Splices rule cwd file (offset + 1) (some x) t edits after) :
      Splices rule cwd file offset before (x :: t) edits (x :: after)
  | edit {offset : Nat} {before : Option Char} {w s t back after : Text} {q : Char} {e : Edit}
      {edits : List Edit}
      (h : rule.editAt cwd file ⟨offset, before, enclosed w q s ++ back⟩ = some e)
      (he : e = ⟨offset, offset + (enclosed w q s).length, enclosed w q s, enclosed w q t⟩)
      (hw : rule.form.IsLead w) (hq : isQuote q = true)
      (hs : rule.IsPlain → s.all isQuotable = true) (hnew : rule.replacement cwd file s = some t)
      (hrest : Splices rule cwd file e.stop (some q) back edits after) :
      Splices rule cwd file offset before (enclosed w q s ++ back) (e :: edits)
        (enclosed w q t ++ after)

/-- The search of a rule and its edits. -/
theorem splices_findFrom (rule : Rule) (cwd file t : Text) {resume offset : Nat}
    (hr : resume ≤ offset) (before : Option Char) :
    rule.Splices cwd file offset before t
      (findFrom (rule.editAt cwd file) Edit.stop resume offset before t)
      (Respell.spliceFrom offset t
        (findFrom (rule.editAt cwd file) Edit.stop resume offset before t)) := by
  cases t with
  | nil => exact .nil
  | cons x t =>
    cases he : rule.editAt cwd file ⟨offset, before, x :: t⟩ with
    | none =>
      rw [findFrom_none he, Respell.spliceFrom_cons fun e => le_start_of_mem_findFrom]
      exact .keep he (splices_findFrom rule cwd file t (Nat.le_succ_of_le hr) (some x))
    | some e =>
      obtain ⟨w, q, s, u, back, hrest, hw, -, hq, hs, hnew, hedit⟩ := exists_of_editAt_eq_some he
      have hrest : x :: t = enclosed w q s ++ back := hrest
      have hne := Respell.enclosed_ne_nil w q s
      have hstart : e.start = offset := by rw [hedit]
      have hstop : e.stop = offset + (enclosed w q s).length := by rw [hedit]
      have hnewText : e.new = enclosed w q u := by rw [hedit]
      rw [hrest] at he ⊢
      rw [findFrom_found hr hne he hstop, Respell.getLast?_enclosed,
        Respell.spliceFrom_append hstart hstop, hnewText]
      exact .edit he hedit hw hq hs hnew
        (splices_findFrom rule cwd file back (Nat.le_refl e.stop) (some q))
termination_by t.length
decreasing_by
  · simp
  · have h := congrArg List.length hrest
    rw [List.length_append, List.length_cons] at h
    have hpos := List.length_pos_iff.mpr hne
    simp only [List.length_cons]
    omega

/-- There is only one way to edit a text. -/
theorem Splices.eq {after : Text} {edits : List Edit} {resume : Nat}
    (h : rule.Splices cwd file offset before t edits after) (hr : resume ≤ offset) :
    findFrom (rule.editAt cwd file) Edit.stop resume offset before t = edits ∧
      Respell.spliceFrom offset t edits = after := by
  induction h generalizing resume with
  | nil => exact ⟨rfl, rfl⟩
  | keep h _ ih =>
    obtain ⟨rfl, rfl⟩ := ih (Nat.le_succ_of_le hr)
    exact ⟨findFrom_none h, Respell.spliceFrom_cons fun e => le_start_of_mem_findFrom⟩
  | edit h he hw hq hs hnew _ ih =>
    obtain ⟨rfl, rfl⟩ := ih (Nat.le_refl _)
    have hstop := congrArg Edit.stop he
    refine ⟨?_, ?_⟩
    · rw [findFrom_found hr (Respell.enclosed_ne_nil _ _ _) h hstop, Respell.getLast?_enclosed]
    · rw [Respell.spliceFrom_append (congrArg Edit.start he) hstop, congrArg Edit.new he]

end Rule
end ModuleGraph
