import ModuleGraph.Proofs.Respell.Touched

/-!
Respelling touches nothing but texts between two quotes, and what it touches is on record.

* `LineFrame`: a line before and after; the pieces between its quotes that differ are the ones that
  are recorded;
* `Framed`: a text before and after, line by line;
* `framed_text`: rules that replace nothing twice keep to the frame;
* `respelling_framed`: the computed and the fixed rules do.
-/

namespace ModuleGraph

open Cursor Cut

namespace Text

/-- The quotes of a line. -/
def quotes (line : Text) : Text := line.filter isQuote

/-- What stands before, between and behind the quotes of a line. -/
def pieces (line : Text) : List Text := line.splitOnP isQuote

variable {w : Text} {cs : List Cut}

theorem pieces_spell (hw : w.all isQuotable = true) (hcs : ∀ c ∈ cs, c.IsProper) :
    pieces (w ++ spell cs) = w :: cs.map Cut.piece := by
  induction cs generalizing w with
  | nil =>
    rw [spell_nil, List.append_nil]
    exact List.splitOnP_eq_singleton (Rule.isUnquoted_of_all hw)
  | cons c cs ih =>
    have hc := hcs c List.mem_cons_self
    rw [spell_cons, pieces,
      List.splitOnP_append_cons_of_forall_mem (Rule.isUnquoted_of_all hw) _ hc.isQuote, ← pieces,
      ih hc.all fun d hd => hcs d (List.mem_cons_of_mem _ hd), List.map_cons]

theorem quotes_of_all (hw : w.all isQuotable = true) : w.quotes = [] := by
  rw [quotes, List.filter_eq_nil_iff]
  intro x hx
  simp [Rule.isUnquoted_of_all hw x hx]

theorem quotes_spell (hw : w.all isQuotable = true) (hcs : ∀ c ∈ cs, c.IsProper) :
    quotes (w ++ spell cs) = cs.map Cut.quote := by
  induction cs generalizing w with
  | nil => rw [spell_nil, List.append_nil, quotes_of_all hw, List.map_nil]
  | cons c cs ih =>
    have hc := hcs c List.mem_cons_self
    have htail := ih hc.all fun d hd => hcs d (List.mem_cons_of_mem _ hd)
    have hnone := quotes_of_all hw
    rw [quotes] at htail hnone ⊢
    rw [spell_cons, List.filter_append, hnone, List.nil_append,
      List.filter_cons_of_pos hc.isQuote, htail, List.map_cons]

end Text

/-- A line before and after. It has the same quotes, what stands before the first and behind the
last of them is the same, and the texts between two quotes that differ are those on record. -/
structure LineFrame (line line' : Text) (changes : List Change) : Prop where
  quotes : line'.quotes = line.quotes
  first : line'.pieces.head? = line.pieces.head?
  last : line'.pieces.getLast? = line.pieces.getLast?
  recorded : ((line.pieces.zip line'.pieces).filter fun p => p.1 ≠ p.2).Perm
    (changes.map Change.pair)

/-- A text before and after, with what is recorded of it: as many lines, each of them in its
frame, and nothing recorded but of these lines. -/
structure Framed (before after : Text) (changes : List Change) : Prop where
  length : after.lines.length = before.lines.length
  line : ∀ {i line line'}, before.lines[i]? = some line → after.lines[i]? = some line' →
    LineFrame line line' (Change.onLine (i + 1) changes)
  numbered : ∀ c ∈ changes, ∃ i < before.lines.length, c.line = (i + 1 : Nat)

namespace Respell

variable {cwd file w : Text} {rules : List Rule} {Q : Text → Text → Prop} {cs ds : List Cut}
  {ps : List (Text × Text)} {changes : List Change} {line : Text}

theorem lineFrame_spell (hw : w.all isQuotable = true) (hcs : ∀ c ∈ cs, c.IsProper)
    (hds : ∀ d ∈ ds, d.IsProper) (hQ : IsOnce Q) (h : Touched Q cs ds ps)
    (hps : ps.Perm (changes.map Change.pair)) :
    LineFrame (w ++ spell cs) (w ++ spell ds) changes where
  quotes := by rw [Text.quotes_spell hw hcs, Text.quotes_spell hw hds, h.quotes]
  first := by rw [Text.pieces_spell hw hcs, Text.pieces_spell hw hds]; rfl
  last := by
    rw [Text.pieces_spell hw hcs, Text.pieces_spell hw hds, List.getLast?_cons,
      List.getLast?_cons, List.getLast?_map, List.getLast?_map, h.getLast?_piece]
  recorded := by
    rw [Text.pieces_spell hw hcs, Text.pieces_spell hw hds, List.zip_cons_cons,
      List.filter_cons_of_neg (by simp), ← h.pairs_eq hQ]
    exact hps

section

variable (hp : ∀ rule ∈ rules, rule.IsPlain) (hr : ∀ rule ∈ rules, rule.IsTidy cwd file)
  (hQ : ∀ rule ∈ rules, rule.Moves cwd file Q) (honce : IsOnce Q)

include hp hr hQ honce

/-- All rules on one line, in terms of its pieces. -/
theorem exists_touched (n : Nat) (hline : '\n' ∉ line) :
    ∃ w cs ds ps, line = w ++ spell cs ∧ (respellLine cwd file rules n line).1 = w ++ spell ds ∧
      w.all isQuotable = true ∧ (∀ c ∈ cs, c.IsProper) ∧ (∀ d ∈ ds, d.IsProper) ∧
      Touched Q cs ds ps ∧ ps.Perm ((respellLine cwd file rules n line).2.map Change.pair) := by
  obtain ⟨w, cs, rfl, hw, hcs⟩ := exists_spell hline
  rw [respellLine_spell hp hr n (Rule.isUnquoted_of_all hw) hcs]
  obtain ⟨ps, hps, hperm⟩ := touched_sweepAll hQ honce n w cs
  exact ⟨w, cs, _, ps, rfl, rfl, hw, hcs, isProper_sweepAll hr n w hcs, hps, hperm⟩

theorem lineFrame_respellLine (n : Nat) (hline : '\n' ∉ line) :
    LineFrame line (respellLine cwd file rules n line).1
      (respellLine cwd file rules n line).2 := by
  obtain ⟨w, cs, ds, ps, hcs, hds, hw, hproper, hproper', htouched, hperm⟩ :=
    exists_touched hp hr hQ honce n hline
  generalize respellLine cwd file rules n line = done at hds hperm ⊢
  rw [hcs, hds]
  exact lineFrame_spell hw hproper hproper' honce htouched hperm

/-- A line is left as it is just if nothing is recorded of it. -/
theorem respellLine_eq_iff (n : Nat) (hline : '\n' ∉ line) :
    (respellLine cwd file rules n line).1 = line ↔ (respellLine cwd file rules n line).2 = [] := by
  obtain ⟨w, cs, ds, ps, hcs, hds, hw, hproper, hproper', htouched, hperm⟩ :=
    exists_touched hp hr hQ honce n hline
  generalize respellLine cwd file rules n line = done at hds hperm ⊢
  rw [hds, hcs, ← List.map_eq_nil_iff (f := Change.pair)]
  constructor
  · intro hsame
    have hpieces := congrArg Text.pieces hsame
    rw [Text.pieces_spell hw hproper, Text.pieces_spell hw hproper', List.cons.injEq] at hpieces
    have hnone := htouched.pairs_eq honce
    rw [hpieces.2, List.zip, List.zipWith_self, List.filter_eq_nil_iff.mpr (by simp)] at hnone
    rw [hnone] at hperm
    exact hperm.symm.eq_nil
  · intro hnone
    rw [hnone] at hperm
    rw [htouched.eq_of_nil hperm.eq_nil]

omit hQ honce in
/-- The lines of a text after respelling. -/
theorem getElem?_lines_after (content : Text) (i : Nat) :
    (text cwd file rules content).after.lines[i]? =
      content.lines[i]?.map fun l => (respellLine cwd file rules (i + 1) l).1 := by
  rw [lines_after hp hr, List.getElem?_map]
  cases content.lines[i]? with
  | none => rfl
  | some l => rw [Option.map_some, Option.map_some, fst_respellLine 1 (i + 1)]

/-- Rules that replace nothing twice touch texts between two quotes only, and record each of
them. -/
theorem framed_text (content : Text) :
    Framed content (text cwd file rules content).after (text cwd file rules content).changes where
  length := by rw [lines_after hp hr, List.length_map]
  line := by
    intro i line line' hline hline'
    rw [getElem?_lines_after hp hr, hline, Option.map_some, Option.some.injEq] at hline'
    rw [← hline', onLine_changes hline]
    exact lineFrame_respellLine hp hr hQ honce (i + 1)
      (Text.not_mem_of_mem_splitOn (List.mem_of_getElem? hline))
  numbered := fun c hc => exists_line_of_mem_changes hc

/-- Something is changed just if something is recorded. -/
theorem hasChanges_iff (content : Text) :
    (text cwd file rules content).hasChanges = true ↔
      (text cwd file rules content).changes ≠ [] := by
  have hlines : ∀ {i line}, content.lines[i]? = some line →
      ((respellLine cwd file rules (i + 1) line).1 = line ↔
        Change.onLine (i + 1) (text cwd file rules content).changes = []) := by
    intro i line hline
    rw [onLine_changes hline]
    exact respellLine_eq_iff hp hr hQ honce (i + 1)
      (Text.not_mem_of_mem_splitOn (List.mem_of_getElem? hline))
  have hsame : (text cwd file rules content).after = content ↔
      (text cwd file rules content).changes = [] := by
    constructor
    · intro hafter
      rw [List.eq_nil_iff_forall_not_mem]
      intro c hc
      obtain ⟨i, hi, hnumber⟩ := exists_line_of_mem_changes hc
      have hline := List.getElem?_eq_getElem hi
      have hleft := getElem?_lines_after hp hr content i
      rw [hafter, hline, Option.map_some, Option.some.injEq] at hleft
      have hnone := (hlines hline).mp hleft.symm
      have hmem : c ∈ Change.onLine (i + 1) (text cwd file rules content).changes :=
        List.mem_filter.mpr ⟨hc, decide_eq_true hnumber⟩
      rw [hnone] at hmem
      cases hmem
    · intro hnone
      have heq : (text cwd file rules content).after.lines = content.lines := by
        refine List.ext_getElem? fun i => ?_
        rw [getElem?_lines_after hp hr]
        cases hline : content.lines[i]? with
        | none => rfl
        | some line => rw [Option.map_some, (hlines hline).mpr (by rw [hnone]; rfl)]
      have hjoin := congrArg Text.unlines heq
      rwa [Text.unlines, Text.lines, Text.join_splitOn, Text.unlines, Text.lines,
        Text.join_splitOn] at hjoin
  rw [Respelled.hasChanges, bne_iff_ne, ne_eq, not_iff_not]
  exact hsame

end

/-- A specifier that begins with a step upwards became one that does not. -/
def Stepped (s t : Text) : Prop :=
  s.startsWith ['.', '.', '/'] = true ∧ t.startsWith ['.', '.', '/'] = false

theorem isOnce_stepped : IsOnce Stepped := by
  rintro s t u ⟨-, h⟩ ⟨h', -⟩
  rw [h] at h'
  cases h'

variable {a : Aliasing} {mark : Text}

/-- What a computed rule puts in a place is not relative, at any path. -/
theorem not_isRelative_aliased (hcwd : Path.isAbsolute cwd = true) (hm : IsMark a.mark)
    {s t : Text} (h : a.aliased cwd file s = some t) : Specifier.isRelative t = false := by
  obtain ⟨root, mark, skip⟩ := a
  rw [← Aliasing.aliased_root hcwd, ← Aliasing.aliased_absolute hcwd] at h
  exact Aliasing.not_isRelative_aliased (a := ⟨Path.absolute cwd root, mark, skip⟩) hm
    (Path.isNormal_absolute hcwd file) (Path.isNormal_absolute hcwd root) h

/-- So no computed rule takes it up again. -/
theorem isOnce_aliased (hcwd : Path.isAbsolute cwd = true) (hm : IsMark a.mark) (file : Text) :
    IsOnce fun s t => a.aliased cwd file s = some t := by
  intro s t u hst htu
  have hnot := not_isRelative_aliased hcwd hm hst
  rw [(exists_way htu).1] at hnot
  cases hnot

theorem startsWith_steps {depth : Int} (h : depth ≠ 0) (r : Text) :
    (Rule.steps depth ++ r).startsWith ['.', '.', '/'] = true := by
  rw [Text.startsWith_iff]
  rcases depth with (_ | n) | n
  · exact absurd rfl h
  · exact ⟨Rule.steps (.ofNat n) ++ r, rfl⟩
  · exact ⟨['{'] ++ Text.ofInt (.negSucc n) ++ ['}'] ++ r, rfl⟩

/-- A mark before a word does not begin with a step upwards unless the mark does. -/
theorem not_startsWith_step (hm : IsMark mark) {x : Char} (hx : Text.isWord x = true) (v : Text) :
    (mark ++ x :: v).startsWith ['.', '.', '/'] = false := by
  have hdot : x ≠ '.' := by
    rintro rfl
    revert hx
    decide
  have hslash : x ≠ '/' := by
    rintro rfl
    revert hx
    decide
  rw [← Bool.not_eq_true, Text.startsWith_iff]
  rintro ⟨rest, h⟩
  rcases mark with _ | ⟨b, _ | ⟨c, _ | ⟨d, mark⟩⟩⟩
  · exact hdot (List.cons.inj h).1
  · exact hdot (List.cons.inj (List.cons.inj h).2).1
  · exact hslash (List.cons.inj (List.cons.inj (List.cons.inj h).2).2).1
  · have hup := hm.not_up
    rw [← Bool.not_eq_true, Text.startsWith_iff] at hup
    injection h with hb h
    injection h with hc h
    injection h with hd h
    exact hup ⟨mark, by rw [hb, hc, hd]; rfl⟩

/-- A fixed rule that asks for steps takes them away. -/
theorem moves_fixed {f : Form} {depth : Int} (hm : IsMark mark) (hdepth : depth ≠ 0)
    (cwd file : Text) :
    (Rule.fixed f depth mark Rule.knownDirectories).Moves cwd file Stepped := by
  intro s t ht _
  obtain ⟨r, rfl, rfl, hbelow⟩ := Rule.replacement_fixed ht
  obtain ⟨x, v, rfl, hx⟩ := Rule.exists_cons_of_isBelow (by decide) (by decide) hbelow
  exact ⟨startsWith_steps hdepth _, not_startsWith_step hm hx v⟩

theorem isPlain_fixedRules (mark : Text) (depths : List Int) :
    ∀ rule ∈ Rule.fixedRules mark Rule.knownDirectories depths, rule.IsPlain := by
  intro rule hrule
  obtain ⟨f, depth, -, rfl⟩ := Rule.exists_of_mem_fixedRules hrule
  exact ⟨Rule.all_steps depth, by decide⟩

theorem isTidy_fixedRules (hmark : mark.all isQuotable = true) (cwd file : Text)
    (depths : List Int) :
    ∀ rule ∈ Rule.fixedRules mark Rule.knownDirectories depths, rule.IsTidy cwd file := by
  intro rule hrule
  obtain ⟨f, depth, -, rfl⟩ := Rule.exists_of_mem_fixedRules hrule
  exact Rule.isTidy_fixed hmark (by decide) (by decide) cwd file f depth

theorem moves_fixedRules (hm : IsMark mark) {depths : List Int} (hdepths : 0 ∉ depths)
    (cwd file : Text) :
    ∀ rule ∈ Rule.fixedRules mark Rule.knownDirectories depths, rule.Moves cwd file Stepped := by
  intro rule hrule
  obtain ⟨f, depth, hdepth, rfl⟩ := Rule.exists_of_mem_fixedRules hrule
  exact moves_fixed hm (fun h => hdepths (h ▸ hdepth)) cwd file

/-- At an absolute path without quotes and line ends, and with a mark that no relative specifier
begins with, the computed rules and the fixed rules for the usual directories change nothing but
texts between two quotes. What they record is just which text became which one on which line, so
there is a change if and only if something is recorded. Depths other than the usual ones will do,
except that of a rule that asks for no step: its mark may be taken up again. -/
theorem respelling_framed (hcwd : Path.isAbsolute cwd = true)
    (hfile : Path.isAbsolute file = true) (hq : file.all isQuotable = true) (hm : IsMark mark)
    (hmark : mark.all isQuotable = true) (root : Text) (skip : Bool) {depths : List Int}
    (hdepths : 0 ∉ depths) (content : Text) :
    ∀ rules ∈ [Rule.computedRules ⟨root, mark, skip⟩,
        Rule.fixedRules mark Rule.knownDirectories depths],
      let r := text cwd file rules content
      Framed content r.after r.changes ∧ (r.hasChanges = true ↔ r.changes ≠ []) := by
  intro rules hrules
  rw [List.mem_cons, List.mem_singleton] at hrules
  rcases hrules with rfl | rfl
  · have htidy := Rule.isTidy_computedRules (a := ⟨root, mark, skip⟩) fun s t =>
      Aliasing.isQuotable_aliased_of_absolute hcwd hfile hq hmark
    have honce := isOnce_aliased (a := ⟨root, mark, skip⟩) hcwd hm file
    exact ⟨framed_text Rule.isPlain_computedRules htidy Rule.moves_computedRules honce content,
      hasChanges_iff Rule.isPlain_computedRules htidy Rule.moves_computedRules honce content⟩
  · have hplain := isPlain_fixedRules mark depths
    have htidy := isTidy_fixedRules hmark cwd file depths
    have hmoves := moves_fixedRules hm hdepths cwd file
    exact ⟨framed_text hplain htidy hmoves isOnce_stepped content,
      hasChanges_iff hplain htidy hmoves isOnce_stepped content⟩

/-- A line on which a call and an import clause are respelled, after one that is left alone. -/
def twoOnALine : Text := "// 'x'\nrequire('../lib/a'); import b from \"../lib/b\""

theorem respelling_framed_twoOnALine :
    let rules := Rule.computedRules ⟨"/p/src", atMark, true⟩
    let fixed := Rule.fixedRules atMark Rule.knownDirectories Rule.knownDepths
    let r := text "/p" "/p/src/a/f.ts" rules twoOnALine
    let d := text "/p" "/p/src/a/f.ts" fixed twoOnALine
    r.changes = [⟨"../lib/b", "@/lib/b", 2, "relative-to-alias:from"⟩,
        ⟨"../lib/a", "@/lib/a", 2, "relative-to-alias:require"⟩] ∧
      (Framed twoOnALine r.after r.changes ∧ (r.hasChanges = true ↔ r.changes ≠ [])) ∧
      (Framed twoOnALine d.after d.changes ∧ (d.hasChanges = true ↔ d.changes ≠ [])) := by
  intro rules fixed r d
  have hcwd : Path.isAbsolute "/p" = true := by decide
  have hfile : Path.isAbsolute "/p/src/a/f.ts" = true := by decide
  have hm : IsMark atMark := ⟨by decide, by decide⟩
  have hdepths : 0 ∉ Rule.knownDepths := by decide
  have hframed := respelling_framed hcwd hfile (by decide) hm (by decide) "/p/src" true hdepths
    twoOnALine
  exact ⟨by decide, hframed rules (by simp [rules]), hframed fixed (by simp [fixed])⟩

end Respell
end ModuleGraph
