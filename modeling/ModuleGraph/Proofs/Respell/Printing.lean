import ModuleGraph.Proofs.Respell.Lines
import ModuleGraph.Proofs.Source.Leads

/-!
Respelling a text that is printed from statements.

* `ModuleStatement`: the statements that name a module, with a layout of their own;
  `ModuleStatement.print` writes one, over several lines if the layout says so;
* `after_print`: computed rules respell the specifier of a printed statement;
* `respell_printAll`: respelling what is printed is printing what is respelled.
-/

namespace ModuleGraph

open Cursor

/-- Blanks, which may go over several lines. -/
abbrev Gap := { w : Text // w.all Text.isBlank = true }

/-- Blanks on one line. -/
abbrev Space := { w : Text // w.all Text.isBlank = true ∧ '\n' ∉ w }

/-- The blanks in a statement, and whether a comma follows the last name of a list. -/
structure Layout where
  /-- After the comma behind a default name. -/
  comma : Gap
  opening : Gap
  between : Gap
  closing : Gap
  trailing : Bool
  /-- Before the word `from`, where the blanks cannot be left out. -/
  turn : { g : Gap // g.1 ≠ [] }
  /-- After the word before a specifier. -/
  word : Space
  /-- After an opening bracket. -/
  inside : Space
  /-- Before a closing bracket. -/
  bracket : Gap

/-- The forms of a statement that names a module. -/
inductive ModuleForm
  | sideEffect
  | clause (typed : Bool) (clause : ImportClause)
  | require (binding : Option ({ w // w ∈ Statement.variableWords } × RequireTarget))
  | dynamic (bound : Option Identifier)
  | exportList (items : List BoundItem)
  | exportAll
  | exportAs (name : Identifier)

/-- A statement that names a module. -/
structure ModuleStatement where
  form : ModuleForm
  layout : Layout
  quote : { q // isQuote q = true }
  specifier : Text
  semicolon : Bool

namespace Layout

variable (l : Layout)

/-- Items with commas between them. -/
def printItems (separator : Text) : List BoundItem → Text
  | [] => []
  | [i] => i.print separator ++ if l.trailing then [','] else []
  | i :: j :: rest => i.print separator ++ ',' :: (l.between.1 ++ printItems separator (j :: rest))

/-- Items in braces. -/
def printList (separator : Text) (items : List BoundItem) : Text :=
  '{' :: (l.opening.1 ++ (l.printItems separator items ++ (l.closing.1 ++ ['}'])))

def printPart : ImportPart → Text
  | .list items => l.printList (' ' :: (Binding.asWord ++ [' '])) items
  | .everything n => '*' :: ' ' :: (Binding.asWord ++ ' ' :: n.text)

def printClause : ImportClause → Text
  | .name n => n.text
  | .part p => l.printPart p
  | .both n p => n.text ++ ',' :: (l.comma.1 ++ l.printPart p)

def printTarget : RequireTarget → Text
  | .name n => n.text
  | .pattern items => l.printList [':', ' '] items

/-- What stands before the word that a specifier follows. -/
def front : ModuleForm → Text
  | .sideEffect | .require none | .dynamic none => []
  | .clause typed c => Statement.importWord ++ ' ' ::
      ((if typed then Binding.typeWord ++ [' '] else []) ++ l.printClause c) ++ l.turn.1.1
  | .require (some (word, target)) =>
    word.1 ++ ' ' :: (l.printTarget target ++ [' ', '=', ' '])
  | .dynamic (some n) => ImportForm.constWord ++ ' ' ::
      (n.text ++ ' ' :: '=' :: ' ' :: (ImportForm.awaitWord ++ [' ']))
  | .exportList items => Statement.exportWord ++ ' ' ::
      l.printList (' ' :: (Binding.asWord ++ [' '])) items ++ l.turn.1.1
  | .exportAll => Statement.exportWord ++ [' ', '*'] ++ l.turn.1.1
  | .exportAs n => Statement.exportWord ++ ' ' :: l.printPart (.everything n) ++ l.turn.1.1

/-- What stands between the word that a specifier follows and its opening quote. -/
def gap : Form → Text
  | .fromClause => l.word.1
  | .sideEffect => ' ' :: l.word.1
  | .require | .dynamic => l.word.1 ++ '(' :: l.inside.1

/-- What stands after the closing quote. -/
def close : Form → Text
  | .fromClause | .sideEffect => []
  | .require | .dynamic => l.bracket.1 ++ [')']

end Layout

/-- The form by which the specifier of a statement is respelled. -/
def ModuleForm.lead : ModuleForm → Form
  | .sideEffect => .sideEffect
  | .require _ => .require
  | .dynamic _ => .dynamic
  | .clause .. | .exportList _ | .exportAll | .exportAs _ => .fromClause

namespace ModuleStatement

/-- The beginning of the statement proper, from the word that the specifier follows on. -/
def lead (s : ModuleStatement) : Text := s.form.lead.leadWord ++ s.layout.gap s.form.lead

/-- What stands after the specifier. -/
def back (s : ModuleStatement) : Text :=
  s.layout.close s.form.lead ++ if s.semicolon then [';'] else []

def print (s : ModuleStatement) : Text :=
  s.layout.front s.form ++ enclosed s.lead s.quote.1 s.specifier ++ s.back

/-- The statements one after another on separate lines, the last line ended or not. -/
def printAll (ss : List ModuleStatement) (ended : Bool) : Text :=
  Text.unlines (ss.map print ++ if ended then [[]] else [])

/-- The statement with its specifier in its aliased form, if it has one. -/
def respelled (a : Aliasing) (cwd file : Text) (s : ModuleStatement) : ModuleStatement :=
  { s with specifier := (a.aliased cwd file s.specifier).getD s.specifier }

end ModuleStatement

namespace Text

@[simp] theorem isUnquoted_nil : IsUnquoted [] := Respelt.isUnquoted_nil

@[simp] theorem isUnquoted_cons_iff {x : Char} {w : Text} :
    IsUnquoted (x :: w) ↔ isQuote x = false ∧ w.IsUnquoted := List.forall_mem_cons

@[simp] theorem isUnquoted_append_iff {v w : Text} :
    (v ++ w).IsUnquoted ↔ v.IsUnquoted ∧ w.IsUnquoted := List.forall_mem_append

end Text

theorem Identifier.isUnquoted (n : Identifier) : n.text.IsUnquoted := by
  intro x hx
  rw [← Bool.not_eq_true]
  intro hq
  simp only [isQuote, Bool.or_eq_true, beq_iff_eq] at hq
  have hname := n.isName_of_mem hx
  rcases hq with rfl | rfl <;> revert hname <;> decide

theorem Gap.isUnquoted (g : Gap) : g.1.IsUnquoted := Form.isUnquoted_of_blanks g.2

theorem Space.isUnquoted (g : Space) : g.1.IsUnquoted := Form.isUnquoted_of_blanks g.2.1

namespace Layout

variable (l : Layout)

theorem isUnquoted_item {separator : Text} (hs : separator.IsUnquoted) (i : BoundItem) :
    (i.print separator).IsUnquoted := by
  rw [BoundItem.print]
  cases i.renamed with
  | none => simpa using i.name.isUnquoted
  | some m => simp [hs, i.name.isUnquoted, m.isUnquoted]

theorem isUnquoted_printItems {separator : Text} (hs : separator.IsUnquoted)
    (items : List BoundItem) : (l.printItems separator items).IsUnquoted := by
  have hcomma : isQuote ',' = false := rfl
  fun_induction l.printItems separator items with
  | case1 => exact Text.isUnquoted_nil
  | case2 i =>
    rw [Text.isUnquoted_append_iff]
    refine ⟨isUnquoted_item hs i, ?_⟩
    split <;> simp [hcomma]
  | case3 i j rest ih =>
    simp [isUnquoted_item hs i, hcomma, l.between.isUnquoted, ih]

theorem isUnquoted_printList {separator : Text} (hs : separator.IsUnquoted)
    (items : List BoundItem) : (l.printList separator items).IsUnquoted := by
  have hbraces : isQuote '{' = false ∧ isQuote '}' = false := ⟨rfl, rfl⟩
  simp [printList, hbraces, l.opening.isUnquoted, l.isUnquoted_printItems hs, l.closing.isUnquoted]

theorem isUnquoted_printPart (p : ImportPart) : (l.printPart p).IsUnquoted := by
  cases p with
  | list items => exact l.isUnquoted_printList (Form.isUnquoted_word (by decide)) items
  | everything n =>
    have hstar : Text.IsUnquoted ('*' :: ' ' :: (Binding.asWord ++ [' '])) :=
      Form.isUnquoted_word (by decide)
    have hsplit : l.printPart (.everything n) =
        ('*' :: ' ' :: (Binding.asWord ++ [' '])) ++ n.text := by simp [printPart]
    rw [hsplit]
    exact hstar.append n.isUnquoted

theorem isUnquoted_printClause (c : ImportClause) : (l.printClause c).IsUnquoted := by
  have hcomma : isQuote ',' = false := rfl
  cases c with
  | name n => exact n.isUnquoted
  | part p => exact l.isUnquoted_printPart p
  | both n p =>
    simp [printClause, n.isUnquoted, hcomma, l.comma.isUnquoted, l.isUnquoted_printPart p]

theorem isUnquoted_printTarget (t : RequireTarget) : (l.printTarget t).IsUnquoted := by
  cases t with
  | name n => exact n.isUnquoted
  | pattern items => exact l.isUnquoted_printList (Form.isUnquoted_word (by decide)) items

theorem isUnquoted_front (form : ModuleForm) : (l.front form).IsUnquoted := by
  have hblank : isQuote ' ' = false := rfl
  have hequals : isQuote '=' = false := rfl
  have hword : ∀ {w : Text}, w.all (fun c => !isQuote c) = true → w.IsUnquoted :=
    Form.isUnquoted_word
  have himport : Text.IsUnquoted Statement.importWord := hword (by decide)
  have hexport : Text.IsUnquoted Statement.exportWord := hword (by decide)
  cases form with
  | sideEffect => exact Text.isUnquoted_nil
  | clause typed c =>
    have htype : Text.IsUnquoted (if typed then Binding.typeWord ++ [' '] else []) := by
      cases typed <;> exact hword (by decide)
    simp [front, himport, hblank, htype, l.isUnquoted_printClause c, l.turn.1.isUnquoted]
  | require binding =>
    cases binding with
    | none => exact Text.isUnquoted_nil
    | some b =>
      have hvariable : ∀ w ∈ Statement.variableWords, w.all (fun c => !isQuote c) = true := by
        decide
      simp [front, hword (hvariable _ b.1.2), hblank, hequals, l.isUnquoted_printTarget b.2]
  | dynamic bound =>
    cases bound with
    | none => exact Text.isUnquoted_nil
    | some n =>
      have hconst : Text.IsUnquoted ImportForm.constWord := hword (by decide)
      have hawait : Text.IsUnquoted ImportForm.awaitWord := hword (by decide)
      simp [front, hconst, hawait, hblank, hequals, n.isUnquoted]
  | exportList items =>
    have hlist := l.isUnquoted_printList (hword (w := ' ' :: (Binding.asWord ++ [' '])) (by decide))
      items
    simp [front, hexport, hblank, hlist, l.turn.1.isUnquoted]
  | exportAll =>
    have hstar : isQuote '*' = false := rfl
    simp [front, hexport, hblank, hstar, l.turn.1.isUnquoted]
  | exportAs n => simp [front, hexport, hblank, l.isUnquoted_printPart, l.turn.1.isUnquoted]

/-- The word that a specifier follows stands alone. -/
theorem getLast?_front (form : ModuleForm) : (l.front form).getLast?.any Text.isWord = false := by
  have hturn : ∀ v : Text, (v ++ l.turn.1.1).getLast?.any Text.isWord = false :=
    Text.not_isWord_of_blanks l.turn.2 l.turn.1.2
  have hblank : ∀ v : Text, (v ++ [' ']).getLast?.any Text.isWord = false :=
    Text.not_isWord_of_blanks (by simp) (by decide)
  cases form with
  | sideEffect => rfl
  | clause typed c => exact hturn _
  | require binding =>
    cases binding with
    | none => rfl
    | some b =>
      have hsplit : l.front (.require (some b)) =
          (b.1.1 ++ ' ' :: (l.printTarget b.2 ++ [' ', '='])) ++ [' '] := by simp [front]
      rw [hsplit]
      exact hblank _
  | dynamic bound =>
    cases bound with
    | none => rfl
    | some n =>
      have hsplit : l.front (.dynamic (some n)) = (ImportForm.constWord ++ ' ' ::
          (n.text ++ ' ' :: '=' :: ' ' :: ImportForm.awaitWord)) ++ [' '] := by simp [front]
      rw [hsplit]
      exact hblank _
  | exportList items => exact hturn _
  | exportAll => exact hturn _
  | exportAs n => exact hturn _

theorem isGap (f : Form) : f.IsGap (l.gap f) := by
  have hblank : Text.isBlank ' ' = true := by decide
  cases f with
  | fromClause => exact l.word.2.1
  | sideEffect => exact ⟨List.cons_ne_nil _ _, by simp [gap, hblank, l.word.2.1]⟩
  | require => exact ⟨_, _, l.word.2.1, l.inside.2.1, rfl⟩
  | dynamic => exact ⟨_, _, l.word.2.1, l.inside.2.1, rfl⟩

theorem not_mem_gap (f : Form) : '\n' ∉ l.gap f := by
  cases f <;> simp [gap, l.word.2.2, l.inside.2.2]

theorem isUnquoted_close (f : Form) : (l.close f).IsUnquoted := by
  have hbracket : isQuote ')' = false := rfl
  cases f <;> simp [close, hbracket, l.bracket.isUnquoted]

end Layout

namespace ModuleStatement

variable {a : Aliasing} {cwd file : Text}

theorem isUnquoted_back (s : ModuleStatement) : s.back.IsUnquoted := by
  have hsign : Text.IsUnquoted (if s.semicolon then [';'] else []) := by
    split <;> exact Form.isUnquoted_word (by decide)
  exact (s.layout.isUnquoted_close _).append hsign

/-- Computed rules respell the specifier of a printed statement. -/
theorem after_print (h : ∀ s t, s.IsQuotable → a.aliased cwd file s = some t → t.IsQuotable)
    (s : ModuleStatement) (hs : s.specifier.IsQuotable) :
    (Respell.text cwd file (Rule.computedRules a) s.print).after =
      (s.respelled a cwd file).print := by
  have hword : '\n' ∉ s.form.lead.leadWord := by cases s.form.lead <;> decide
  have hline : '\n' ∉ s.lead := by simp [lead, hword, s.layout.not_mem_gap]
  exact Respell.after_statement h (s.layout.isUnquoted_front s.form)
    (s.layout.getLast?_front s.form) ⟨_, s.layout.isGap _, rfl⟩ hline s.quote.2 hs s.isUnquoted_back

/-- Respelling what is printed from statements is printing the statements respelled: each specifier
in its aliased form, if it has one, and all around it as it was. -/
theorem respell_printAll (hcwd : Path.isAbsolute cwd = true) (hfile : Path.isAbsolute file = true)
    (hq : file.all isQuotable = true) (hmark : a.mark.all isQuotable = true)
    (ss : List ModuleStatement) (hs : ∀ s ∈ ss, s.specifier.IsQuotable) (ended : Bool) :
    (Respell.text cwd file (Rule.computedRules a) (printAll ss ended)).after =
      printAll (ss.map (respelled a cwd file)) ended := by
  have hone : ∀ s ∈ ss,
      ((fun l => (Respell.text cwd file (Rule.computedRules a) l).after) ∘ print) s =
        (print ∘ respelled a cwd file) s := fun s hmem =>
    after_print (fun u t => Aliasing.isQuotable_aliased_of_absolute hcwd hfile hq hmark) s
      (hs s hmem)
  have hend : (if ended then [[]] else []).map
      (fun l => (Respell.text cwd file (Rule.computedRules a) l).after) =
        if ended then [[]] else [] := by
    cases ended with
    | false => rfl
    | true => simp [Respell.after_nil]
  rw [printAll, Respell.after_unlines, List.map_append, hend, List.map_map, printAll, List.map_map,
    List.map_congr_left hone]

/-- One blank where one is needed, and one line for each name of a list. -/
def sampleLayout : Layout where
  comma := ⟨" ", by decide⟩
  opening := ⟨"\n  ", by decide⟩
  between := ⟨"\n  ", by decide⟩
  closing := ⟨"\n", by decide⟩
  trailing := true
  turn := ⟨⟨" ", by decide⟩, by decide⟩
  word := ⟨[], by decide⟩
  inside := ⟨[], by decide⟩
  bracket := ⟨[], by decide⟩

def sample : List ModuleStatement := [
  ⟨.sideEffect, sampleLayout, ⟨'"', rfl⟩, "../s", false⟩,
  ⟨.clause false (.both ⟨"a", by decide⟩
      (.list [⟨⟨"x", by decide⟩, none⟩, ⟨⟨"from", by decide⟩, some ⟨"z", by decide⟩⟩])),
    { sampleLayout with word := ⟨" ", by decide⟩ }, ⟨'\'', rfl⟩, "../lib/b", true⟩,
  ⟨.require (some (⟨"const", by decide⟩, .name ⟨"r", by decide⟩)), sampleLayout, ⟨'"', rfl⟩, "./r",
    true⟩]

theorem respell_printAll_sample :
    (Respell.text "/p" "/p/src/a/b.ts" (Rule.computedRules ⟨"/p/src", "@/", true⟩)
        (Text.unlines ["import \"../s\"", "import a, \x7b", "  x,", "  from as z,",
          "\x7d from '../lib/b';", "const r = require(\"./r\");", ""])).after =
      Text.unlines ["import \"@/s\"", "import a, \x7b", "  x,", "  from as z,",
        "\x7d from '@/lib/b';", "const r = require(\"./r\");", ""] := by
  have hs : ∀ s ∈ sample, s.specifier.IsQuotable := by
    intro s hs
    simp only [sample, List.mem_cons, List.not_mem_nil, or_false] at hs
    rcases hs with rfl | rfl | rfl <;> exact ⟨by decide, by decide⟩
  exact respell_printAll (a := ⟨"/p/src", "@/", true⟩) (by decide) (by decide) (by decide)
    (by decide) sample hs true

end ModuleStatement
end ModuleGraph
