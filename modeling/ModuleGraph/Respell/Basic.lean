import ModuleGraph.Respell.Rule
import ModuleGraph.Text.Lines

/-! Respelling a text line by line. Each rule in turn goes over the line as the rules before it
left it; edits that change something are recorded with the specifier before and after. -/

namespace ModuleGraph

/-- A specifier that was respelled. -/
structure Change where
  before : Text
  after : Text
  line : Int
  rule : Text
  deriving Repr, DecidableEq

/-- A text before and after respelling. -/
structure Respelled where
  before : Text
  after : Text
  changes : List Change
  deriving Repr, DecidableEq

def Respelled.hasChanges (r : Respelled) : Bool := r.after != r.before

namespace Respell

/-- The edits carried out on the text that starts at `offset`; they come left to right. -/
def spliceFrom (offset : Nat) (t : Text) : List Edit → Text
  | [] => t
  | e :: rest =>
    t.take (e.start - offset) ++ e.new ++ spliceFrom e.stop (t.drop (e.stop - offset)) rest

/-- The edits carried out on a line. -/
def splice (t : Text) (edits : List Edit) : Text := spliceFrom 0 t edits

/-- A quoted text whose two quotes may differ. -/
def looselyQuoted (c : Cursor) : Option (Text × Cursor) :=
  match c.rest with
  | [] => none
  | q :: _ =>
    if Cursor.isQuote q then
      let inner := c.next
      let close := inner.skip Cursor.isQuotable
      if close.offset = inner.offset || !close.rest.head?.any Cursor.isQuote then none
      else some (inner.upTo close, close.next)
    else none

/-- The first quoted text of a statement; a statement without one stands for itself. -/
def specifierOf (statement : Text) : Text :=
  match Cursor.findAll looselyQuoted (·.2.offset) statement with
  | (t, _) :: _ => t
  | [] => statement

/-- The record of an edit. -/
def recordEdit (rule : Rule) (line : Nat) (e : Edit) : Option Change :=
  if e.new = e.old then none
  else some ⟨specifierOf e.old, specifierOf e.new, line, rule.name⟩

/-- One rule on one line. -/
def applyRule (cwd file : Text) (n : Nat) (state : Text × List Change) (rule : Rule) :
    Text × List Change :=
  let edits := Cursor.findAll (rule.editAt cwd file) Edit.stop state.1
  (splice state.1 edits, state.2 ++ edits.filterMap (recordEdit rule n))

/-- All rules on one line. -/
def respellLine (cwd file : Text) (rules : List Rule) (n : Nat) (line : Text) :
    Text × List Change :=
  rules.foldl (applyRule cwd file n) (line, [])

/-- All rules on lines numbered from `n` on. -/
def respellLines (cwd file : Text) (rules : List Rule) (n : Nat) (lines : List Text) :
    List (Text × List Change) :=
  lines.zipIdx n |>.map fun (line, n) => respellLine cwd file rules n line

/-- All rules on all lines of a text. -/
def text (cwd file : Text) (rules : List Rule) (content : Text) : Respelled :=
  let done := respellLines cwd file rules 1 content.lines
  ⟨content, Text.unlines (done.map (·.1)), done.flatMap (·.2)⟩

end Respell
end ModuleGraph
