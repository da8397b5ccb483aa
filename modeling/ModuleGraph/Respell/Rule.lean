import ModuleGraph.Respell.Aliasing
import ModuleGraph.Source.Statement

/-! Rules that respell the quoted specifier of one statement form. A computed rule looks at the
place of the file; a fixed rule replaces a given number of steps upwards before a known directory
by the mark, wherever the file is. -/

namespace ModuleGraph

/-- The statement forms whose specifier may be respelled. -/
inductive Form
  | fromClause
  | sideEffect
  | require
  | dynamic
  deriving Repr, DecidableEq

namespace Form

def all : List Form := [.fromClause, .sideEffect, .require, .dynamic]

def name : Form → Text
  | .fromClause => "from"
  | .sideEffect => "side-effect"
  | .require => "require"
  | .dynamic => "dynamic"

/-- Past the word, any blanks and an opening bracket, and the blanks after it. -/
def callLead (w : Text) (c : Cursor) : Option Cursor :=
  (c.word w).bind fun c => (c.blanks.char '(').map (·.blanks)

/-- Past everything before the opening quote. -/
def lead : Form → Cursor → Option Cursor
  | .fromClause, c => (c.word Binding.fromWord).map (·.blanks)
  | .sideEffect, c => (c.word Statement.importWord).bind (·.blanks1)
  | .require, c => callLead Statement.requireWord c
  | .dynamic, c => callLead Statement.importWord c

end Form

/-- A piece of a line with what it becomes. -/
structure Edit where
  start : Nat
  stop : Nat
  old : Text
  new : Text
  deriving Repr, DecidableEq

/-- A rule by which specifiers are respelled. -/
inductive Rule
  | computed (form : Form) (aliasing : Aliasing)
  | fixed (form : Form) (depth : Int) (mark : Text) (directories : List Text)
  deriving Repr, DecidableEq

namespace Rule

def form : Rule → Form
  | .computed f _ => f
  | .fixed f _ _ _ => f

def name : Rule → Text
  | .computed f _ => "relative-to-alias:" ++ f.name
  | .fixed f depth _ _ => "deep-relative:" ++ f.name ++ ":" ++ Text.ofInt depth

def description : Rule → Text
  | .computed f a => "Rewrite relative " ++ f.name ++ " specifiers to " ++ a.mark ++ " paths"
  | .fixed f depth mark _ =>
    "Rewrite " ++ Text.ofInt depth ++ "-level relative " ++ f.name ++ " specifiers to " ++ mark ++
      " paths"

/-- The steps upwards that a fixed rule asks for. A negative number cannot be counted off and is
asked for as text, in braces. -/
def steps : Int → Text
  | .ofNat n => (List.replicate n ['.', '.', '/']).flatten
  | .negSucc n => ['.', '.', '/', '{'] ++ Text.ofInt (.negSucc n) ++ ['}']

/-- The edit of a computed rule: the whole statement lead and its specifier. -/
def computedEdit (a : Aliasing) (cwd file : Text) (c inner : Cursor) : Option Edit :=
  inner.quoted.map fun q =>
    let old := c.upTo q.stop
    let new := match a.aliased cwd file q.text with
      | some s => c.upTo inner ++ q.quote :: s ++ [q.quote]
      | none => old
    ⟨c.offset, q.stop.offset, old, new⟩

/-- Past a directory and what may follow it inside the quotes, up to the closing quote. -/
def directoryEnd (quote : Char) (directory : Text) (c : Cursor) : Option (Cursor × Cursor) :=
  (c.literal directory).bind fun d =>
    let inner := if d.rest.head? == some '/' then d.skip Cursor.isQuotable else d
    (inner.char quote).map fun stop => (inner, stop)

/-- The edit of a fixed rule. -/
def fixedEdit (depth : Int) (mark : Text) (directories : List Text) (c inner : Cursor) :
    Option Edit :=
  match inner.rest with
  | [] => none
  | q :: _ =>
    if Cursor.isQuote q then
      (inner.next.literal (steps depth)).bind fun d =>
        let choices := if directories.isEmpty then [[]] else directories
        (choices.findSome? fun dir => directoryEnd q dir d).map fun (close, stop) =>
          ⟨c.offset, stop.offset, c.upTo stop,
            c.upTo inner ++ q :: mark ++ d.upTo close ++ [q]⟩
    else none

/-- The edit of a rule at one place of a line, if its statement form is there. -/
def editAt (rule : Rule) (cwd file : Text) (c : Cursor) : Option Edit :=
  match rule with
  | .computed f a => (f.lead c).bind (computedEdit a cwd file c)
  | .fixed f depth mark dirs => (f.lead c).bind (fixedEdit depth mark dirs c)

/-- The computed rules, one for each statement form. -/
def computedRules (a : Aliasing) : List Rule := Form.all.map (.computed · a)

/-- The directories that a source tree usually has at its top. -/
def knownDirectories : List Text := [
  "components", "hooks", "lib", "types", "contexts", "providers", "services", "stores", "data",
  "i18n", "test", "styles"]

def knownDepths : List Int := [3, 2, 1]

/-- The statement forms of fixed rules. -/
def fixedForms : List Form := [.fromClause, .require, .dynamic]

/-- The fixed rules, deepest first for each statement form. -/
def fixedRules (mark : Text) (directories : List Text) (depths : List Int) : List Rule :=
  fixedForms.flatMap fun f =>
    (depths.mergeSort fun a b => b ≤ a).map fun depth => .fixed f depth mark directories

end Rule
end ModuleGraph
