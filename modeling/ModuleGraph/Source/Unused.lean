import ModuleGraph.Source.Basic
import ModuleGraph.Source.Statement
import ModuleGraph.Text.Lines

/-! Imported names that are not used. A name is used if it stands as a whole identifier anywhere
outside the lines of its own statement, be it in a comment or a string. -/

namespace ModuleGraph

/-- An imported name that is not used. -/
structure UnusedName where
  file : Text
  specifier : Text
  name : Text
  line : Int
  deriving Repr, DecidableEq

namespace Unused

/-- The words that open a statement that binds names. -/
def openingWords : List Text := Statement.importWord :: Statement.variableWords

/-- Past one of the opening words, as a whole word. -/
def openingWord (c : Cursor) : Option Cursor :=
  (openingWords.findSome? fun w => c.literal w).bind fun e =>
    if e.rest.head?.any Text.isWord then none else some e

/-- Does the line open a statement that binds names? -/
def opens (line : Text) : Bool :=
  let c := (Cursor.start line).blanks
  (openingWord (Statement.maybeGap Statement.exportWord c)).isSome

/-- The longest way, in lines, from a specifier up to the opening of its statement. -/
def maxSpan : Nat := 50

/-- The nearest line at or above `n` that opens a statement, at most `span` lines away. Lines are
counted from one. -/
def openingLine (lines : Array Text) : (span n : Nat) → Nat
  | 0, n => n
  | span + 1, n =>
    if n ≤ 1 || opens (lines.getD (n - 1) []) then n else openingLine lines span (n - 1)

/-- The lines of a text but those of the statement whose specifier is on `line`. -/
def otherLines (lines : Array Text) (line : Int) : Text :=
  if line < 1 then Text.unlines lines.toList
  else
    let last := line.toNat
    let first := openingLine lines maxSpan last
    Text.unlines (lines.toList.take (first - 1) ++ lines.toList.drop last)

/-- Does the name stand here, or further on, as a whole identifier? -/
def occursFrom (name : Text) (before : Option Char) (t : Text) : Bool :=
  (!before.any Text.isName && match Text.after? name t with
    | some rest => !rest.head?.any Text.isName
    | none => false) ||
  match t with
  | [] => false
  | c :: rest => occursFrom name (some c) rest

/-- Does the name stand somewhere in the text as a whole identifier? -/
def occurs (name t : Text) : Bool := occursFrom name none t

/-- The file that an import is reported for: its own, unless it has none or an empty one. -/
def fileOf (s : Source) (i : Import) : Text :=
  match i.file with
  | some (c :: rest) => c :: rest
  | _ => s.path

/-- The unused names of one import; none if its line is not in the text. -/
def ofImport (s : Source) (lines : Array Text) (i : Import) : Option (List UnusedName) :=
  if i.bindings.isEmpty || i.kind = .dynamic then some []
  else if (lines.size : Int) < i.line then none
  else
    let others := otherLines lines i.line
    some ((i.bindings.filter fun name => !occurs name others).map fun name =>
      ⟨fileOf s i, i.specifier, name, i.line⟩)

/-- The unused names of a source, in the order of its imports; none if an import lies on a line
that the text does not have. -/
def find? (s : Source) : Option (List UnusedName) :=
  let lines := s.content.lines.toArray
  (s.imports.mapM (ofImport s lines)).map List.flatten

end Unused
end ModuleGraph
