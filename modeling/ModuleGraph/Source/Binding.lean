import ModuleGraph.Text.Cursor

/-! The names in an import clause, in a destructuring pattern and in an export list.

A clause is a default name, a namespace, a list in braces, or a default name before one of the
others. In the braces of an import `a as b` binds `b`; in those of a pattern `a: b` does, and a
default value after `=` is left out. -/

namespace ModuleGraph
namespace Binding

/-- The word before the namespace and before a new name. -/
def asWord : Text := ['a', 's']

def fromWord : Text := ['f', 'r', 'o', 'm']

def typeWord : Text := ['t', 'y', 'p', 'e']

/-- `as` between blanks. -/
def asSeparator (c : Cursor) : Option Cursor :=
  (c.blanks1.bind (·.literal asWord)).bind (·.blanks1)

/-- A colon, with any blanks around it. -/
def colonSeparator (c : Cursor) : Option Cursor :=
  (c.blanks.char ':').map (·.blanks)

/-- What stands between the two names of an item. -/
def renameSeparator (c : Cursor) : Option Cursor :=
  (asSeparator c).orElse fun _ => colonSeparator c

/-- A trimmed clause without the word `from` at its end. -/
def dropFrom (t : Text) : Text :=
  match Text.after? fromWord.reverse t.reverse with
  | some before => if before.head?.any Text.isBlank then Text.trimRight before.reverse else t
  | none => t

/-- An item without the word `type` in front. -/
def dropType (t : Text) : Text :=
  match (Cursor.start t).literal typeWord |>.bind (·.blanks1) with
  | some c => c.rest
  | none => t

/-- The name in `* as name`. -/
def namespaceName (t : Text) : Option Text :=
  match ((Cursor.start t).char '*').bind (·.blanks.literal asWord) |>.bind (·.blanks1) with
  | some c => if Text.isIdentifier c.rest then some c.rest else none
  | none => none

/-- The text before the first opening brace, and the text in the braces, if they close. -/
def cutBraces (t : Text) : Text × Option Text :=
  let head := t.takeWhile (· != '{')
  let tail := t.drop (head.length + 1)
  if '{' ∈ t ∧ '}' ∈ tail then (head, some (tail.takeWhile (· != '}')))
  else (t, none)

/-- The name bound by one part of a clause outside the braces. -/
def headName (part : Text) : Option Text :=
  match namespaceName part with
  | some name => some name
  | none => if Text.isIdentifier part then some part else none

/-- The name bound by one item in braces. -/
def itemName (item : Text) : Option Text :=
  let item := dropType item.trim
  if item.isEmpty then none
  else
    let name := (item.afterLast renameSeparator).trim
    let name := Text.trim (name.takeWhile (· != '='))
    if Text.isIdentifier name then some name else none

/-- The local names bound by an import clause or a pattern, left to right. -/
def names (clause : Text) : List Text :=
  let (head, inner) := cutBraces (dropFrom clause.trim)
  (head.splitOn ',').filterMap (fun part => headName part.trim) ++
    match inner with
    | some inner => (inner.splitOn ',').filterMap itemName
    | none => []

/-- The name that one item of an export list makes visible. -/
def exportName (item : Text) : Option Text :=
  let item := dropType item.trim
  if item.isEmpty then none
  else
    let name := (item.afterLast asSeparator).trim
    if Text.isIdentifier name then some name else none

/-- The names that an export list makes visible. -/
def exportNames (list : Text) : List Text := (list.splitOn ',').filterMap exportName

end Binding
end ModuleGraph
