import ModuleGraph.Source.Binding

/-! The statement forms that are recognised in a source, each as a step from the place where the
statement starts. Only the shape of the text counts: a statement in a comment or a string is
recognised like any other. -/

namespace ModuleGraph
namespace Statement

open Cursor

def importWord : Text := ['i', 'm', 'p', 'o', 'r', 't']

def requireWord : Text := ['r', 'e', 'q', 'u', 'i', 'r', 'e']

def exportWord : Text := ['e', 'x', 'p', 'o', 'r', 't']

def defaultWord : Text := ['d', 'e', 'f', 'a', 'u', 'l', 't']

/-- The words that open a variable declaration. -/
def variableWords : List Text := [['c', 'o', 'n', 's', 't'], ['l', 'e', 't'], ['v', 'a', 'r']]

/-- The words, besides `function`, after which the name of a declaration follows. -/
def declarationWords : List Text := variableWords ++ [
  ['c', 'l', 'a', 's', 's'], ['i', 'n', 't', 'e', 'r', 'f', 'a', 'c', 'e'], Binding.typeWord,
  ['e', 'n', 'u', 'm']]

/-- The words that may stand, in this order, between `export` and a declaration. -/
def modifierWords : List Text := [
  ['d', 'e', 'c', 'l', 'a', 'r', 'e'], ['a', 's', 'y', 'n', 'c'],
  ['a', 'b', 's', 't', 'r', 'a', 'c', 't']]

def functionWord : Text := ['f', 'u', 'n', 'c', 't', 'i', 'o', 'n']

/-- Past the word `w` and the blanks after it. -/
def wordGap (w : Text) (c : Cursor) : Option Cursor := (c.literal w).bind blanks1

/-- Past the word `w` and the blanks after it, or nowhere. -/
def maybeGap (w : Text) (c : Cursor) : Cursor := (wordGap w c).getD c

/-- Past a pair of braces and the text between them. -/
def braces (c : Cursor) : Option Cursor :=
  (c.char '{').bind fun c => (c.skip (· != '}')).char '}'

/-- Past `* as name`. -/
def namespaceAs (c : Cursor) : Option Cursor :=
  (c.char '*').bind fun c => (wordGap Binding.asWord c.blanks).bind name

/-- Past a list in braces, a namespace or a name. -/
def bound (c : Cursor) : Option Cursor :=
  (braces c).orElse fun _ => (namespaceAs c).orElse fun _ => c.name

/-- Past what an import binds and the word `from` after it. -/
def clauseEnd (c : Cursor) : Option Cursor :=
  (bound c).bind fun c => c.blanks1.bind fun c => (c.literal Binding.fromWord).map blanks

/-- Past an import clause: a default name before another part, or one part alone. -/
def clause (c : Cursor) : Option Cursor :=
  (c.name.bind fun c => (c.blanks.char ',').bind fun c => clauseEnd c.blanks).orElse
    fun _ => clauseEnd c

/-- An import as found: the text that binds names, the quoted specifier, and the end. -/
structure Found where
  binding : Option Text
  quoted : Quoted
  stop : Cursor
  deriving Repr

/-- A clause, if there is one, and the specifier. -/
def staticTail (c : Cursor) : Option Found :=
  ((clause c).bind fun e => e.quoted.map fun q => ⟨some (c.upTo e), q, q.stop⟩).orElse
    fun _ => c.quoted.map fun q => ⟨none, q, q.stop⟩

/-- `import 'x'`, `import a from 'x'` and the like, with or without `type`. -/
def staticImport (c : Cursor) : Option Found :=
  ((c.word importWord).bind blanks1).bind fun c =>
    ((wordGap Binding.typeWord c).bind staticTail).orElse fun _ => staticTail c

/-- Past the call brackets around a quoted specifier. -/
def call (c : Cursor) : Option Found :=
  (c.blanks.char '(').bind fun c => c.blanks.quoted.bind fun q =>
    (q.stop.blanks.char ')').map fun stop => ⟨none, q, stop⟩

/-- `import('x')`. -/
def dynamicImport (c : Cursor) : Option Found := (c.word importWord).bind call

/-- `require('x')` without what it is bound to. -/
def requireCall (c : Cursor) : Option Found := (c.word requireWord).bind call

/-- `const a = require('x')`, with `let` and `var`, and with a pattern in the place of `a`. -/
def boundRequire (c : Cursor) : Option Found :=
  if c.insideWord then none
  else (variableWords.findSome? fun w => wordGap w c).bind fun c =>
    (c.name.orElse fun _ => braces c).bind fun e =>
      (e.blanks.char '=').bind fun d =>
        (requireCall d.blanks).map fun f => { f with binding := some (c.upTo e) }

/-- A call of `require`, bound or not. -/
def requireImport (c : Cursor) : Option Found :=
  (boundRequire c).orElse fun _ => requireCall c

/-- Past `export` and the blanks after it. -/
def exportGap (c : Cursor) : Option Cursor := (c.word exportWord).bind blanks1

/-- Past `function`, an optional star and the blanks before the name. -/
def functionGap (c : Cursor) : Option Cursor :=
  (c.literal functionWord).bind fun c =>
    ((c.blanks.char '*').bind blanks1).orElse fun _ => c.blanks1

/-- An exported name as found: its place, the name, and the end. -/
structure Named where
  place : Cursor
  name : Text
  stop : Cursor
  deriving Repr

/-- The name in an exported declaration. -/
def exportDeclaration (c : Cursor) : Option Named :=
  (exportGap c).bind fun c =>
    let c := modifierWords.foldl (fun c w => maybeGap w c) c
    ((functionGap c).orElse fun _ => declarationWords.findSome? fun w => wordGap w c).bind
      fun c => c.name.map fun e => ⟨c, c.upTo e, e⟩

/-- The end of `export default`. -/
def exportDefault (c : Cursor) : Option (Cursor × Cursor) :=
  ((exportGap c).bind fun c => c.literal defaultWord).bind fun e =>
    if e.rest.head?.any Text.isWord then none else some (c, e)

/-- `from 'x'`. -/
def origin (c : Cursor) : Option Quoted :=
  (c.blanks.literal Binding.fromWord).bind fun c => c.blanks.quoted

/-- An export list as found: its place, the text in the braces, where the names come from, and
the end. -/
structure Listed where
  place : Cursor
  names : Text
  origin : Option Quoted
  stop : Cursor
  deriving Repr

/-- `export { a, b as c }`, with or without an origin. -/
def exportList (c : Cursor) : Option Listed :=
  (exportGap c).bind fun d =>
    ((maybeGap Binding.typeWord d).char '{').bind fun open' =>
      let close := open'.skip (· != '}')
      (close.char '}').map fun e =>
        match origin e with
        | some q => ⟨c, open'.upTo close, some q, q.stop⟩
        | none => ⟨c, open'.upTo close, none, e⟩

/-- Every place inside the run of `p` that starts here, its end first. -/
def runEnds (p : Char → Bool) (offset : Nat) : Text → List Cursor → List Cursor
  | [], ends => ends
  | x :: rest, ends =>
    if p x then runEnds p (offset + 1) rest (⟨offset + 1, some x, rest⟩ :: ends) else ends

/-- An export of all names as found: its place, the name they are put under, and the origin. -/
structure Starred where
  place : Cursor
  name : Option Text
  origin : Quoted
  deriving Repr

/-- `as name from 'x'`. The name ends where the word `from` can be read after it. -/
def starName (c : Cursor) : Option (Text × Quoted) :=
  (wordGap Binding.asWord c.blanks).bind fun c =>
    (runEnds Text.isName c.offset c.rest []).findSome? fun e =>
      (origin e).map fun q => (c.upTo e, q)

/-- `export * from 'x'` and `export * as name from 'x'`. -/
def exportStar (c : Cursor) : Option Starred :=
  (exportGap c).bind fun d => ((maybeGap Binding.typeWord d).char '*').bind fun e =>
    ((starName e).map fun (name, q) => ⟨c, some name, q⟩).orElse
      fun _ => (origin e).map fun q => ⟨c, none, q⟩

end Statement
end ModuleGraph
