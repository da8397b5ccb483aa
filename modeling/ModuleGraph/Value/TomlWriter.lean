import ModuleGraph.Value.Shown

/-! Writing TOML texts: first the plain values of a table, then the tables in it, those that lie
deeper after those that lie higher. What is null is left out. -/

namespace ModuleGraph
namespace Toml

/-- A character of a string with its escape. -/
def quotedChar (c : Char) : Text :=
  if c = '"' then ['\\', '"']
  else if c = '\'' then [c]
  else Value.quoteChar '"' c

/-- The pieces between the two characters that an escape by two digits begins with. -/
def cutEscapes : Text → List Text
  | [] => [[]]
  | '\\' :: 'x' :: rest => [] :: cutEscapes rest
  | c :: rest =>
    match cutEscapes rest with
    | piece :: pieces => (c :: piece) :: pieces
    | [] => [[c]]

/-- Two backslashes in a row become one. -/
def halveBackslashes : Text → Text
  | '\\' :: '\\' :: rest => '\\' :: halveBackslashes rest
  | c :: rest => c :: halveBackslashes rest
  | [] => []

/-- What comes between two pieces: the letter of the escape, or the beginning of one by four
digits, depending on the backslashes at the end of the first piece. -/
def joint (t : Text) : Text :=
  let run := (t.reverse.takeWhile (· == '\\')).length
  if run = 0 ∨ min run (t.length - 1) % 2 = 1 then ['x'] else ['u', '0', '0']

/-- Two pieces put together. Backslashes in the first one are halved. -/
def joinPieces (a b : Text) : Text := halveBackslashes a ++ joint (halveBackslashes a) ++ b

/-- The pieces put together again. An empty first piece is left out; there have to be two pieces
then, the first of them not empty. -/
def rejoin? : Text → List Text → Option Text
  | t, [] => some t
  | [], [_] => none
  | [], a :: b :: rest => if a.isEmpty then none else rejoin? (joinPieces a b) rest
  | t, b :: rest => rejoin? (joinPieces t b) rest

/-- A string in double quotes. A control character loses the backslash of its escape unless there
are backslashes before it; a text that begins with the only one cannot be written. -/
def quoted? (t : Text) : Option Text :=
  match cutEscapes (t.flatMap quotedChar) with
  | [] => none
  | first :: rest => (rejoin? first rest).map fun inside => '"' :: inside ++ ['"']

/-- A string that can be written. -/
def quoted (t : Text) : Text := (quoted? t).getD []

/-- Can a key stand without quotes? -/
def isPlainKey (t : Text) : Bool :=
  !t.isEmpty && t.all fun c => c.isAlphanum || c == '_' || c == '-'

def writtenKey (t : Text) : Text := if isPlainKey t then t else quoted t

/-- A text of a number without the zero in front of its power of ten. -/
def shortPower : Text → Text
  | 'e' :: '+' :: '0' :: rest => 'e' :: '+' :: rest
  | 'e' :: '-' :: '0' :: rest => 'e' :: '-' :: rest
  | c :: rest => c :: shortPower rest
  | [] => []

/-- A moment; universal time is written with a letter. -/
def moment (iso : Text) : Text :=
  let zone : Text := "+00:00"
  if iso.endsWith zone then iso.take (iso.length - zone.length) ++ ['Z'] else iso

mutual

/-- A value after its key, or in a list. -/
def inlineValue : Value → Text
  | .null => quoted "None"
  | .bool b => if b then "true" else "false"
  | .int n => Text.ofInt n
  | .float x => shortPower x.text
  | .text t => quoted t
  | .moment iso => moment iso
  | .array items => '[' :: inlineItems items ++ [']']
  | .table entries => '[' :: inlineKeys entries ++ [']']

def inlineItems : List Value → Text
  | [] => []
  | v :: rest => ' ' :: inlineValue v ++ ',' :: inlineItems rest

/-- A table in a list of something else is written as the list of its keys. -/
def inlineKeys : List (Text × Value) → Text
  | [] => []
  | (k, _) :: rest => ' ' :: quoted k ++ ',' :: inlineKeys rest

end

/-- Is a list written as tables of their own? -/
def isTableList (items : List Value) : Bool :=
  items.any fun
    | .table _ => true
    | _ => false

/-- The line of a plain value. -/
def plainLine (e : Text × Value) : Text :=
  match e.2 with
  | .null | .table _ => []
  | .array items =>
    if isTableList items then []
    else writtenKey e.1 ++ " = " ++ inlineValue (.array items) ++ ['\n']
  | v => writtenKey e.1 ++ " = " ++ inlineValue v ++ ['\n']

/-- The tables of a table, by their full names. -/
def innerTables (lead : Text) (es : Entries Value) : List (Text × Entries Value) :=
  es.filterMap fun (k, v) =>
    match v with
    | .table sub => some (lead ++ writtenKey k, sub)
    | _ => none

/-- The name of a table before the name of one in it. -/
def leadOf (name : Text) : Text := if name.isEmpty then [] else name ++ ['.']

/-- The line that opens a table. -/
def opened (name : Text) : Text := '[' :: name ++ [']', '\n']

/-- Tables and those in them, level by level; `depth` bounds the levels. -/
def levels (body : Text → Entries Value → Text) :
    (depth : Nat) → List (Text × Entries Value) → List (Text × Text)
  | 0, _ => []
  | depth + 1, tables =>
    let here := tables.filterMap fun (name, es) =>
      let t := body name es
      if t.isEmpty && !(innerTables [] es).isEmpty then none else some (name, t)
    here ++ if tables.isEmpty then [] else
      levels body depth (tables.flatMap fun (name, es) => innerTables (leadOf name) es)

mutual

/-- How deep lists and tables lie in one another. -/
def depth : Value → Nat
  | .array items => depthOfItems items + 1
  | .table entries => depthOfEntries entries + 1
  | _ => 0

def depthOfItems : List Value → Nat
  | [] => 0
  | v :: rest => max (depth v) (depthOfItems rest)

def depthOfEntries : List (Text × Value) → Nat
  | [] => 0
  | (_, v) :: rest => max (depth v) (depthOfEntries rest)

end

mutual

/-- What stands in a table of the given name: its plain values, then its lists of tables. `fuel`
is more than the depth of the table. -/
def body : (fuel : Nat) → Text → Entries Value → Text
  | 0, _, _ => []
  | fuel + 1, name, es =>
    es.flatMap plainLine ++ es.flatMap fun (k, v) =>
      match v with
      | .array items =>
        if isTableList items then listed fuel (leadOf name ++ writtenKey k) items else []
      | _ => []

/-- A list of tables, each below a line with the name. -/
def listed : (fuel : Nat) → Text → List Value → Text
  | 0, _, _ => []
  | fuel + 1, name, items =>
    items.flatMap fun v =>
      match v with
      | .table es =>
        let own := body fuel name es
        let inner := levels (body fuel) fuel (innerTables (leadOf name) es)
        opened ('[' :: name ++ [']']) ++
          (if own.head? == some '[' then '\n' :: own else own ++ ['\n']) ++
          inner.flatMap fun (name, t) => if t.isEmpty then [] else opened name ++ t
      | _ => []

end

/-- One more table after what is written already, an empty line between them. -/
def addTable (done : Text) (table : Text × Text) : Text :=
  let gap : Text := if done.isEmpty || done.endsWith ['\n', '\n'] then [] else ['\n']
  done ++ gap ++ opened table.1 ++ table.2

mutual

/-- Can every key and every text in a value be written? -/
def isWritable : Value → Bool
  | .text t => (quoted? t).isSome
  | .array items => allWritable items
  | .table entries => entriesWritable entries
  | _ => true

def allWritable : List Value → Bool
  | [] => true
  | v :: rest => isWritable v && allWritable rest

def entriesWritable : List (Text × Value) → Bool
  | [] => true
  | (k, v) :: rest => (isPlainKey k || (quoted? k).isSome) && isWritable v && entriesWritable rest

end

/-- The text of a table with everything in it, if all of it can be written. -/
def write? (es : Entries Value) : Option Text :=
  if entriesWritable es then
    let fuel := depth (.table es) + 1
    some ((levels (body fuel) fuel (innerTables [] es)).foldl addTable (body fuel [] es))
  else none

end Toml
end ModuleGraph
