import ModuleGraph.Text.Word
import ModuleGraph.Value.TomlScalar

/-! Reading TOML texts. A key may be written once; the items of a list are of one kind; a table
is opened once, unless it came about as part of the name of another one. -/

namespace ModuleGraph
namespace Toml

def isGap (c : Char) : Bool := c == ' ' || c == '\t'

def skipGaps (t : Text) : Text := t.dropWhile isGap

/-- Past blanks, line ends and comments. -/
def skipFiller (inComment : Bool) : Text → Text
  | [] => []
  | c :: rest =>
    if inComment then skipFiller (c != '\n') rest
    else if c = '#' then skipFiller true rest
    else if isGap c || c = '\n' then skipFiller false rest
    else c :: rest

/-- The rest after the end of a line, before which only a comment may stand. -/
def lineEnd? (t : Text) : Option Text :=
  match skipGaps t with
  | [] => some []
  | '\n' :: rest => some rest
  | '#' :: rest => some ((rest.dropWhile (· != '\n')).drop 1)
  | _ => none

/-- A character of a key without quotes, from the second on. -/
def isKeyChar (c : Char) : Bool := Text.isWord c || c == '-'

/-- A character that a key without quotes does not begin with. -/
def isMark (c : Char) : Bool := c == '=' || c == '[' || c == '#' || c == '\n' || c == '.'

/-- One part of a key: in quotes, or up to the first character that no key has. -/
def keyPart? (t : Text) : Option (Text × Text) :=
  match t with
  | [] => none
  | c :: rest =>
    if c = '"' ∨ c = '\'' then
      let part := rest.takeWhile fun d => d != c && d != '\n'
      (Text.after? [c] (rest.drop part.length)).map (part, ·)
    else if isMark c then none
    else
      let part := rest.takeWhile isKeyChar
      some (c :: part, rest.drop part.length)

/-- The parts of a key with points between them. -/
def key? : (fuel : Nat) → Text → Option (List Text × Text)
  | 0, _ => none
  | fuel + 1, t =>
    match keyPart? t with
    | none => none
    | some (part, rest) =>
      match skipGaps rest with
      | '.' :: more =>
        (key? fuel (skipGaps more)).map fun (parts, rest) => (part :: parts, rest)
      | rest => some ([part], rest)

/-- The kinds of values that a list keeps apart. -/
def kindOf : Value → Nat
  | .null => 0
  | .bool _ => 1
  | .int _ => 2
  | .float _ => 3
  | .text _ => 4
  | .moment iso => if fits timePattern iso then 5 else 6
  | .array _ => 7
  | .table _ => 8

/-- Are all items of one kind? -/
def alike : List Value → Bool
  | [] => true
  | v :: rest => rest.all fun w => kindOf w == kindOf v

/-- A value put below the tables of a path, the missing ones made. Of a list of tables the last
one counts. `none` if something that is no table stands in the way or the key is there. -/
def insert? (path : List Text) (key : Text) (v : Value) (es : Entries Value) :
    Option (Entries Value) :=
  match path with
  | [] => if (Entries.get? key es).isSome then none else some (Entries.put key v es)
  | name :: rest =>
    match Entries.get? name es with
    | none => (insert? rest key v []).map fun sub => Entries.put name (.table sub) es
    | some (.table sub) =>
      (insert? rest key v sub).map fun sub => Entries.put name (.table sub) es
    | some (.array items) =>
      match items.getLast? with
      | some (.table sub) =>
        (insert? rest key v sub).map fun sub =>
          Entries.put name (.array (items.dropLast ++ [.table sub])) es
      | _ => none
    | _ => none

/-- A bare value: up to a comma, a closing bracket, a comment or the end of the line. -/
def readBare (t : Text) : Option (Value × Text) :=
  let part := t.takeWhile fun c => !(c == ',' || c == ']' || c == '\x7d' || c == '#' || c == '\n')
  (bare? (Text.trim part)).map (·, t.drop part.length)

mutual

/-- A value; `fuel` bounds the steps and is never used up when it exceeds the text's length. -/
def readValue : (fuel : Nat) → Text → Option (Value × Text)
  | 0, _ => none
  | fuel + 1, t =>
    match t with
    | '[' :: rest => readItems fuel [] rest
    | '\x7b' :: rest =>
      match skipGaps rest with
      | '\x7d' :: rest => some (.table [], rest)
      | rest => readEntries fuel [] rest
    | '"' :: _ | '\'' :: _ => (readString t).map fun (s, rest) => (.text s, rest)
    | t => readBare t

/-- The items of a list from the next one on; `done` are those before it, last first. An item may
be missing. -/
def readItems : (fuel : Nat) → List Value → Text → Option (Value × Text)
  | 0, _, _ => none
  | fuel + 1, done, t =>
    match skipFiller false t with
    | ']' :: rest => if alike done.reverse then some (.array done.reverse, rest) else none
    | ',' :: rest => readItems fuel done rest
    | t =>
      match readValue fuel t with
      | none => none
      | some (v, rest) =>
        match skipFiller false rest with
        | ',' :: rest => readItems fuel (v :: done) rest
        | ']' :: rest => readItems fuel (v :: done) (']' :: rest)
        | _ => none

/-- The entries of a table on one line from the next key on. -/
def readEntries : (fuel : Nat) → Entries Value → Text → Option (Value × Text)
  | 0, _, _ => none
  | fuel + 1, done, t =>
    match key? (t.length + 1) (skipGaps t) with
    | none => none
    | some (parts, rest) =>
      match rest with
      | '=' :: rest =>
        match readValue fuel (skipGaps rest) with
        | none => none
        | some (v, rest) =>
          match insert? parts.dropLast (parts.getLast?.getD []) v done with
          | none => none
          | some done =>
            match skipGaps rest with
            | ',' :: rest => readEntries fuel done rest
            | '\x7d' :: rest => some (.table done, rest)
            | _ => none
      | _ => none

end

/-- A text being read: the entries so far, the table that is open, and the tables that only came
about as part of a name. -/
structure Progress where
  entries : Entries Value := []
  path : List Text := []
  implied : List (List Text) := []

namespace Progress

/-- What stands at a path, and whether the way there led through a list of tables. -/
def lookup (inList : Bool) : List Text → Entries Value → Option (Value × Bool)
  | [], _ => none
  | name :: rest, es =>
    match Entries.get? name es, rest with
    | some v, [] => some (v, inList)
    | some (.table sub), rest => lookup false rest sub
    | some (.array items), rest =>
      match items.getLast? with
      | some (.table sub) => lookup true rest sub
      | _ => none
    | _, _ => none

/-- The beginnings of a path that stand for nothing yet, the whole path left out. -/
def newBeginnings (es : Entries Value) (path : List Text) : List (List Text) :=
  ((List.range path.length).drop 1).map (path.take ·) |>.filter fun p =>
    (lookup false p es).isNone

/-- The table at `path` opened. -/
def openTable (p : Progress) (path : List Text) : Option Progress :=
  match lookup false path p.entries with
  | none =>
    (insert? path.dropLast (path.getLast?.getD []) (.table []) p.entries).map fun entries =>
      ⟨entries, path, newBeginnings p.entries path ++ p.implied⟩
  | some (.table _, inList) =>
    if inList then some { p with path }
    else if path ∈ p.implied then some { p with path, implied := p.implied.erase path }
    else none
  | some _ => none

/-- One more table added to a list of tables at the end of a path. -/
def appendTable (path : List Text) (es : Entries Value) : Option (Entries Value) :=
  match path with
  | [] => none
  | [name] =>
    match Entries.get? name es with
    | none => some (Entries.put name (.array [.table []]) es)
    | some (.array items) => some (Entries.put name (.array (items ++ [.table []])) es)
    | some _ => none
  | name :: rest =>
    match Entries.get? name es with
    | none => (appendTable rest []).map fun sub => Entries.put name (.table sub) es
    | some (.table sub) => (appendTable rest sub).map fun sub => Entries.put name (.table sub) es
    | some (.array items) =>
      match items.getLast? with
      | some (.table sub) =>
        (appendTable rest sub).map fun sub =>
          Entries.put name (.array (items.dropLast ++ [.table sub])) es
      | _ => none
    | some _ => none

/-- One more table of the list at `path` opened. -/
def openListed (p : Progress) (path : List Text) : Option Progress :=
  (appendTable path p.entries).map fun entries =>
    ⟨entries, path, newBeginnings p.entries path ++ p.implied⟩

/-- A key with its value in the open table. -/
def put (p : Progress) (parts : List Text) (v : Value) : Option Progress :=
  (insert? (p.path ++ parts.dropLast) (parts.getLast?.getD []) v p.entries).map fun entries =>
    { p with entries }

end Progress

/-- Is a part of a table's name well formed? Without quotes it has letters, digits, `_` and `-`. -/
def isGroupPart (quoted : Bool) (part : Text) : Bool :=
  !part.isEmpty && (quoted || part.all fun c => c.isAlphanum || c == '_' || c == '-')

/-- The name of a table: parts with points between them, blanks around each. -/
def groupName? : (fuel : Nat) → Text → Option (List Text × Text)
  | 0, _ => none
  | fuel + 1, t =>
    let t := skipGaps t
    let quoted := t.head? == some '"' || t.head? == some '\''
    match keyPart? t with
    | none => none
    | some (part, rest) =>
      if !isGroupPart quoted part then none
      else match skipGaps rest with
        | '.' :: more => (groupName? fuel more).map fun (parts, rest) => (part :: parts, rest)
        | rest => some ([part], rest)

/-- The line that opens a table, and what follows it. -/
def readHeader (p : Progress) (t : Text) : Option (Progress × Text) :=
  match t with
  | '[' :: '[' :: rest => do
    let (path, rest) ← groupName? (rest.length + 1) rest
    let rest ← Text.after? "]]" rest
    some (← p.openListed path, ← lineEnd? rest)
  | '[' :: rest => do
    let (path, rest) ← groupName? (rest.length + 1) rest
    let rest ← Text.after? "]" rest
    some (← p.openTable path, ← lineEnd? rest)
  | _ => none

/-- The line of a key and its value, and what follows it. -/
def readKeyLine (p : Progress) (t : Text) : Option (Progress × Text) := do
  let (parts, rest) ← key? (t.length + 1) t
  let rest ← Text.after? ['='] rest
  let rest := skipGaps rest
  let (v, rest) ← readValue (rest.length + 1) rest
  some (← p.put parts v, ← lineEnd? rest)

/-- All lines. -/
def readLines : (fuel : Nat) → Progress → Text → Option Progress
  | 0, _, _ => none
  | fuel + 1, p, t =>
    match skipFiller false t with
    | [] => some p
    | t =>
      match if t.head? == some '[' then readHeader p t else readKeyLine p t with
      | some (p, rest) => readLines fuel p rest
      | none => none

/-- Line ends of any sort as single characters. -/
def plainLines : Text → Text
  | '\r' :: '\n' :: rest => '\n' :: plainLines rest
  | '\r' :: rest => '\n' :: plainLines rest
  | c :: rest => c :: plainLines rest
  | [] => []

/-- The entries that a whole text stands for. -/
def read (t : Text) : Option (Entries Value) :=
  let t := plainLines t
  (readLines (t.length + 1) {} t).map (·.entries)

end Toml
end ModuleGraph
