import ModuleGraph.Fault
import ModuleGraph.Value.Shown

/-! JSON texts of values, on one line or indented, with characters beyond ASCII as they are or
escaped. A text that goes to a file is written chunk by chunk; there is none for a moment, and at
one the text breaks off. -/

namespace ModuleGraph
namespace Json

/-- The escape of a code point below 65536. -/
def unicodeEscape (n : Nat) : Text := '\\' :: 'u' :: hexDigits 4 n

/-- A character beyond the first 65536 is escaped as two surrogates. -/
def escapeWide (c : Char) : Text :=
  let n := c.toNat
  if n < 0x10000 then unicodeEscape n
  else
    let m := n - 0x10000
    unicodeEscape (0xD800 + m / 0x400) ++ unicodeEscape (0xDC00 + m % 0x400)

/-- One character of a string. -/
def escapeChar (ascii : Bool) (c : Char) : Text :=
  if c = '"' then ['\\', '"']
  else if c = '\\' then ['\\', '\\']
  else if c = '\n' then ['\\', 'n']
  else if c = '\r' then ['\\', 'r']
  else if c = '\t' then ['\\', 't']
  else if c = '\x08' then ['\\', 'b']
  else if c = '\x0c' then ['\\', 'f']
  else if c.toNat < 0x20 then unicodeEscape c.toNat
  else if ascii && 0x7F ≤ c.toNat then escapeWide c
  else [c]

/-- A string in quotes. -/
def string (ascii : Bool) (t : Text) : Text :=
  '"' :: t.flatMap (escapeChar ascii) ++ ['"']

/-- A number; those that JSON does not have are written as names. -/
def number : Binary64 → Text
  | .nan => "NaN"
  | .infinite s => if s then "-Infinity" else "Infinity"
  | x => x.text

/-- The layout of a text: the spaces per level, or none for a text on one line. -/
structure Layout where
  indent : Option Nat
  ascii : Bool
  deriving Repr

/-- Before an item at the given level. -/
def Layout.lineStart (l : Layout) (level : Nat) : Text :=
  match l.indent with
  | none => []
  | some n => '\n' :: List.replicate (n * level) ' '

/-- Between two items at the given level. -/
def Layout.separator (l : Layout) (level : Nat) : Text :=
  match l.indent with
  | none => [',', ' ']
  | some _ => ',' :: l.lineStart level

/-- Items between brackets; no items leave the brackets together. -/
def Layout.enclose (l : Layout) (level : Nat) (opening closing : Char) (items : List Text) :
    Text :=
  if items.isEmpty then [opening, closing]
  else
    opening :: l.lineStart (level + 1) ++ Text.join (l.separator (level + 1)) items ++
      l.lineStart level ++ [closing]

mutual

def writeAt (l : Layout) (level : Nat) : Value → Text
  | .null => "null"
  | .bool b => if b then "true" else "false"
  | .int n => Text.ofInt n
  | .float x => number x
  | .text t => string l.ascii t
  | .moment iso => string l.ascii iso
  | .array items => l.enclose level '[' ']' (writeItems l (level + 1) items)
  | .table entries => l.enclose level '{' '}' (writeEntries l (level + 1) entries)

def writeItems (l : Layout) (level : Nat) : List Value → List Text
  | [] => []
  | v :: rest => writeAt l level v :: writeItems l level rest

def writeEntries (l : Layout) (level : Nat) : List (Text × Value) → List Text
  | [] => []
  | (k, v) :: rest =>
    (string l.ascii k ++ [':', ' '] ++ writeAt l level v) :: writeEntries l level rest

end

/-- A value on one line, characters beyond ASCII as they are. -/
def line (v : Value) : Text := writeAt ⟨none, false⟩ 0 v

/-- A value on indented lines, characters beyond ASCII as they are. -/
def indented (v : Value) : Text := writeAt ⟨some 2, false⟩ 0 v

/-- A value on indented lines, in ASCII. -/
def indentedAscii (v : Value) : Text := writeAt ⟨some 2, true⟩ 0 v

/-- A part of a text, or the fault at which the text breaks off. -/
abbrev Chunk := Except Fault Text

/-- Items between brackets; no items leave the brackets together. -/
def Layout.encloseChunks (l : Layout) (level : Nat) (opening closing : Char)
    (items : List (List Chunk)) : List Chunk :=
  if items.isEmpty then [.ok [opening, closing]]
  else
    .ok (opening :: l.lineStart (level + 1)) ::
      ([.ok (l.separator (level + 1))] : List Chunk).intercalate items ++
        [.ok (l.lineStart level ++ [closing])]

mutual

def chunksAt (l : Layout) (level : Nat) : Value → List Chunk
  | .moment _ => [.error .wrongType]
  | .array items => l.encloseChunks level '[' ']' (chunkItems l (level + 1) items)
  | .table entries => l.encloseChunks level '{' '}' (chunkEntries l (level + 1) entries)
  | v => [.ok (writeAt l level v)]

def chunkItems (l : Layout) (level : Nat) : List Value → List (List Chunk)
  | [] => []
  | v :: rest => chunksAt l level v :: chunkItems l level rest

def chunkEntries (l : Layout) (level : Nat) : List (Text × Value) → List (List Chunk)
  | [] => []
  | (k, v) :: rest =>
    (.ok (string l.ascii k) :: .ok [':', ' '] :: chunksAt l level v) :: chunkEntries l level rest

end

/-- A value on indented lines, characters beyond ASCII as they are. -/
def indentedChunks (v : Value) : List Chunk := chunksAt ⟨some 2, false⟩ 0 v

end Json
end ModuleGraph
