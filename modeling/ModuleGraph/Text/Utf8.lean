import ModuleGraph.Text.Basic

/-! UTF-8. Bytes are cut into characters and stray bytes; a stray piece is the longest beginning
of some character's bytes that the next byte, or the end, contradicts.

Three readings of the pieces: `decode?` refuses strays, `decodeReplacing` writes U+FFFD for each
stray piece, and `decodeKeeping` keeps every stray byte as a stand-in character, so that
`encodeKeeping` gives the bytes back. The stand-ins are the last 128 private-use characters; a
character of that block that occurs in the input is kept byte by byte as well. -/

namespace ModuleGraph

/-- The contents of a file. -/
abbrev Bytes := List UInt8

namespace Utf8

/-- What bytes are cut into. -/
inductive Piece
  | char (c : Char)
  | stray (bytes : Bytes)
  deriving Repr, DecidableEq

/-- A character under way: the bytes read of it, the number still owed, the bounds of the next
one, and the bits collected so far. -/
structure Partial where
  held : Bytes
  owed : Nat
  low : UInt8
  high : UInt8
  bits : Nat
  deriving Repr, DecidableEq

/-- The state of the cutting: the pieces so far, last first, and the character under way. -/
structure State where
  pieces : List Piece
  open? : Option Partial
  deriving Repr, DecidableEq

/-- A byte at which no character is under way. -/
def first (b : UInt8) : Piece ⊕ Partial :=
  let n := b.toNat
  if b < 0x80 then .inl (.char (Char.ofNat n))
  else if 0xC2 ≤ b ∧ b ≤ 0xDF then .inr ⟨[b], 1, 0x80, 0xBF, n - 0xC0⟩
  else if b = 0xE0 then .inr ⟨[b], 2, 0xA0, 0xBF, 0⟩
  else if b = 0xED then .inr ⟨[b], 2, 0x80, 0x9F, 0xD⟩
  else if 0xE1 ≤ b ∧ b ≤ 0xEF then .inr ⟨[b], 2, 0x80, 0xBF, n - 0xE0⟩
  else if b = 0xF0 then .inr ⟨[b], 3, 0x90, 0xBF, 0⟩
  else if 0xF1 ≤ b ∧ b ≤ 0xF3 then .inr ⟨[b], 3, 0x80, 0xBF, n - 0xF0⟩
  else if b = 0xF4 then .inr ⟨[b], 3, 0x80, 0x8F, 4⟩
  else .inl (.stray [b])

/-- A byte after complete pieces. -/
def openAt (pieces : List Piece) (b : UInt8) : State :=
  match first b with
  | .inl piece => ⟨piece :: pieces, none⟩
  | .inr p => ⟨pieces, some p⟩

/-- One byte on. A byte that cannot continue the character under way turns it into a stray piece
and is looked at afresh. -/
def step (s : State) (b : UInt8) : State :=
  match s.open? with
  | none => openAt s.pieces b
  | some p =>
    if p.low ≤ b ∧ b ≤ p.high then
      let bits := p.bits * 64 + (b.toNat - 0x80)
      if p.owed = 1 then ⟨.char (Char.ofNat bits) :: s.pieces, none⟩
      else ⟨s.pieces, some ⟨p.held ++ [b], p.owed - 1, 0x80, 0xBF, bits⟩⟩
    else openAt (.stray p.held :: s.pieces) b

/-- All pieces, in order. -/
def pieces (bytes : Bytes) : List Piece :=
  let s := bytes.foldl step ⟨[], none⟩
  match s.open? with
  | none => s.pieces.reverse
  | some p => (.stray p.held :: s.pieces).reverse

/-- The text of the bytes, if they are UTF-8 throughout. -/
def decode? (bytes : Bytes) : Option Text :=
  (pieces bytes).mapM fun
    | .char c => some c
    | .stray _ => none

/-- The text of the bytes, with U+FFFD in the place of each stray piece. -/
def decodeReplacing (bytes : Bytes) : Text :=
  (pieces bytes).map fun
    | .char c => c
    | .stray _ => '\uFFFD'

/-- The code point of the stand-in for the byte zero; only bytes from 128 on are ever stray. -/
def standInBase : Nat := 0x10FF00

/-- The character that stands for a stray byte. -/
def standIn (b : UInt8) : Char := Char.ofNat (standInBase + b.toNat)

/-- Does the character stand for a stray byte? -/
def isStandIn (c : Char) : Bool := standInBase + 0x80 ≤ c.toNat

/-- The text of the bytes, each stray byte kept as its stand-in. -/
def decodeKeeping (bytes : Bytes) : Text :=
  (pieces bytes).flatMap fun
    | .char c => if isStandIn c then (String.utf8EncodeChar c).map standIn else [c]
    | .stray bs => bs.map standIn

/-- The bytes of a text. -/
def encode (t : Text) : Bytes := t.flatMap String.utf8EncodeChar

/-- The bytes of a text that may hold stand-ins. -/
def encodeKeeping (t : Text) : Bytes :=
  t.flatMap fun c =>
    if isStandIn c then [UInt8.ofNat (c.toNat - standInBase)] else String.utf8EncodeChar c

/-- Is the text, once its stand-ins are bytes again, UTF-8? -/
def isClean (t : Text) : Bool := (decode? (encodeKeeping t)).isSome

end Utf8
end ModuleGraph
