import ModuleGraph.Text.Word
import ModuleGraph.Text.Blank

/-! A place in a text, the steps that recognise something there, and the search for all places
where a recogniser succeeds. A recogniser only goes forward: a run of characters is taken whole,
which loses nothing as long as what follows the run cannot begin with a character of the run. -/

namespace ModuleGraph

/-- A place in a text: the number of characters before it, the last of them, and those after. -/
structure Cursor where
  offset : Nat
  before : Option Char
  rest : Text
  deriving Repr, DecidableEq

namespace Cursor

/-- The beginning of a text. -/
def start (t : Text) : Cursor := ⟨0, none, t⟩

/-- One character on; at the end of the text nothing moves. -/
def next (c : Cursor) : Cursor :=
  match c.rest with
  | [] => c
  | x :: rest => ⟨c.offset + 1, some x, rest⟩

/-- Past the run of `p` at the beginning of the text that follows a given place. -/
def skipFrom (p : Char → Bool) (offset : Nat) (before : Option Char) : Text → Cursor
  | [] => ⟨offset, before, []⟩
  | x :: rest => if p x then skipFrom p (offset + 1) (some x) rest else ⟨offset, before, x :: rest⟩

/-- Past the run of `p` that starts here, which may be empty. -/
def skip (p : Char → Bool) (c : Cursor) : Cursor := skipFrom p c.offset c.before c.rest

/-- Past the run of `p` that starts here, which may not be empty. -/
def skip1 (p : Char → Bool) (c : Cursor) : Option Cursor :=
  match c.rest with
  | [] => none
  | x :: _ => if p x then some (c.skip p) else none

/-- Past one character, which has to be `x`. -/
def char (x : Char) (c : Cursor) : Option Cursor :=
  match c.rest with
  | [] => none
  | y :: rest => if y = x then some ⟨c.offset + 1, some y, rest⟩ else none

/-- Past the characters of `w`. -/
def literal : Text → Cursor → Option Cursor
  | [], c => some c
  | x :: w, c => (c.char x).bind (literal w)

/-- Past any blanks. -/
def blanks (c : Cursor) : Cursor := c.skip Text.isBlank

/-- Past at least one blank. -/
def blanks1 (c : Cursor) : Option Cursor := c.skip1 Text.isBlank

/-- Does the character before this place belong to a word? -/
def insideWord (c : Cursor) : Bool := c.before.any Text.isWord

/-- Past the word `w`, which has to begin here and not further left. -/
def word (w : Text) (c : Cursor) : Option Cursor :=
  if c.insideWord then none else c.literal w

/-- Past the identifier that starts here. -/
def name (c : Cursor) : Option Cursor := c.skip1 Text.isName

/-- The text between two places of one text. -/
def upTo (c stop : Cursor) : Text := c.rest.take (stop.offset - c.offset)

/-- A character that starts or ends a quoted text. -/
def isQuote (x : Char) : Bool := x == '\'' || x == '"'

/-- A character that may stand inside a quoted text. -/
def isQuotable (x : Char) : Bool := !isQuote x && x != '\n'

/-- A quoted text: where its inside starts, the inside, the quote used, and where it stops. -/
structure Quoted where
  inside : Cursor
  text : Text
  quote : Char
  stop : Cursor
  deriving Repr, DecidableEq

/-- The quoted text that starts here: a quote, at least one character that is neither a quote nor
a line end, and the same quote again. -/
def quoted (c : Cursor) : Option Quoted :=
  match c.rest with
  | [] => none
  | q :: _ =>
    if isQuote q then
      let inside := c.next
      let close := inside.skip isQuotable
      if close.offset = inside.offset then none
      else (close.char q).map fun stop => ⟨inside, inside.upTo close, q, stop⟩
    else none

/-- The finds from the place `offset` on, left to right; none begins before `resume`. -/
def findFrom {α : Type} (recognise : Cursor → Option α) (stop : α → Nat) (resume offset : Nat)
    (before : Option Char) : Text → List α
  | [] => []
  | x :: rest =>
    if offset < resume then findFrom recognise stop resume (offset + 1) (some x) rest
    else match recognise ⟨offset, before, x :: rest⟩ with
      | none => findFrom recognise stop resume (offset + 1) (some x) rest
      | some a => a :: findFrom recognise stop (stop a) (offset + 1) (some x) rest

/-- Everything that `recognise` finds in a text, left to right; each search goes on where the
last find stops, so the finds do not overlap. -/
def findAll {α : Type} (recognise : Cursor → Option α) (stop : α → Nat) (t : Text) : List α :=
  findFrom recognise stop 0 0 none t

end Cursor

namespace Text

/-- The text after the last of the separators that `recognise` finds. -/
def afterLast (recognise : Cursor → Option Cursor) (t : Text) : Text :=
  match (Cursor.findAll recognise Cursor.offset t).getLast? with
  | none => t
  | some stop => stop.rest

end Text
end ModuleGraph
