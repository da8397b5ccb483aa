import ModuleGraph.Text.Basic

/-! What is shown on a screen: lines, panels and tables of marked-up text. A tag is a bracketed
word that changes the style; `escape` writes a text so that nothing in it is a tag. -/

namespace ModuleGraph

/-- A column of a table. -/
structure Column where
  header : Text
  style : Option Text := none
  right : Bool := false
  deriving Repr, DecidableEq

/-- One thing shown. -/
inductive Row
  | line (markup : Text)
  | panel (markup title border : Text)
  | table (title : Text) (columns : List Column) (rows : List (List Text))
  deriving Repr, DecidableEq

namespace Screen

/-- Can a tag begin with this character? -/
def isTagStart (c : Char) : Bool :=
  ('a' ≤ c && c ≤ 'z') || c == '#' || c == '/' || c == '@'

/-- Does a tag end before another bracket opens? -/
def closes (t : Text) : Bool := (t.dropWhile fun c => c != '[' && c != ']').head? == some ']'

/-- Does the text after an opening bracket make a tag of it? -/
def isTag : Text → Bool
  | [] => false
  | c :: rest => isTagStart c && closes rest

/-- The text with every tag escaped; `n` backslashes stand right before it. The backslashes before
a tag are doubled and one more is added. -/
def escapeAfter (n : Nat) : Text → Text
  | [] => []
  | c :: rest =>
    if c = '\\' then c :: escapeAfter (n + 1) rest
    else if c = '[' && isTag rest then List.replicate (n + 1) '\\' ++ c :: escapeAfter 0 rest
    else c :: escapeAfter 0 rest

/-- A text that ends in a single backslash gets another one. -/
def closeBackslash (t : Text) : Text :=
  if t.endsWith ['\\'] && !t.endsWith ['\\', '\\'] then t ++ ['\\'] else t

/-- A text written so that nothing in it is a tag. -/
def escape (t : Text) : Text := closeBackslash (escapeAfter 0 t)

/-- A marked-up text as it is read: without its tags, and what was escaped as it was. -/
def plainText (inTag : Bool) : Text → Text
  | [] => []
  | '\\' :: '[' :: rest => '[' :: plainText false rest
  | c :: rest =>
    if inTag then plainText (c != ']') rest
    else if c = '[' && isTag rest then plainText true rest
    else c :: plainText false rest

/-- A table of plain texts, the first column in another style. -/
def table (title : Text) (columns : List Text) (rows : List (List Text)) : Row :=
  .table title
    (columns.mapIdx fun i header => { header, style := if i = 0 then some "cyan" else none })
    (rows.map fun cells => cells.map escape)

/-- A table, unless it has no rows. -/
def tableIfAny (title : Text) (columns : List Text) (rows : List (List Text)) : List Row :=
  if rows.isEmpty then [] else [table title columns rows]

/-- A row as lines without styles. -/
def plainRow : Row → Text
  | .line markup => plainText false markup
  | .panel markup title _ => plainText false title ++ '\n' :: plainText false markup
  | .table title columns rows =>
    let line := fun cells => Text.join [' ', ' '] (cells.map (plainText false))
    Text.join ['\n'] (plainText false title :: line (columns.map (·.header)) :: rows.map line)

end Screen
end ModuleGraph
