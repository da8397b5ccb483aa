import ModuleGraph.Value.Basic
import ModuleGraph.Text.Printable

/-! Values as they are shown to a reader: a text alone is shown as it is, a text inside a list or
a table in quotes. -/

namespace ModuleGraph

/-- The digits of `n` to the base sixteen, filled up with zeros to a given width. -/
def hexDigits (width n : Nat) : Text :=
  let digits := Nat.toDigits 16 n
  List.replicate (width - digits.length) '0' ++ digits

namespace Value

/-- One character inside quotes. Hidden characters are written by number. -/
def quoteChar (quote c : Char) : Text :=
  if c = quote || c = '\\' then ['\\', c]
  else if c = '\n' then ['\\', 'n']
  else if c = '\r' then ['\\', 'r']
  else if c = '\t' then ['\\', 't']
  else if Text.isPrintable c then [c]
  else if c.toNat < 0x100 then '\\' :: 'x' :: hexDigits 2 c.toNat
  else if c.toNat < 0x10000 then '\\' :: 'u' :: hexDigits 4 c.toNat
  else '\\' :: 'U' :: hexDigits 8 c.toNat

/-- A text in quotes: single ones, unless only those occur in the text. -/
def quoteText (t : Text) : Text :=
  let quote := if '\'' ∈ t ∧ '"' ∉ t then '"' else '\''
  quote :: t.flatMap (quoteChar quote) ++ [quote]

/-- The ISO text of a moment with a blank between date and time. -/
def momentText (iso : Text) : Text := iso.map fun c => if c = 'T' then ' ' else c

mutual

/-- A value inside another one. -/
def shownInside : Value → Text
  | .null => "None"
  | .bool b => if b then "True" else "False"
  | .int n => Text.ofInt n
  | .float x => x.text
  | .text t => quoteText t
  | .moment iso => momentText iso
  | .array items => '[' :: Text.join ", " (shownItems items) ++ [']']
  | .table entries => '{' :: Text.join ", " (shownEntries entries) ++ ['}']

def shownItems : List Value → List Text
  | [] => []
  | v :: rest => shownInside v :: shownItems rest

def shownEntries : List (Text × Value) → List Text
  | [] => []
  | (k, v) :: rest => (quoteText k ++ ": " ++ shownInside v) :: shownEntries rest

end

/-- A value on its own. -/
def shown : Value → Text
  | .text t => t
  | v => shownInside v

end Value
end ModuleGraph
