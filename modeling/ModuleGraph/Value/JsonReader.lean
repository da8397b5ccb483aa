import ModuleGraph.Value.Basic

/-! Reading JSON texts. Besides the standard, the names `NaN`, `Infinity` and `-Infinity` are
numbers. A key that is written twice has its last value at its first place. -/

namespace ModuleGraph
namespace Json

def isSpace (c : Char) : Bool := c == ' ' || c == '\t' || c == '\n' || c == '\r'

def skipSpaces (t : Text) : Text := t.dropWhile isSpace

def hexValue (c : Char) : Option Nat :=
  if c.isDigit then some (c.toNat - 48)
  else if 'a' ≤ c ∧ c ≤ 'f' then some (c.toNat - 87)
  else if 'A' ≤ c ∧ c ≤ 'F' then some (c.toNat - 55)
  else none

/-- The code unit written with four hexadecimal digits. -/
def unit? (a b c d : Char) : Option Nat := do
  let a ← hexValue a
  let b ← hexValue b
  let c ← hexValue c
  let d ← hexValue d
  some (((a * 16 + b) * 16 + c) * 16 + d)

/-- The character that a one-letter escape stands for. -/
def escaped? (c : Char) : Option Char :=
  match c with
  | '"' => some '"'
  | '\\' => some '\\'
  | '/' => some '/'
  | 'b' => some '\x08'
  | 'f' => some '\x0c'
  | 'n' => some '\n'
  | 'r' => some '\r'
  | 't' => some '\t'
  | _ => none

/-- The character of two surrogates, the first from the upper half of their range. -/
def paired? (high low : Nat) : Option Char :=
  if 0xD800 ≤ high ∧ high < 0xDC00 ∧ 0xDC00 ≤ low ∧ low < 0xE000 then
    some (Char.ofNat (0x10000 + (high - 0xD800) * 0x400 + (low - 0xDC00)))
  else none

/-- The character of a code unit of its own; a lone surrogate is no character. -/
def single (n : Nat) : Char := if 0xD800 ≤ n ∧ n < 0xE000 then '\uFFFD' else Char.ofNat n

/-- The rest of a string up to its closing quote; `done` is what was read, last first. -/
def stringBody (done : Text) : Text → Option (Text × Text)
  | [] => none
  | '"' :: rest => some (done.reverse, rest)
  | '\\' :: 'u' :: a :: b :: c :: d :: rest =>
    match unit? a b c d with
    | none => none
    | some high =>
      match rest with
      | '\\' :: 'u' :: e :: f :: g :: h :: rest' =>
        match (unit? e f g h).bind (paired? high) with
        | some x => stringBody (x :: done) rest'
        | none => stringBody (single high :: done) ('\\' :: 'u' :: e :: f :: g :: h :: rest')
      | rest => stringBody (single high :: done) rest
  | '\\' :: c :: rest =>
    match escaped? c with
    | some x => stringBody (x :: done) rest
    | none => none
  | c :: rest => if c.toNat < 0x20 then none else stringBody (c :: done) rest
termination_by t => t.length
decreasing_by all_goals simp_all <;> omega

/-- The number written with decimal digits. -/
def digitsValue (digits : Text) : Nat := digits.foldl (fun n c => n * 10 + (c.toNat - 48)) 0

/-- A run of digits and what follows it. -/
def digitRun (t : Text) : Text × Text := (t.takeWhile Char.isDigit, t.dropWhile Char.isDigit)

/-- The digits after a point, if a point and at least one digit follow. -/
def fraction? (t : Text) : Option (Text × Text) :=
  match t with
  | '.' :: rest =>
    let (digits, rest) := digitRun rest
    if digits.isEmpty then none else some (digits, rest)
  | _ => none

/-- The power of ten after an `e`, if a sign or none and at least one digit follow. -/
def exponent? (t : Text) : Option (Int × Text) :=
  match t with
  | [] => none
  | e :: rest =>
    if e == 'e' || e == 'E' then
      let (negative, rest) := match rest with
        | '-' :: rest => (true, rest)
        | '+' :: rest => (false, rest)
        | rest => (false, rest)
      let (digits, rest) := digitRun rest
      if digits.isEmpty then none
      else
        let n : Int := digitsValue digits
        some (if negative then -n else n, rest)
    else none

/-- A number: whole if it has neither a fraction nor a power of ten. -/
def readNumber (t : Text) : Option (Value × Text) :=
  let (negative, t) := match t with
    | '-' :: rest => (true, rest)
    | t => (false, t)
  let (digits, rest) := digitRun t
  match digits with
  | [] => none
  | first :: more =>
    let (digits, rest) := if first = '0' then (['0'], more ++ rest) else (digits, rest)
    let (frac, rest, isFloat) := match fraction? rest with
      | some (f, rest) => (f, rest, true)
      | none => ([], rest, false)
    let (exp, rest, isFloat) := match exponent? rest with
      | some (e, rest) => (e, rest, true)
      | none => (0, rest, isFloat)
    if isFloat then
      some (.float (Binary64.ofDecimal negative (digitsValue (digits ++ frac))
        (exp - frac.length)), rest)
    else
      let n : Int := digitsValue digits
      some (.int (if negative then -n else n), rest)

/-- The values that are written as names. -/
def names : List (Text × Value) := [
  ("null", .null), ("true", .bool true), ("false", .bool false), ("NaN", .float .nan),
  ("Infinity", .float (.infinite false)), ("-Infinity", .float (.infinite true))]

/-- A string, a number or a name. -/
def readScalar (t : Text) : Option (Value × Text) :=
  match t with
  | '"' :: rest => (stringBody [] rest).map fun (s, rest) => (.text s, rest)
  | t =>
    (names.findSome? fun (name, v) => (Text.after? name t).map (v, ·)).orElse
      fun _ => readNumber t

mutual

/-- A value; `fuel` bounds the steps and is never used up when it exceeds the text's length. -/
def readValue : (fuel : Nat) → Text → Option (Value × Text)
  | 0, _ => none
  | fuel + 1, t =>
    match skipSpaces t with
    | '[' :: rest =>
      match skipSpaces rest with
      | ']' :: rest => some (.array [], rest)
      | rest => readItems fuel [] rest
    | '{' :: rest =>
      match skipSpaces rest with
      | '}' :: rest => some (.table [], rest)
      | rest => readEntries fuel [] rest
    | t => readScalar t

/-- The items of an array from the next one on; `done` are those before it, last first. -/
def readItems : (fuel : Nat) → List Value → Text → Option (Value × Text)
  | 0, _, _ => none
  | fuel + 1, done, t =>
    match readValue fuel t with
    | none => none
    | some (v, rest) =>
      match skipSpaces rest with
      | ',' :: rest => readItems fuel (v :: done) rest
      | ']' :: rest => some (.array (v :: done).reverse, rest)
      | _ => none

/-- The entries of an object from the next key on. -/
def readEntries : (fuel : Nat) → Entries Value → Text → Option (Value × Text)
  | 0, _, _ => none
  | fuel + 1, done, t =>
    match skipSpaces t with
    | '"' :: rest =>
      match stringBody [] rest with
      | none => none
      | some (key, rest) =>
        match skipSpaces rest with
        | ':' :: rest =>
          match readValue fuel rest with
          | none => none
          | some (v, rest) =>
            match skipSpaces rest with
            | ',' :: rest => readEntries fuel (done.put key v) rest
            | '}' :: rest => some (.table (done.put key v), rest)
            | _ => none
        | _ => none
    | _ => none

end

/-- The value that a whole text stands for. -/
def read (t : Text) : Option Value :=
  match readValue (t.length + 1) t with
  | some (v, rest) => if (skipSpaces rest).isEmpty then some v else none
  | none => none

end Json
end ModuleGraph
