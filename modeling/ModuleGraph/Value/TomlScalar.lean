import ModuleGraph.Text.Blank
import ModuleGraph.Value.JsonReader

/-! The single values of a TOML text: strings in one or three quotes, numbers, truth values, dates
and times. A basic string, in double quotes, has escapes; a literal one, in single quotes, has
none. -/

namespace ModuleGraph
namespace Toml

/-- The character that a one-letter escape stands for. -/
def escaped? (c : Char) : Option Char :=
  match c with
  | '"' => some '"'
  | '\\' => some '\\'
  | '0' => some '\x00'
  | 'b' => some '\x08'
  | 'f' => some '\x0c'
  | 'n' => some '\n'
  | 'r' => some '\r'
  | 't' => some '\t'
  | _ => none

/-- The number written with hexadecimal digits. -/
def hexNumber? (digits : Text) : Option Nat :=
  digits.foldlM (fun n c => (Json.hexValue c).map (n * 16 + ·)) 0

/-- The character of a code point that is one. -/
def scalar? (n : Nat) : Option Char := if n.isValidChar then some (Char.ofNat n) else none

/-- An escape after its backslash, and what follows it. -/
def escape? : Text → Option (Char × Text)
  | 'u' :: rest =>
    ((hexNumber? (rest.take 4)).bind scalar?).map (·, rest.drop 4)
  | 'U' :: rest =>
    ((hexNumber? (rest.take 8)).bind scalar?).map (·, rest.drop 8)
  | c :: rest => (escaped? c).map (·, rest)
  | [] => none

theorem escape?_length {t : Text} {c : Char} {rest : Text} (h : escape? t = some (c, rest)) :
    rest.length < t.length := by
  unfold escape? at h
  split at h
  · simp only [Option.map_eq_some_iff, Prod.mk.injEq] at h
    obtain ⟨_, _, _, rfl⟩ := h
    simp only [List.length_drop, List.length_cons]
    omega
  · simp only [Option.map_eq_some_iff, Prod.mk.injEq] at h
    obtain ⟨_, _, _, rfl⟩ := h
    simp only [List.length_drop, List.length_cons]
    omega
  · simp only [Option.map_eq_some_iff, Prod.mk.injEq] at h
    obtain ⟨_, _, _, rfl⟩ := h
    simp
  · cases h

/-- Where a string ends. -/
inductive Ending
  | quote (q : Char)
  | threeQuotes (q : Char)
  deriving Repr, DecidableEq

namespace Ending

/-- May the string hold line ends? -/
def isLong : Ending → Bool
  | .quote _ => false
  | .threeQuotes _ => true

/-- Does the string have escapes? -/
def hasEscapes : Ending → Bool
  | .quote q | .threeQuotes q => q == '"'

/-- What follows a string that ends here. -/
def after? (e : Ending) (t : Text) : Option Text :=
  match e with
  | .quote q => Text.after? [q] t
  | .threeQuotes q => Text.after? [q, q, q] t

end Ending

/-- A backslash at the end of a line takes the line end and the blanks after it away. -/
def continued? (t : Text) : Option Text :=
  match t.dropWhile fun c => c == ' ' || c == '\t' with
  | '\n' :: rest => some (rest.dropWhile Text.isBlank)
  | _ => none

theorem continued?_length {t rest : Text} (h : continued? t = some rest) :
    rest.length ≤ t.length := by
  unfold continued? at h
  split at h
  · next rest' heq =>
    have h₁ := (List.dropWhile_sublist (l := t) fun c => c == ' ' || c == '\t').length_le
    have h₂ := (List.dropWhile_sublist (l := rest') Text.isBlank).length_le
    rw [heq] at h₁
    cases h
    simp only [List.length_cons] at h₁
    omega
  · cases h

/-- The rest of a string up to its end; `done` is what was read, last first. -/
def stringBody (e : Ending) (done t : Text) : Option (Text × Text) :=
  match e.after? t with
  | some rest => some (done.reverse, rest)
  | none =>
    match t with
    | [] => none
    | c :: rest =>
      if c = '\n' ∧ !e.isLong then none
      else if c = '\\' ∧ e.hasEscapes then
        match _h : if e.isLong then continued? rest else none with
        | some rest' => stringBody e done rest'
        | none =>
          match _h : escape? rest with
          | some (x, rest') => stringBody e (x :: done) rest'
          | none => none
      else stringBody e (c :: done) rest
termination_by t.length
decreasing_by
  · have hle : rest'.length ≤ rest.length := by
      cases hl : e.isLong
      · simp [hl] at _h
      · exact continued?_length (by simpa [hl] using _h)
    simp only [List.length_cons]
    omega
  · have hlt := escape?_length _h
    simp only [List.length_cons]
    omega
  · simp

/-- A string. A line end right after three quotes does not belong to it. -/
def readString (t : Text) : Option (Text × Text) :=
  match t with
  | [] => none
  | q :: rest =>
    if q = '"' ∨ q = '\'' then
      match Text.after? [q, q] rest with
      | some rest =>
        let rest := match rest with
          | '\n' :: rest => rest
          | rest => rest
        stringBody (.threeQuotes q) [] rest
      | none => stringBody (.quote q) [] rest
    else none

/-- Digits with an underscore between two of them here and there. -/
def plainDigits? (allowed : Char → Bool) (t : Text) : Option Text :=
  let groups := t.splitOn '_'
  if groups.all fun g => !g.isEmpty && g.all allowed then some groups.flatten else none

/-- The base that a whole number is written to, after its zero and letter. -/
def base? : Text → Option (Nat × Text)
  | '0' :: 'x' :: rest => some (16, rest)
  | '0' :: 'o' :: rest => some (8, rest)
  | '0' :: 'b' :: rest => some (2, rest)
  | _ => none

/-- A whole number to the base two, eight or sixteen. -/
def basedNumber? (t : Text) : Option Nat := do
  let (base, digits) ← base? t
  let digits ← plainDigits? (fun c => (Json.hexValue c).any (· < base)) digits
  some (digits.foldl (fun n c => n * base + (Json.hexValue c).getD 0) 0)

/-- The sign of a number, and the number without it. -/
def signed : Text → Bool × Text
  | '-' :: rest => (true, rest)
  | '+' :: rest => (false, rest)
  | t => (false, t)

/-- A decimal number without its sign. A zero in front stands alone or before a point. -/
def decimalNumber? (negative : Bool) (t : Text) : Option Value := do
  let isMark := fun c => c == '.' || c == 'e' || c == 'E'
  let front := t.takeWhile (!isMark ·)
  let whole ← plainDigits? Char.isDigit front
  let rest := t.dropWhile (!isMark ·)
  if whole.length > 1 ∧ whole.head? = some '0' then none
  if rest.isEmpty then
    let n : Int := Json.digitsValue whole
    return .int (if negative then -n else n)
  let (frac, rest) ← match rest with
    | '.' :: rest => do
      let digits ← plainDigits? Char.isDigit (rest.takeWhile (!isMark ·))
      some (digits, rest.dropWhile (!isMark ·))
    | rest => some ([], rest)
  let exponent ← match rest with
    | [] => some 0
    | e :: rest =>
      if e = '.' then none
      else do
        let (minus, digits) := signed rest
        let digits ← plainDigits? Char.isDigit digits
        let n : Int := Json.digitsValue digits
        some (if minus then -n else n)
  return .float (Binary64.ofDecimal negative (Json.digitsValue (whole ++ frac))
    (exponent - frac.length))

/-- A number. -/
def number? (t : Text) : Option Value :=
  match basedNumber? t with
  | some n => some (.int n)
  | none =>
    let (negative, t) := signed t
    let lower := t.map Char.toLower
    if lower = "inf" then some (.float (.infinite negative))
    else if lower = "nan" then some (.float .nan)
    else decimalNumber? negative t

/-- Does a text have digits where a pattern has `0`, and is it equal to it elsewhere? -/
def fits : (pattern t : Text) → Bool
  | [], [] => true
  | p :: ps, c :: cs => (if p = '0' then c.isDigit else p == c) && fits ps cs
  | _, _ => false

def datePattern : Text := "0000-00-00"

def timePattern : Text := "00:00:00"

/-- The fraction of a second and the distance from universal time, as they are kept. -/
def zone? (t : Text) : Option Text :=
  let fraction := match t with
    | '.' :: rest => '.' :: rest.takeWhile Char.isDigit
    | _ => []
  let padded := if fraction.isEmpty then [] else
    (fraction ++ List.replicate (7 - fraction.length) '0').take 7
  let rest := t.drop fraction.length
  if rest.isEmpty then some padded
  else if rest = ['Z'] ∨ rest = ['z'] then some (padded ++ ("+00:00" : Text))
  else if fits "+00:00" rest || fits "-00:00" rest then some (padded ++ rest)
  else none

/-- A date, a time, or both. -/
def moment? (t : Text) : Option Value :=
  if fits datePattern t || fits timePattern t then some (.moment t)
  else
    let date := t.take 10
    let time := (t.drop 11).take 8
    if fits datePattern date && fits timePattern time then
      (zone? (t.drop 19)).map fun zone => .moment (date ++ 'T' :: time ++ zone)
    else none

/-- A value that is neither a string nor a list nor a table. -/
def bare? (t : Text) : Option Value :=
  if t = "true" then some (.bool true)
  else if t = "false" then some (.bool false)
  else (moment? t).orElse fun _ => number? t

end Toml
end ModuleGraph
