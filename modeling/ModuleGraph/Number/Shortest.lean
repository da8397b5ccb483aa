import ModuleGraph.Number.Binary64

/-! Decimal texts of binary numbers: the fewest digits that read back as the same number, and a
fixed number of one decimal place.

The reals that round to a number form an interval around it, ends included when the significand
is even. For one digit, two digits and so on, the two neighbours of the number on that decimal
grid are tried; the first grid with a neighbour in the interval gives the digits, the nearer
neighbour if both are inside. -/

namespace ModuleGraph
namespace Binary64

-- powers are those of the core library, whatever other ones are in scope
attribute [local instance (high)] instPowNat

/-- An interval around a number, all three over one denominator. -/
structure Interval where
  low : Nat
  value : Nat
  high : Nat
  den : Nat
  closed : Bool
  deriving Repr

/-- The reals that round to `m * 2 ^ e`. Below a power of two the gap is half as wide. -/
def interval (m : Nat) (e : Int) : Interval :=
  let below := if m = 2 ^ fractionBits ∧ -1074 < e then 4 * m - 1 else 4 * m - 2
  match e with
  | .ofNat e => ⟨below * 2 ^ e, 4 * m * 2 ^ e, (4 * m + 2) * 2 ^ e, 4, m % 2 = 0⟩
  | .negSucc e => ⟨below, 4 * m, 4 * m + 2, 4 * 2 ^ (e + 1), m % 2 = 0⟩

/-- Does `num / den` lie in the interval? -/
def Interval.has (i : Interval) (num den : Nat) : Bool :=
  if i.closed then i.low * den ≤ num * i.den && num * i.den ≤ i.high * den
  else i.low * den < num * i.den && num * i.den < i.high * den

/-- The place of the first decimal digit: `num / den` lies between `10 ^ (p - 1)`, included, and
`10 ^ p`. -/
def decimalPlace (num den : Nat) : Int :=
  if den ≤ num then (Nat.toDigits 10 (num / den)).length
  else
    let l := (Nat.toDigits 10 (den / num)).length
    if den ≤ num * 10 ^ (l - 1) then 2 - (l : Int) else 1 - (l : Int)

/-- `10 ^ k` as a fraction. -/
def powerOfTen (k : Int) : Nat × Nat :=
  match k with
  | .ofNat k => (10 ^ k, 1)
  | .negSucc k => (1, 10 ^ (k + 1))

/-- The neighbour on the grid `10 ^ k` that lies in the interval, the nearer one of two. -/
def onGrid (i : Interval) (k : Int) : Option Nat :=
  let (up, down) := powerOfTen k
  let num := i.value * down
  let den := i.den * up
  let c := num / den
  let r := num % den
  match i.has (c * up) down, i.has ((c + 1) * up) down with
  | true, true =>
    if 2 * r < den then some c else if den < 2 * r then some (c + 1)
    else if c % 2 = 0 then some c else some (c + 1)
  | true, false => some c
  | false, true => some (c + 1)
  | false, false => none

/-- The first hit on the grids with `n`, `n + 1`, … digits, `left` grids being left. -/
def shortestFrom (i : Interval) (place : Int) : (left n : Nat) → Nat × Int
  | 0, n => (i.value / i.den, place - n)
  | left + 1, n =>
    match onGrid i (place - n) with
    | some c => (c, place - n)
    | none => shortestFrom i place left (n + 1)

/-- The fewest digits that read back as `m * 2 ^ e`, and the power of ten that goes with them. -/
def shortest (m : Nat) (e : Int) : Nat × Int :=
  let i := interval m e
  shortestFrom i (decimalPlace i.value i.den) 17 1

/-- A digit sequence without the zeros at its end, and the number of zeros taken away. -/
def stripZeros (digits : Text) : Text × Nat :=
  let kept := (digits.reverse.dropWhile (· == '0')).reverse
  (kept, digits.length - kept.length)

/-- An exponent: a sign and at least two digits. -/
def exponentText (e : Int) : Text :=
  let digits := Text.ofNat e.natAbs
  let padded := if digits.length < 2 then '0' :: digits else digits
  (if e < 0 then '-' else '+') :: padded

/-- Digits with the point at `place`. The number is written out between 10^-4 and 10^16 and with
a power of ten elsewhere; a whole number written out ends in `.0`. -/
def layout (digits : Text) (place : Int) : Text :=
  if -4 < place ∧ place ≤ 16 then
    if place ≤ 0 then "0." ++ List.replicate (-place).toNat '0' ++ digits
    else
      let p := place.toNat
      if digits.length ≤ p then digits ++ List.replicate (p - digits.length) '0' ++ ".0"
      else digits.take p ++ '.' :: digits.drop p
  else
    let mantissa := match digits with
      | [] => []
      | [d] => [d]
      | d :: rest => d :: '.' :: rest
    mantissa ++ 'e' :: exponentText (place - 1)

/-- The shortest text that reads back as the number. -/
def text : Binary64 → Text
  | .nan => "nan"
  | .infinite s => if s then "-inf" else "inf"
  | .finite s m e =>
    let body : Text :=
      if m = 0 then "0.0"
      else
        let (c, k) := shortest m e
        let (digits, zeros) := stripZeros (Text.ofNat c)
        layout digits (digits.length + zeros + k)
    if s then '-' :: body else body

/-- The number with one decimal place. -/
def fixed1 : Binary64 → Text
  | .nan => "nan"
  | .infinite s => if s then "-inf" else "inf"
  | .finite s m e =>
    let t := tenths m e
    let body := Text.ofNat (t / 10) ++ '.' :: Text.ofNat (t % 10)
    if s then '-' :: body else body

end Binary64

/-- `part` of `total` in per cent, rounded to one decimal place; zero if there is no total. -/
def share (part total : Int) : Binary64 :=
  if total = 0 then .finite false 0 0
  else
    let negative := decide (part < 0) != decide (total < 0)
    ((Binary64.ofRatio negative part.natAbs total.natAbs).mulNat 100).roundTenth

/-- A share of a total that has to be positive. -/
def percentage (part total : Int) : Binary64 :=
  if total ≤ 0 then .finite false 0 0 else share part total

end ModuleGraph
