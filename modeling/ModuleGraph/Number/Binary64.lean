import ModuleGraph.Text.Basic

/-! Binary floating-point numbers of 64 bits, held exactly. A finite number is a sign, a whole
significand below 2^53 and a power of two not below -1074; `ofRatio` gives the one nearest to a
quotient, a tie going to the even significand. -/

namespace ModuleGraph

/-- A binary floating-point number: `significand * 2 ^ exponent` with a sign, an infinity, or
the result of an undefined operation. -/
inductive Binary64
  | finite (negative : Bool) (significand : Nat) (exponent : Int)
  | infinite (negative : Bool)
  | nan
  deriving Repr, DecidableEq

namespace Binary64

-- powers are those of the core library, whatever other ones are in scope
attribute [local instance (high)] instPowNat

/-- The quotient rounded to a whole number, a tie going to the even one. -/
def roundDiv (num den : Nat) : Nat :=
  let q := num / den
  let r := num % den
  if 2 * r < den then q
  else if den < 2 * r then q + 1
  else if q % 2 = 0 then q else q + 1

/-- The quotient of `num / den` by `2 ^ exponent`, as a fraction. -/
def scaled (num den : Nat) (exponent : Int) : Nat × Nat :=
  match exponent with
  | .ofNat e => (num, den * 2 ^ e)
  | .negSucc e => (num * 2 ^ (e + 1), den)

/-- The binary digits of a significand after the first one. -/
def fractionBits : Nat := 52

/-- The exponent with which the quotient has 53 binary digits, but at least -1074. -/
def exponentFor (num den : Nat) : Int :=
  let e : Int := (Nat.log2 num : Int) - (Nat.log2 den : Int) - fractionBits
  let (n, d) := scaled num den e
  max (if n / d < 2 ^ fractionBits then e - 1 else e) (-1074)

/-- The number nearest to `num / den`, with a given sign. -/
def ofRatio (negative : Bool) (num den : Nat) : Binary64 :=
  if num = 0 then .finite negative 0 0
  else
    let e := exponentFor num den
    let (n, d) := scaled num den e
    let m := roundDiv n d
    let (m, e) := if m = 2 ^ (fractionBits + 1) then (2 ^ fractionBits, e + 1) else (m, e)
    if m = 0 then .finite negative 0 0
    else if 971 < e then .infinite negative
    else .finite negative m e

/-- The number nearest to an integer. -/
def ofInt (n : Int) : Binary64 := ofRatio (n < 0) n.natAbs 1

/-- The number nearest to `digits * 10 ^ exponent`. Exponents far outside the range are not
worked out. -/
def ofDecimal (negative : Bool) (digits : Nat) (exponent : Int) : Binary64 :=
  if digits = 0 then .finite negative 0 0
  else if 400 < exponent then .infinite negative
  else if exponent + (Nat.toDigits 10 digits).length < -400 then .finite negative 0 0
  else match exponent with
    | .ofNat e => ofRatio negative (digits * 10 ^ e) 1
    | .negSucc e => ofRatio negative digits (10 ^ (e + 1))

/-- The absolute value of a finite number as a fraction. -/
def fraction (significand : Nat) (exponent : Int) : Nat × Nat :=
  match exponent with
  | .ofNat e => (significand * 2 ^ e, 1)
  | .negSucc e => (significand, 2 ^ (e + 1))

/-- The product with a natural number, rounded. -/
def mulNat (x : Binary64) (k : Nat) : Binary64 :=
  match x with
  | .finite s m e => let (n, d) := fraction m e; ofRatio s (n * k) d
  | x => x

/-- The absolute value in tenths, rounded to a whole number, a tie going to the even one. -/
def tenths (significand : Nat) (exponent : Int) : Nat :=
  let (n, d) := fraction significand exponent
  roundDiv (n * 10) d

/-- The number rounded to one decimal place. -/
def roundTenth (x : Binary64) : Binary64 :=
  match x with
  | .finite s m e => ofRatio s (tenths m e) 10
  | x => x

/-- Is the number above zero? -/
def isPositive : Binary64 → Bool
  | .finite s m _ => !s && m != 0
  | .infinite s => !s
  | .nan => false

/-- Is the number zero? -/
def isZero : Binary64 → Bool
  | .finite _ m _ => m == 0
  | _ => false

end Binary64
end ModuleGraph
