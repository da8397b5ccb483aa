import ModuleGraph.Text.Basic

/-! Moments of the calendar, to the microsecond, and a clock that tells one moment after the
other. `iso` writes a moment for readers, `stamp` for names of directories. -/

namespace ModuleGraph

/-- A moment in universal time. -/
structure Moment where
  year : Nat
  month : Nat
  day : Nat
  hour : Nat
  minute : Nat
  second : Nat
  micro : Nat
  deriving Repr, DecidableEq

namespace Moment

/-- A number with zeros in front up to a width. -/
def padded (width n : Nat) : Text :=
  let digits := Text.ofNat n
  List.replicate (width - digits.length) '0' ++ digits

def dateText (m : Moment) : Text :=
  padded 4 m.year ++ '-' :: padded 2 m.month ++ '-' :: padded 2 m.day

/-- The time of day with a separator between its numbers. -/
def timeText (sep : Char) (m : Moment) : Text :=
  padded 2 m.hour ++ sep :: padded 2 m.minute ++ sep :: padded 2 m.second

/-- The moment with its distance from universal time. A fraction is written if there is one. -/
def iso (m : Moment) : Text :=
  let fraction := if m.micro = 0 then [] else '.' :: padded 6 m.micro
  m.dateText ++ 'T' :: m.timeText ':' ++ fraction ++ ("+00:00" : Text)

/-- The moment without a character that a file name may not have. -/
def stamp (m : Moment) : Text :=
  m.dateText ++ 'T' :: m.timeText '-' ++ '-' :: padded 6 m.micro ++ ['Z']

def isLeap (year : Nat) : Bool := year % 4 = 0 && (year % 100 != 0 || year % 400 = 0)

def daysIn (year month : Nat) : Nat :=
  if month = 2 then if isLeap year then 29 else 28
  else if month ∈ [4, 6, 9, 11] then 30
  else 31

def nextDay (m : Moment) : Moment :=
  if m.day < daysIn m.year m.month then { m with day := m.day + 1 }
  else if m.month < 12 then { m with month := m.month + 1, day := 1 }
  else { m with year := m.year + 1, month := 1, day := 1 }

/-- One second later. -/
def nextSecond (m : Moment) : Moment :=
  if m.second < 59 then { m with second := m.second + 1 }
  else if m.minute < 59 then { m with minute := m.minute + 1, second := 0 }
  else if m.hour < 23 then { m with hour := m.hour + 1, minute := 0, second := 0 }
  else { m.nextDay with hour := 0, minute := 0, second := 0 }

/-- The moment so many seconds and microseconds after the first day of 1970. The years are counted
from March on in spans of 400, which all have the same number of days. -/
def ofEpoch (seconds micro : Nat) : Moment :=
  let days := seconds / 86400 + 719468
  let span := days / 146097
  let dayOfSpan := days % 146097
  let yearOfSpan := (dayOfSpan - dayOfSpan / 1460 + dayOfSpan / 36524 - dayOfSpan / 146096) / 365
  let dayOfYear := dayOfSpan - (365 * yearOfSpan + yearOfSpan / 4 - yearOfSpan / 100)
  let fromMarch := (5 * dayOfYear + 2) / 153
  let month := if fromMarch < 10 then fromMarch + 3 else fromMarch - 9
  let rest := seconds % 86400
  { year := span * 400 + yearOfSpan + if month ≤ 2 then 1 else 0
    month
    day := dayOfYear - (153 * fromMarch + 2) / 5 + 1
    hour := rest / 3600
    minute := rest / 60 % 60
    second := rest % 60
    micro }

/-- What a clock shows that was never set. -/
def start : Moment := ⟨2024, 1, 2, 3, 4, 5, 678901⟩

end Moment

/-- A clock that will show some moments and then goes on second by second. -/
structure Clock where
  pending : List Moment := []
  last : Option Moment := none
  deriving Repr, DecidableEq

/-- The moment that the clock shows, and the clock after it. -/
def Clock.tick (c : Clock) : Moment × Clock :=
  match c.pending with
  | m :: rest => (m, ⟨rest, some m⟩)
  | [] =>
    let m := match c.last with
      | none => .start
      | some m => m.nextSecond
    (m, ⟨[], some m⟩)

end ModuleGraph
