/-
  Scriptlet.Timestamp

  Points in time as RFC 3339 writes them.
-/
import Scriptlet.Text.Bytes

namespace Scriptlet

/-- A point in time on a clock that is `offset` minutes ahead of UTC. -/
structure Timestamp where
  year : Nat
  month : Nat
  day : Nat
  hour : Nat
  minute : Nat
  second : Nat
  nanosecond : Nat
  offset : Int
deriving DecidableEq, Repr

namespace Timestamp

/-- The start of the first year. -/
def zero : Timestamp := ⟨1, 1, 1, 0, 0, 0, 0, 0⟩

/-- Whether a year has a leap day. -/
def isLeap (year : Nat) : Bool := year % 4 == 0 && (year % 100 != 0 || year % 400 == 0)

/-- The days of a month. -/
def daysIn (year month : Nat) : Nat :=
  if month == 2 then if isLeap year then 29 else 28
  else if [4, 6, 9, 11].contains month then 30
  else 31

/-! ## Text -/

/-- A number with leading zeros up to a width. -/
def padded (width n : Nat) : Bytes :=
  let ds := Bytes.ofNat n
  List.replicate (width - ds.length) 48 ++ ds

/-- The fraction of a second, without zeros at its end. -/
def renderFraction (nanosecond : Nat) : Bytes :=
  if nanosecond == 0 then []
  else 46 :: ((padded 9 nanosecond).reverse.dropWhile (· == 48)).reverse

/-- The offset from UTC, `Z` for none. -/
def renderOffset (offset : Int) : Bytes :=
  if offset == 0 then text "Z"
  else
    let m := offset.natAbs
    (if offset < 0 then text "-" else text "+") ++ padded 2 (m / 60) ++ text ":" ++
      padded 2 (m % 60)

/-- Whether a point in time can be written: its clock is less than a day away
    from UTC. -/
def isWritable (t : Timestamp) : Bool := t.offset.natAbs < 24 * 60

def render (t : Timestamp) : Bytes :=
  padded 4 t.year ++ text "-" ++ padded 2 t.month ++ text "-" ++ padded 2 t.day ++ text "T" ++
    padded 2 t.hour ++ text ":" ++ padded 2 t.minute ++ text ":" ++ padded 2 t.second ++
    renderFraction t.nanosecond ++ renderOffset t.offset

/-- A number of exactly `width` digits between two bounds, and the rest. -/
def number (width lo hi : Nat) (bs : Bytes) : Option (Nat × Bytes) :=
  let ds := bs.take width
  let n := Bytes.value ds
  if ds.length == width && ds.all Bytes.isDigit && lo ≤ n && n ≤ hi then some (n, bs.drop width)
  else none

/-- A number of one digit or two between two bounds, and the rest. -/
def shortNumber (lo hi : Nat) (bs : Bytes) : Option (Nat × Bytes) :=
  number (if (bs.drop 1).head?.any Bytes.isDigit then 2 else 1) lo hi bs

/-- The text behind a mark. -/
def mark (b : UInt8) : Bytes → Option Bytes
  | c :: rest => if c == b then some rest else none
  | [] => none

/-- The fraction of a second behind a point or a comma, if there is one; digits
    beyond the ninth are dropped. -/
def parseFraction (bs : Bytes) : Nat × Bytes :=
  let ds := (bs.drop 1).takeWhile Bytes.isDigit
  if (bs.head? == some 46 || bs.head? == some 44) && !ds.isEmpty then
    -- Nine digits are nanoseconds, with zeros for those that are missing.
    (Bytes.value ((ds ++ List.replicate 9 48).take 9), bs.drop (ds.length + 1))
  else (0, bs)

/-- The offset from UTC in minutes. Twenty-four hours and sixty minutes are
    still read. -/
def parseOffset (bs : Bytes) : Option Int :=
  match bs with
  | [90] => some 0
  | b :: rest =>
    if b == 43 || b == 45 then do
      let (hours, rest) ← number 2 0 24 rest
      let rest ← mark 58 rest
      let (minutes, rest) ← number 2 0 60 rest
      let m : Int := hours * 60 + minutes
      if rest.isEmpty then some (if b == 45 then -m else m) else none
    else none
  | [] => none

/-- Reads a point in time. -/
def parse (bs : Bytes) : Option Timestamp := do
  let (year, rest) ← number 4 0 9999 bs
  let rest ← mark 45 rest
  let (month, rest) ← number 2 1 12 rest
  let rest ← mark 45 rest
  let (day, rest) ← number 2 1 (daysIn year month) rest
  let rest ← mark 84 rest
  -- The hour alone may have a single digit.
  let (hour, rest) ← shortNumber 0 23 rest
  let rest ← mark 58 rest
  let (minute, rest) ← number 2 0 59 rest
  let rest ← mark 58 rest
  let (second, rest) ← number 2 0 59 rest
  let (nanosecond, rest) := parseFraction rest
  let offset ← parseOffset rest
  return ⟨year, month, day, hour, minute, second, nanosecond, offset⟩

end Timestamp

end Scriptlet
