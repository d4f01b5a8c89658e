/-
  Scriptlet.Number.Duration

  Durations as text: numbers with units, one after the other, read and
  written.
-/
import Scriptlet.Number.Numeral

namespace Scriptlet.Duration

/-- The units and their lengths in nanoseconds. The sign for micro has two
    code points. -/
def units : List (Bytes × Nat) :=
  [(text "ns", 1), (text "us", 1000), (text "µs", 1000), (text "μs", 1000), (text "ms", 1000000),
   (text "s", 1000000000), (text "m", 60000000000), (text "h", 3600000000000)]

/-- Whether a byte belongs to a number. -/
def isNumberPart (b : UInt8) : Bool := Bytes.isDigit b || b == 46

/-- Nanoseconds of a number, digits with at most one point, in a unit. What is
    left of a nanosecond is dropped. -/
def scale (number : Bytes) (unit : Nat) : Option Nat :=
  let (whole, fraction) := Bytes.cut 46 number
  let ds := fraction.getD []
  if (whole ++ ds).isEmpty || !ds.all Bytes.isDigit then none
  else some (Bytes.value whole * unit + Bytes.value ds * unit / Nat.pow 10 ds.length)

/-- Nanoseconds of numbers with units. -/
def parts : Nat → Bytes → Option Nat
  | 0, _ => none
  | fuel + 1, bs => do
    let number := bs.takeWhile isNumberPart
    let rest := bs.drop number.length
    -- A unit goes up to the next digit or point.
    let unit := rest.takeWhile fun b => !isNumberPart b
    let length ← units.lookup unit
    let n ← scale number length
    let rest := rest.drop unit.length
    if rest.isEmpty then some n else (parts fuel rest).map (n + ·)

/-- Nanoseconds of a duration with an optional sign, within 64 bits. Zero needs
    no unit. -/
def parse (bs : Bytes) : Option Int :=
  let (negative, rest) := Numeral.sign bs
  if rest == text "0" then some 0
  else
    match parts (rest.length + 1) rest with
    | none => none
    | some n =>
      let z : Int := if negative then -n else n
      if Word.holds z then some z else none

/-! ## Writing -/

/-- `n` of which `10 ^ places` make one, without zeros at the end of the
    fraction. -/
def fractional (n places : Nat) : Bytes :=
  let ds := Bytes.ofNat (n % Nat.pow 10 places)
  let padded := List.replicate (places - ds.length) 48 ++ ds
  let fraction := (padded.reverse.dropWhile (· == 48)).reverse
  Bytes.ofNat (n / Nat.pow 10 places) ++ if fraction.isEmpty then [] else 46 :: fraction

/-- The text of a number of nanoseconds: in the greatest unit that it reaches
    while it is less than a second, and otherwise in hours, minutes and
    seconds. -/
def render (nanoseconds : Nat) : Bytes :=
  if nanoseconds == 0 then text "0s"
  else if nanoseconds < 1000 then Bytes.ofNat nanoseconds ++ text "ns"
  else if nanoseconds < 1000000 then fractional nanoseconds 3 ++ text "µs"
  else if nanoseconds < 1000000000 then fractional nanoseconds 6 ++ text "ms"
  else
    let minutes := nanoseconds / 60000000000
    let seconds := fractional (nanoseconds % 60000000000) 9 ++ text "s"
    if minutes == 0 then seconds
    else if minutes < 60 then Bytes.ofNat minutes ++ text "m" ++ seconds
    else Bytes.ofNat (minutes / 60) ++ text "h" ++ Bytes.ofNat (minutes % 60) ++ text "m" ++ seconds

end Scriptlet.Duration
