/-
  Scriptlet.Number.Decimal

  Decimal text of binary64 numbers: the fewest digits that read back, and the
  notations in which they are written.
-/
import Scriptlet.Text.Bytes
import Scriptlet.Number.Double

namespace Scriptlet

/-- The decimal number `digits * 10 ^ exp`. -/
structure Decimal where
  digits : Nat
  exp : Int
deriving DecidableEq, Repr

namespace Decimal

/-! ## Which digits -/

/-- Moves trailing zeros of the digits into the exponent. The bound on the
    number of moves is the number of digits. -/
def strip : Nat → Decimal → Decimal
  | 0, d => d
  | n + 1, d =>
    if d.digits != 0 && d.digits % 10 == 0 then strip n ⟨d.digits / 10, d.exp + 1⟩ else d

/-- The least `k` with `num / den < 10 ^ k`, for a positive ratio. -/
def scale (num den : Nat) : Int :=
  if den ≤ num then ((Bytes.ofNat (num / den)).length : Int)
  else 1 - ((Bytes.ofNat ((den - 1) / num)).length : Int)

/-- Whether the nearest number to a decimal is the magnitude of `x`. -/
def readsBack (x : Double) (d : Decimal) : Bool :=
  (Double.ofDecimal false d.digits d.exp).magnitude == x.magnitude

/-- The neighbours of `x` on the grid `10 ^ exp`, tested for reading back. Of
    two that do the nearer wins, and of two equally near the even one. -/
def onGrid (x : Double) (exp : Int) : Option Decimal :=
  let (num, den) := x.ratio
  let num := num * Nat.pow 10 (-exp).toNat
  let den := den * Nat.pow 10 exp.toNat
  let below : Decimal := ⟨num / den, exp⟩
  let above : Decimal := ⟨num / den + 1, exp⟩
  let nearer := if Double.roundDiv num den == num / den then below else above
  match readsBack x below, readsBack x above with
  | true, true => some nearer
  | true, false => some below
  | false, true => some above
  | false, false => none

/-- The exact decimal value of the magnitude of a finite number. -/
def exact (x : Double) : Decimal :=
  if 0 ≤ x.exponent then ⟨x.mantissa * Nat.pow 2 x.exponent.toNat, 0⟩
  else ⟨x.mantissa * Nat.pow 5 (-x.exponent).toNat, x.exponent⟩

/-- The decimal with the fewest digits that reads back as the magnitude of a
    finite number; of those the nearest. -/
def shortest (x : Double) : Decimal :=
  if x.isZero then ⟨0, 0⟩
  else
    let k := scale x.ratio.1 x.ratio.2
    -- Seventeen digits tell all numbers apart, so the exact value is never needed.
    let found := (List.range 17).findSome? fun n => onGrid x (k - (n + 1 : Nat))
    let d := found.getD (exact x)
    strip (Bytes.ofNat d.digits).length d

/-! ## How they are written -/

/-- The digits with the point where the exponent puts it, zeros filled in. -/
def positional (d : Decimal) : Bytes :=
  let ds := Bytes.ofNat d.digits
  if 0 ≤ d.exp then ds ++ List.replicate d.exp.toNat 48
  else
    let places := (-d.exp).toNat
    if ds.length ≤ places then
      text "0." ++ List.replicate (places - ds.length) 48 ++ ds
    else ds.take (ds.length - places) ++ 46 :: ds.drop (ds.length - places)

/-- The exponent of the leading digit. -/
def leadingExponent (d : Decimal) : Int := (Bytes.ofNat d.digits).length - 1 + d.exp

/-- One digit, the others behind a point, and a signed exponent of at least
    `width` digits. -/
def scientific (width : Nat) (d : Decimal) : Bytes :=
  let ds := Bytes.ofNat d.digits
  let fraction := if ds.length ≤ 1 then [] else 46 :: ds.drop 1
  let e := d.leadingExponent
  let es := Bytes.ofNat e.natAbs
  ds.take 1 ++ fraction ++ 101 :: (if e < 0 then 45 else 43) ::
    (List.replicate (width - es.length) 48 ++ es)

/-- How numbers are written: positionally while the exponent of the leading
    digit is at least `plainFrom` and below `plainBelow`, otherwise with an
    exponent of at least `exponentWidth` digits. -/
structure Notation where
  plainFrom : Int
  plainBelow : Int
  exponentWidth : Nat

/-- A decimal in the given notation. -/
def write (n : Notation) (d : Decimal) : Bytes :=
  let e := d.leadingExponent
  if n.plainFrom ≤ e && e < n.plainBelow then d.positional else d.scientific n.exponentWidth

/-- Values of scripts are positional from `0.0001` to below a million. -/
def general : Notation := ⟨-4, 6, 2⟩

/-- JSON numbers are positional from `0.000001` to below `10 ^ 21`. -/
def document : Notation := ⟨-6, 21, 1⟩

end Decimal

namespace Double

/-- The words for the numbers that have no digits. -/
def special? (x : Double) : Option Bytes :=
  if x.isNaN then some (text "NaN")
  else if x.isInfinite then some (if x.isNegative then text "-Inf" else text "+Inf")
  else none

/-- A number with its sign, written by `digits` when it is finite. -/
def writeWith (digits : Decimal → Bytes) (x : Double) : Bytes :=
  match x.special? with
  | some word => word
  | none => (if x.isNegative then [45] else []) ++ digits (Decimal.shortest x)

/-- The text of a number as a value. -/
def general (x : Double) : Bytes := x.writeWith (Decimal.write Decimal.general)

/-- The text of a number without an exponent. -/
def positional (x : Double) : Bytes := x.writeWith Decimal.positional

/-- The text of a finite number in a JSON document. -/
def document (x : Double) : Bytes := x.writeWith (Decimal.write Decimal.document)

end Double

end Scriptlet
