/-
  Scriptlet.Number.Double

  Binary64 numbers by their bit patterns: classes, exact magnitude, rounding of
  a ratio of naturals to the nearest number, and the arithmetic of scripts.
-/

namespace Scriptlet

/-- A binary64 number, by its bit pattern. Two numbers are equal as data when
    their bits are, so a literal keeps its sign of zero. -/
structure Double where
  bits : UInt64
deriving DecidableEq, Repr, Inhabited

namespace Double

/-! ## Classes and parts -/

def ofFloat (f : Float) : Double := ⟨f.toBits⟩

def toFloat (d : Double) : Float := Float.ofBits d.bits

/-- The value of the sign bit. -/
def signBit : Nat := 0x8000000000000000

/-- The number of bit patterns with one exponent, and the value of the leading
    bit that patterns leave out. -/
def binade : Nat := 0x10000000000000

/-- The bits without the sign. -/
def magnitude (d : Double) : Nat := d.bits.toNat % signBit

/-- Whether the sign bit is set; a NaN or a zero may carry it too. -/
def isNegative (d : Double) : Bool := signBit ≤ d.bits.toNat

/-- The magnitude bits of the infinities. -/
def infinityBits : Nat := 2047 * binade

def isNaN (d : Double) : Bool := infinityBits < d.magnitude

def isInfinite (d : Double) : Bool := d.magnitude == infinityBits

def isFinite (d : Double) : Bool := d.magnitude < infinityBits

def isZero (d : Double) : Bool := d.magnitude == 0

def zero : Double := ⟨0⟩

def infinity : Double := ⟨0x7FF0000000000000⟩

def negInfinity : Double := ⟨0xFFF0000000000000⟩

def nan : Double := ⟨0x7FF8000000000001⟩

/-- The number with the given sign and magnitude bits. -/
def ofMagnitude (negative : Bool) (magnitude : Nat) : Double :=
  ⟨UInt64.ofNat (magnitude + if negative then signBit else 0)⟩

/-- The number with the other sign. -/
def neg (d : Double) : Double := ofMagnitude (!d.isNegative) d.magnitude

/-- The integer `m` of the magnitude `m * 2 ^ q` of a finite number. -/
def mantissa (d : Double) : Nat :=
  if d.magnitude < binade then d.magnitude else d.magnitude % binade + binade

/-- The binary exponent `q` of the magnitude `m * 2 ^ q` of a finite number. -/
def exponent (d : Double) : Int :=
  if d.magnitude < binade then -1074 else (d.magnitude / binade : Nat) - 1075

/-- The magnitude of a finite number as a ratio of naturals. -/
def ratio (d : Double) : Nat × Nat :=
  (d.mantissa * Nat.pow 2 d.exponent.toNat, Nat.pow 2 (-d.exponent).toNat)

/-! ## Rounding -/

/-- The integer nearest to `num / den`; a half goes to the even neighbour. -/
def roundDiv (num den : Nat) : Nat :=
  let q := num / den
  let r := num % den
  if 2 * r < den then q
  else if den < 2 * r then q + 1
  -- Exactly between two integers.
  else if q % 2 == 0 then q else q + 1

/-- The exponent of the grid on which `num / den` is rounded: 53 significant
    bits, but no finer than the least subnormal. -/
def gridExponent (num den : Nat) : Int :=
  let guess : Int := (num.log2 : Int) - den.log2
  -- `guess` is the binary exponent of the quotient or one more than it.
  let high :=
    if num * Nat.pow 2 (-guess).toNat < den * Nat.pow 2 guess.toNat then guess - 1 else guess
  max (high - 52) (-1074)

/-- The magnitude bits of the number nearest to `num / den`, for a positive
    ratio. Carrying out of the 53 bits moves to the next exponent by itself. -/
def roundBits (num den : Nat) : Nat :=
  let q := gridExponent num den
  let m := roundDiv (num * Nat.pow 2 (-q).toNat) (den * Nat.pow 2 q.toNat)
  -- Adding the mantissa with its leading bit counts one exponent more.
  min infinityBits ((q + 1074).toNat * binade + m)

/-- The number nearest to `num / den`; infinity beyond the range. -/
def ofRatio (negative : Bool) (num den : Nat) : Double :=
  if num == 0 then ofMagnitude negative 0 else ofMagnitude negative (roundBits num den)

/-- The number nearest to an integer. -/
def ofInt (n : Int) : Double := ofRatio (n < 0) n.natAbs 1

/-- The number nearest to `digits * 10 ^ exp`. Exponents far outside the range
    are decided by size alone, so that no huge power is formed. -/
def ofDecimal (negative : Bool) (digits : Nat) (exp : Int) : Double :=
  if digits == 0 then ofMagnitude negative 0
  else
    -- Three bits are less than a digit, so this is at least the exponent of the first digit.
    let size : Int := digits.log2 / 3 + exp
    if 1100 < exp then ofMagnitude negative infinityBits
    else if size < -1100 then ofMagnitude negative 0
    else ofRatio negative (digits * Nat.pow 10 exp.toNat) (Nat.pow 10 (-exp).toNat)

/-- The number nearest to `m * 2 ^ exp`. Sizes far outside the range are decided
    first, so that no huge power is formed. -/
def ofBinary (negative : Bool) (m : Nat) (exp : Int) : Double :=
  let size : Int := m.log2 + exp
  if m == 0 || size < -1100 then ofMagnitude negative 0
  else if 1100 < size then ofMagnitude negative infinityBits
  else ofRatio negative (m * Nat.pow 2 exp.toNat) (Nat.pow 2 (-exp).toNat)

/-- The integer a number stands for, if it is one. -/
def toInt? (d : Double) : Option Int :=
  let (num, den) := d.ratio
  if d.isFinite && num % den == 0 then
    let n : Int := (num / den : Nat)
    some (if d.isNegative then -n else n)
  else none

/-- The integer part, toward zero, of a finite number. -/
def truncate (d : Double) : Int :=
  let (num, den) := d.ratio
  let n : Int := (num / den : Nat)
  if d.isNegative then -n else n

/-! ## Arithmetic -/

def add (a b : Double) : Double := ofFloat (a.toFloat + b.toFloat)

def sub (a b : Double) : Double := ofFloat (a.toFloat - b.toFloat)

def mul (a b : Double) : Double := ofFloat (a.toFloat * b.toFloat)

def div (a b : Double) : Double := ofFloat (a.toFloat / b.toFloat)

/-- The remainder of the division toward zero, which is exact and has the sign
    of the dividend. -/
def rem (a b : Double) : Double :=
  if b.isZero || a.isInfinite || a.isNaN || b.isNaN then nan
  else if b.isInfinite then a
  else
    -- Both are whole multiples of the finer of their two units.
    let q := min a.exponent b.exponent
    let x := a.mantissa * Nat.pow 2 (a.exponent - q).toNat
    let y := b.mantissa * Nat.pow 2 (b.exponent - q).toNat
    let r := x % y
    ofRatio a.isNegative (r * Nat.pow 2 q.toNat) (Nat.pow 2 (-q).toNat)

/-- Numeric equality: the zeros are equal and a NaN equals nothing. -/
def equal (a b : Double) : Bool := a.toFloat == b.toFloat

def less (a b : Double) : Bool := decide (a.toFloat < b.toFloat)

def lessEq (a b : Double) : Bool := decide (a.toFloat ≤ b.toFloat)

end Double

end Scriptlet
