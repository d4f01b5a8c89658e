/-
  Scriptlet.Number.Numeral

  Reading numbers from text: signed integers within a range, decimal fractions
  with an optional exponent, and numbers in other bases.
-/
import Scriptlet.Text.Bytes
import Scriptlet.Number.Word
import Scriptlet.Number.Double

namespace Scriptlet.Numeral

/-- The sign in front of a numeral and what follows it. -/
def sign : Bytes → Bool × Bytes
  | 45 :: rest => (true, rest)
  | 43 :: rest => (false, rest)
  | rest => (false, rest)

/-- Why a text is no integer of the range asked for. -/
inductive Problem where
  | malformed
  | outOfRange
deriving DecidableEq, Repr

/-- A decimal integer with an optional sign between `lo` and `hi`. -/
def readInt (lo hi : Int) (bs : Bytes) : Except Problem Int :=
  let (negative, ds) := sign bs
  if ds.isEmpty || !ds.all Bytes.isDigit then .error .malformed
  else
    let n : Int := Bytes.value ds
    let n := if negative then -n else n
    if lo ≤ n && n ≤ hi then .ok n else .error .outOfRange

/-- A signed 64-bit integer. -/
def readInt64 (bs : Bytes) : Except Problem Int := readInt Word.least Word.greatest bs

/-- The size of an exponent from its digits. Once ten thousand is reached, the
    digits that follow no longer count. -/
def exponentSize (ds : Bytes) : Nat :=
  ds.foldl (fun e d => if e < 10000 then 10 * e + (d.toNat - 48) else e) 0

/-- The exponent part of a number: nothing, or a mark `e` or `E` with a signed
    digit string. -/
def readExponent : Bytes → Option Int
  | [] => some 0
  | mark :: rest =>
    if mark == 101 || mark == 69 then
      let (negative, ds) := sign rest
      if ds.isEmpty || !ds.all Bytes.isDigit then none
      else
        let e : Int := exponentSize ds
        some (if negative then -e else e)
    else none

/-- An unsigned decimal number: digits with at most one point, at least one
    digit, and an optional exponent, as digits and a power of ten. -/
def readUnsigned (bs : Bytes) : Option (Nat × Int) :=
  let whole := bs.takeWhile Bytes.isDigit
  let (fraction, rest) :=
    match bs.drop whole.length with
    -- A point needs no digits around it, as long as there is a digit somewhere.
    | 46 :: rest => (rest.takeWhile Bytes.isDigit, rest.dropWhile Bytes.isDigit)
    | rest => ([], rest)
  if whole.isEmpty && fraction.isEmpty then none
  else (readExponent rest).map fun e => (Bytes.value (whole ++ fraction), e - fraction.length)

/-- A decimal number with an optional sign, rounded to the nearest binary64
    number; infinite when it is out of range. -/
def readDouble (bs : Bytes) : Option Double :=
  let (negative, rest) := sign bs
  (readUnsigned rest).map fun (digits, e) => Double.ofDecimal negative digits e

/-- Whether every underscore stands between two digits, given whether there is a
    digit before the text. -/
def separates (isDigit : UInt8 → Bool) : Bool → Bytes → Bool
  | _, [] => true
  | before, b :: rest =>
    if b == 95 then before && rest.head?.any isDigit && separates isDigit false rest
    else separates isDigit (isDigit b) rest

/-- As `readDouble`, with underscores between digits. -/
def readSeparated (bs : Bytes) : Option Double :=
  if separates Bytes.isDigit false bs then readDouble (bs.filter (· != 95)) else none

/-! ## Other bases -/

/-- The value of a digit in a base up to sixteen. -/
def digit? (base : Nat) (b : UInt8) : Option Nat :=
  let n :=
    if Bytes.isDigit b then b.toNat - 48
    else if 97 ≤ b && b ≤ 102 then b.toNat - 87
    else if 65 ≤ b && b ≤ 70 then b.toNat - 55
    else 16
  if n < base then some n else none

/-- A natural number in a base. -/
def readBase (base : Nat) (bs : Bytes) : Option Nat :=
  if bs.isEmpty then none
  else bs.foldlM (fun n b => (digit? base b).map fun d => n * base + d) 0

/-- A natural number whose base its first bytes tell. -/
def readNatural : Bytes → Option Nat
  | 48 :: mark :: rest =>
    if mark == 120 || mark == 88 then readBase 16 rest
    else if mark == 98 || mark == 66 then readBase 2 rest
    else if mark == 111 || mark == 79 then readBase 8 rest
    -- A zero in front is a mark of octal digits.
    else readBase 8 (mark :: rest)
  | bs => readBase 10 bs

def isHexDigit (b : UInt8) : Bool := (digit? 16 b).isSome

/-- The number `m * 2 ^ e` of a hexadecimal numeral behind its mark: digits with
    at most one point, at least one digit, and an exponent of two in decimal. -/
def readHex (bs : Bytes) : Option (Nat × Int) :=
  let whole := bs.takeWhile isHexDigit
  let (fraction, rest) :=
    match bs.drop whole.length with
    | 46 :: rest => (rest.takeWhile isHexDigit, rest.dropWhile isHexDigit)
    | rest => ([], rest)
  match readBase 16 (whole ++ fraction), rest with
  | some m, mark :: rest =>
    if mark == 112 || mark == 80 then
      (readExponent (101 :: rest)).map fun e => (m, e - 4 * fraction.length)
    else none
  | _, _ => none

/-- A number in text of any form: decimal or hexadecimal, with underscores
    between digits, or one of the words `inf`, `infinity` and `nan` in any
    case. -/
def readAnyDouble (bs : Bytes) : Option Double :=
  let (negative, rest) := sign bs
  let word := Bytes.lower rest
  if word == text "inf" || word == text "infinity" then
    some (if negative then Double.negInfinity else Double.infinity)
  else if Bytes.lower bs == text "nan" then some Double.nan
  else
    match rest with
    | 48 :: 120 :: digits | 48 :: 88 :: digits =>
      if separates isHexDigit true digits then
        (readHex (digits.filter (· != 95))).map fun (m, e) => Double.ofBinary negative m e
      else none
    | _ => readSeparated bs

/-- Whether every underscore stands between two digits, a mark of the base
    being as good as one in front. -/
def separated : Bytes → Bool
  | 95 :: _ => false
  | bs => go bs
where
  go : Bytes → Bool
    | [] => true
    | [95] => false
    | 95 :: 95 :: _ => false
    | _ :: bs => go bs

/-- A signed 64-bit integer whose base its first bytes tell; underscores may
    separate its digits. -/
def readInt64AnyBase (bs : Bytes) : Option Int :=
  let (negative, rest) := sign bs
  match if separated rest then readNatural (rest.filter (· != 95)) else none with
  | none => none
  | some n =>
    let z : Int := if negative then -n else n
    if Word.holds z then some z else none

end Scriptlet.Numeral
