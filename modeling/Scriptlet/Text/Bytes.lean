/-
  Scriptlet.Text.Bytes

  Byte strings: the literals of the library, decimal numerals, joining,
  splitting at a byte and the lexicographic order.
-/
namespace Scriptlet

/-- A byte string. Scripts, names, messages and output are bytes, because none
    of them has to be valid UTF-8. -/
abbrev Bytes := List UInt8

/-- The UTF-8 bytes of a literal. -/
def text (s : String) : Bytes := s.toByteArray.data.toList

namespace Bytes

/-! ## Decimal numerals -/

/-- The ASCII digit of a number below ten. -/
def digit (d : Nat) : UInt8 := UInt8.ofNat (48 + d)

/-- The decimal numeral of `n`, without leading zeros. -/
def ofNat (n : Nat) : Bytes :=
  if n < 10 then [digit n] else ofNat (n / 10) ++ [digit (n % 10)]
termination_by n

/-- The decimal numeral of `n`, with a minus sign when it is negative. -/
def ofInt (n : Int) : Bytes :=
  if n < 0 then 45 :: ofNat n.natAbs else ofNat n.natAbs

/-- The value of a digit string, most significant digit first. -/
def value (ds : Bytes) : Nat :=
  ds.foldl (fun n d => 10 * n + (d.toNat - 48)) 0

/-- `0` to `9`. -/
def isDigit (b : UInt8) : Bool := 48 ≤ b && b ≤ 57

/-- `n` in base sixteen with lower case digits, at least `width` of them. -/
def hex (width n : Nat) : Bytes :=
  let digits := (Nat.toDigits 16 n).map fun c => UInt8.ofNat c.toNat
  List.replicate (width - digits.length) 48 ++ digits

/-! ## Joining and splitting -/

/-- The parts in order with `sep` between neighbours. -/
def join (sep : Bytes) (parts : List Bytes) : Bytes := List.intercalate sep parts

/-- Whether `xs` starts with `ys`. -/
def startsWith (xs ys : Bytes) : Bool := ys.isPrefixOf xs

/-- Whether `xs` ends with `ys`. -/
def endsWith (xs ys : Bytes) : Bool := ys.isSuffixOf xs

/-- The part before the first `b`, and the part after it if there is one. -/
def cut (b : UInt8) (xs : Bytes) : Bytes × Option Bytes :=
  let head := xs.takeWhile (· != b)
  match xs.drop head.length with
  | [] => (head, none)
  | _ :: tail => (head, some tail)

/-- The pieces of `xs` between the bytes `b`. -/
def split (b : UInt8) : Bytes → List Bytes
  | [] => [[]]
  | x :: xs =>
    match x == b, split b xs with
    | true, pieces => [] :: pieces
    | false, piece :: pieces => (x :: piece) :: pieces
    | false, [] => [[x]]

/-- The index of the last `b`. -/
def lastIndexOf (b : UInt8) (xs : Bytes) : Option Nat :=
  let tail := xs.reverse.takeWhile (· != b)
  if tail.length < xs.length then some (xs.length - tail.length - 1) else none

/-! ## Case and order -/

/-- ASCII lower case; bytes outside `A` to `Z` are kept. -/
def lower (xs : Bytes) : Bytes :=
  xs.map fun b => if 65 ≤ b && b ≤ 90 then b + 32 else b

/-- Byte strings in lexicographic order, smallest first. -/
def sort (xs : List Bytes) : List Bytes := xs.mergeSort fun a b => decide (a ≤ b)

end Bytes

end Scriptlet
