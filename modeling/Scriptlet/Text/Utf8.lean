/-
  Scriptlet.Text.Utf8

  UTF-8 as a reading of byte strings: the next character or the next byte that
  starts none, encoding of code points, and repair of invalid bytes.
-/
import Scriptlet.Text.Bytes

namespace Scriptlet.Utf8

/-- One unit of a text: a well-formed character with its code point, or a byte
    at which no well-formed character starts. -/
inductive Piece where
  | char (code : Nat) (bytes : Bytes)
  | stray (byte : UInt8)
deriving DecidableEq, Repr

/-- The bytes a piece stands for. -/
def Piece.bytes : Piece → Bytes
  | .char _ bs => bs
  | .stray b => [b]

/-- A continuation byte between `lo` and `hi`. -/
private def within (lo hi : UInt8) (b : UInt8) : Bool := lo ≤ b && b ≤ hi

/-- The low six bits of a continuation byte. -/
private def low (b : UInt8) : Nat := b.toNat % 64

/-- The code point of a well-formed sequence of two to four bytes at the start
    of the text, with the length of the sequence. Overlong forms, surrogates
    and values above U+10FFFF are not well formed. -/
def multibyte (b0 : UInt8) (rest : Bytes) : Option (Nat × Nat) :=
  match rest with
  | b1 :: more =>
    if within 0xC2 0xDF b0 && within 0x80 0xBF b1 then
      some ((b0.toNat - 0xC0) * 64 + low b1, 2)
    else
      match more with
      | b2 :: more =>
        let second :=
          if b0 == 0xE0 then within 0xA0 0xBF b1
          else if b0 == 0xED then within 0x80 0x9F b1
          else within 0x80 0xBF b1
        if within 0xE0 0xEF b0 && second && within 0x80 0xBF b2 then
          some (((b0.toNat - 0xE0) * 64 + low b1) * 64 + low b2, 3)
        else
          match more with
          | b3 :: _ =>
            let second :=
              if b0 == 0xF0 then within 0x90 0xBF b1
              else if b0 == 0xF4 then within 0x80 0x8F b1
              else within 0x80 0xBF b1
            if within 0xF0 0xF4 b0 && second && within 0x80 0xBF b2 && within 0x80 0xBF b3 then
              some ((((b0.toNat - 0xF0) * 64 + low b1) * 64 + low b2) * 64 + low b3, 4)
            else none
          | [] => none
      | [] => none
  | [] => none

/-- The piece at the start of a non-empty text and what follows it. -/
def next (b : UInt8) (rest : Bytes) : Piece × Bytes :=
  if b < 0x80 then (.char b.toNat [b], rest)
  else
    match multibyte b rest with
    | some (code, len) => (.char code (b :: rest.take (len - 1)), rest.drop (len - 1))
    | none => (.stray b, rest)

theorem length_next_le (b : UInt8) (rest : Bytes) : (next b rest).2.length ≤ rest.length := by
  unfold next
  split
  · exact Nat.le_refl _
  · split
    · simp
    · exact Nat.le_refl _

/-- The pieces of a text in order. -/
def pieces : Bytes → List Piece
  | [] => []
  | b :: rest => (next b rest).1 :: pieces (next b rest).2
termination_by bs => bs.length
decreasing_by
  have := length_next_le b rest
  simp; omega

/-- The encoding of a code point; surrogates and values above U+10FFFF have
    none and give U+FFFD. -/
def encode (code : Nat) : Bytes :=
  if code < 0x80 then [UInt8.ofNat code]
  else if code < 0x800 then
    [UInt8.ofNat (0xC0 + code / 64), UInt8.ofNat (0x80 + code % 64)]
  else if (0xD800 ≤ code && code < 0xE000) || 0x110000 ≤ code then [0xEF, 0xBF, 0xBD]
  else if code < 0x10000 then
    [UInt8.ofNat (0xE0 + code / 4096), UInt8.ofNat (0x80 + code / 64 % 64),
      UInt8.ofNat (0x80 + code % 64)]
  else
    [UInt8.ofNat (0xF0 + code / 262144), UInt8.ofNat (0x80 + code / 4096 % 64),
      UInt8.ofNat (0x80 + code / 64 % 64), UInt8.ofNat (0x80 + code % 64)]

/-- The replacement character U+FFFD. -/
def replacement : Bytes := [0xEF, 0xBF, 0xBD]

/-- The text with every stray byte replaced by U+FFFD. -/
def repair (bs : Bytes) : Bytes :=
  (pieces bs).flatMap fun
    | .char _ cs => cs
    | .stray _ => replacement

end Scriptlet.Utf8
