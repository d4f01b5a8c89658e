/-
  Scriptlet.Text.Blank

  The Unicode property White_Space, and trimming by it.
-/
import Scriptlet.Text.Utf8

namespace Scriptlet.Blank

/-- Closed ranges of the 25 code points with the property White_Space. -/
def ranges : List (Nat × Nat) :=
  [(0x09, 0x0D), (0x20, 0x20), (0x85, 0x85), (0xA0, 0xA0), (0x1680, 0x1680), (0x2000, 0x200A),
   (0x2028, 0x2029), (0x202F, 0x202F), (0x205F, 0x205F), (0x3000, 0x3000)]

/-- Whether a code point is white space. -/
def isBlank (code : Nat) : Bool := ranges.any fun r => r.1 ≤ code && code ≤ r.2

/-- Whether a piece of text is white space; a stray byte is not. -/
def isBlankPiece : Utf8.Piece → Bool
  | .char code _ => isBlank code
  | .stray _ => false

/-- The text without the white space at its two ends. -/
def trim (bs : Bytes) : Bytes :=
  let front := (Utf8.pieces bs).dropWhile isBlankPiece
  (front.reverse.dropWhile isBlankPiece).reverse.flatMap Utf8.Piece.bytes

end Scriptlet.Blank
