/-
  Scriptlet.Text.Quoted

  Quoted text for messages: a text between double quotes, or one character
  between single quotes, with everything unprintable escaped.
-/
import Scriptlet.Text.Utf8
import Scriptlet.Text.Printable

namespace Scriptlet.Quoted

/-- The letter after the backslash for the control characters that have one. -/
def letter? (code : Nat) : Option UInt8 :=
  match code with
  | 7 => some 97
  | 8 => some 98
  | 9 => some 116
  | 10 => some 110
  | 11 => some 118
  | 12 => some 102
  | 13 => some 114
  | _ => none

/-- A character inside quotes of the kind `mark`: the quote and the backslash
    stand behind a backslash, printable characters for themselves, control
    characters as their letter or as two hexadecimal digits, and the others as
    four or eight. -/
def escapeChar (mark : UInt8) (code : Nat) : Bytes :=
  if code == mark.toNat || code == 92 then 92 :: Utf8.encode code
  else if Printable.isPrintable code then Utf8.encode code
  else
    match letter? code with
    | some l => [92, l]
    | none =>
      if code < 0x20 || code == 0x7F then text "\\x" ++ Bytes.hex 2 code
      else if code < 0x10000 then text "\\u" ++ Bytes.hex 4 code
      else text "\\U" ++ Bytes.hex 8 code

/-- A piece of text inside quotes; a stray byte is written as two hexadecimal
    digits. -/
def escapePiece (mark : UInt8) : Utf8.Piece → Bytes
  | .char code _ => escapeChar mark code
  | .stray b => text "\\x" ++ Bytes.hex 2 b.toNat

/-- The text between double quotes. -/
def quote (bs : Bytes) : Bytes :=
  34 :: (Utf8.pieces bs).flatMap (escapePiece 34) ++ [34]

/-- The character with the given code point between single quotes. -/
def quoteChar (code : Nat) : Bytes := 39 :: escapeChar 39 code ++ [39]

end Scriptlet.Quoted
