/-
  Scriptlet.Yaml.Characters

  The characters of a YAML text: its encoding, the characters it may hold, and
  the classes that its rules are about.
-/
import Scriptlet.Text.Utf8

namespace Scriptlet.Yaml

/-! ## Encodings -/

/-- Whether a text may hold a character: no control characters but tabs and line
    breaks, and neither of the last two of the first plane. -/
def isReadable (code : Nat) : Bool :=
  code == 9 || code == 10 || code == 13 || code == 0x85 || (0x20 ≤ code && code ≤ 0x7E) ||
    (0xA0 ≤ code && code != 0xFFFE && code != 0xFFFF)

/-- The code points of a text in UTF-8. -/
def codes8? (bs : Bytes) : Option (List Nat) :=
  (Utf8.pieces bs).mapM fun
    | .char code _ => some code
    | .stray _ => none

/-- The units of a text in UTF-16. -/
def units? (bigEndian : Bool) : Bytes → Option (List Nat)
  | [] => some []
  | [_] => none
  | a :: b :: rest =>
    let unit := if bigEndian then a.toNat * 256 + b.toNat else b.toNat * 256 + a.toNat
    (units? bigEndian rest).map (unit :: ·)

/-- The code points of units of UTF-16. -/
def codes16? : List Nat → Option (List Nat)
  | [] => some []
  | u :: us =>
    if u < 0xD800 || 0xE000 ≤ u then (codes16? us).map (u :: ·)
    else
      match us with
      | v :: us =>
        if u < 0xDC00 && 0xDC00 ≤ v && v < 0xE000 then
          (codes16? us).map ((0x10000 + (u - 0xD800) * 0x400 + (v - 0xDC00)) :: ·)
        else none
      | [] => none

/-- The characters of a text, if it is well encoded and may hold them. A byte
    order mark in front tells the encoding and is dropped. -/
def characters? (bs : Bytes) : Option (List Char) :=
  let codes? :=
    match bs with
    | 0xFF :: 0xFE :: rest => (units? false rest).bind codes16?
    | 0xFE :: 0xFF :: rest => (units? true rest).bind codes16?
    | 0xEF :: 0xBB :: 0xBF :: rest => codes8? rest
    | _ => codes8? bs
  codes?.bind fun codes => if codes.all isReadable then some (codes.map Char.ofNat) else none

/-- The bytes of characters in UTF-8. -/
def bytes (cs : List Char) : Bytes := cs.flatMap fun c => Utf8.encode c.toNat

/-! ## Classes -/

def isBlank (c : Char) : Bool := c == ' ' || c == '\t'

/-- Whether a character ends a line. -/
def isBreak (c : Char) : Bool :=
  c == '\n' || c == '\r' || c == '\x85' || c == '\u2028' || c == '\u2029'

/-- What a line break stands for in a scalar. The two separators of Unicode
    stand for themselves. -/
def keptBreak (c : Char) : Char := if c == '\u2028' || c == '\u2029' then c else '\n'

/-- Whether a character may stand in the name of an anchor. -/
def isNameChar (c : Char) : Bool := c.isAlphanum || c == '_' || c == '-'

/-- Whether a character may stand in a tag. -/
def isTagChar (c : Char) : Bool := isNameChar c || ";/?:@&=+$,.!~*'()[]".toList.contains c

/-- Whether a text starts at a blank, at the end of a line or at its end. -/
def startsGap : List Char → Bool
  | [] => true
  | c :: _ => isBlank c || isBreak c

end Scriptlet.Yaml
