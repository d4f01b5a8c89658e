/-
  Scriptlet.Json

  JSON documents: their compact text, and reading typed fields out of them.
-/
import Scriptlet.Text.Utf8
import Scriptlet.Number.Decimal
import Scriptlet.Number.Numeral
import Scriptlet.Global

namespace Scriptlet

/-- A document. A number keeps its text, and an object the order of its
    fields. -/
inductive Json where
  | null
  | bool (b : Bool)
  | number (literal : Bytes)
  | str (s : Bytes)
  | list (items : List Json)
  | object (fields : List (Bytes × Json))

namespace Json

instance : Inhabited Json := ⟨.null⟩

def ofInt (n : Int) : Json := .number (Bytes.ofInt n)

def ofNat (n : Nat) : Json := .number (Bytes.ofNat n)

/-- The number of a finite double; there is none for the others. -/
def ofDouble? (d : Double) : Option Json :=
  if d.isFinite then some (.number d.document) else none

/-! ## Text -/

/-- The letter after the backslash for the control characters that have one. -/
def letter? (code : Nat) : Option UInt8 :=
  match code with
  | 8 => some 98
  | 9 => some 116
  | 10 => some 110
  | 12 => some 102
  | 13 => some 114
  | _ => none

/-- A character inside a string. The marks of tags and entities and the two
    line separators of Unicode are escaped too, so that the text can stand in a
    page or a script. -/
def escapeChar (code : Nat) : Bytes :=
  if code == 34 || code == 92 then [92, UInt8.ofNat code]
  else
    match letter? code with
    | some l => [92, l]
    | none =>
      if code < 0x20 || code == 0x3C || code == 0x3E || code == 0x26 || code == 0x2028 ||
          code == 0x2029 then
        text "\\u" ++ Bytes.hex 4 code
      else Utf8.encode code

/-- A piece of text inside a string; a stray byte becomes U+FFFD. -/
def escapePiece : Utf8.Piece → Bytes
  | .char code _ => escapeChar code
  | .stray _ => Utf8.replacement

def renderText (s : Bytes) : Bytes := 34 :: (Utf8.pieces s).flatMap escapePiece ++ [34]

mutual

/-- The text of a document without blanks. -/
def render : Json → Bytes
  | .null => text "null"
  | .bool b => if b then text "true" else text "false"
  | .number literal => literal
  | .str s => renderText s
  | .list items => text "[" ++ Bytes.join (text ",") (renderEach items) ++ text "]"
  | .object fields => text "\x7b" ++ Bytes.join (text ",") (renderFields fields) ++ text "\x7d"

def renderEach : List Json → List Bytes
  | [] => []
  | j :: js => j.render :: renderEach js

def renderFields : List (Bytes × Json) → List Bytes
  | [] => []
  | (key, j) :: fields => (renderText key ++ text ":" ++ j.render) :: renderFields fields

end

/-! ## Typed fields -/

/-- A key in the form in which keys are compared: without case, the long s and
    the Kelvin sign being forms of letters. -/
def fold (key : Bytes) : Bytes :=
  (Utf8.pieces key).flatMap fun
    | .char code bs =>
      if code == 0x17F then [115] else if code == 0x212A then [107] else Bytes.lower bs
    | .stray b => [b]

/-- Takes the fields of an object in order, each by its folded key. Nothing
    stands for an object without fields. -/
def foldFields {α : Type} (step : Bytes → Json → α → Option α) (j : Json) (a : α) : Option α :=
  match j with
  | .null => some a
  | .object fields => fields.foldlM (fun a field => step (fold field.1) field.2 a) a
  | _ => none

/-- A signed 64-bit integer without fraction or exponent; null keeps the
    former value. -/
def toInt? (former : Int) : Json → Option Int
  | .null => some former
  | .number literal => (Numeral.readInt64 literal).toOption
  | _ => none

/-- A string; null keeps the former value. -/
def toText? (former : Bytes) : Json → Option Bytes
  | .null => some former
  | .str s => some s
  | _ => none

/-- A boolean; null keeps the former value. -/
def toBool? (former : Bool) : Json → Option Bool
  | .null => some former
  | .bool b => some b
  | _ => none

mutual

/-- Whether every number of a document is within the range of binary64. -/
def inRange : Json → Bool
  | .number literal => ((Numeral.readDouble literal).map Double.isFinite).getD false
  | .list items => inRangeEach items
  | .object fields => inRangeFields fields
  | _ => true

def inRangeEach : List Json → Bool
  | [] => true
  | j :: js => j.inRange && inRangeEach js

def inRangeFields : List (Bytes × Json) → Bool
  | [] => true
  | (_, j) :: fields => j.inRange && inRangeFields fields

end

/-- A value of the host: numbers are doubles, and lists and objects have no
    counterpart in scripts. -/
def toHost? (j : Json) : Option HostValue :=
  if j.inRange then
    match j with
    | .null => some .absent
    | .bool b => some (.bool b)
    | .number literal => (Numeral.readDouble literal).map .double
    | .str s => some (.str s)
    | .list _ => some (.unsupported (text "[]interface \x7b\x7d"))
    | .object _ => some (.unsupported (text "map[string]interface \x7b\x7d"))
  else none

/-- Named values of the host, added to former ones of which they replace those
    of the same name; null drops them all. -/
def toHostFields? (former : List (Bytes × HostValue)) : Json → Option (List (Bytes × HostValue))
  | .null => some []
  | .object fields =>
    fields.foldlM (fun acc field =>
      field.2.toHost?.map fun h => acc.filter (fun e => e.1 != field.1) ++ [(field.1, h)]) former
  | _ => none

end Json

end Scriptlet
