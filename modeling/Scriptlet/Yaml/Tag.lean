/-
  Scriptlet.Yaml.Tag

  What YAML scalars stand for: the kinds that tags name, and the rules by which
  the text of a plain scalar tells its kind.
-/
import Scriptlet.Number.Numeral
import Scriptlet.Timestamp

namespace Scriptlet.Yaml

/-- The kind of a scalar. A merge is the key of a mapping whose entries are
    taken into the one around it; kinds with names of their own are strings. -/
inductive Tag where
  | null
  | bool
  | int
  | float
  | moment
  | str
  | merge
  | other
deriving DecidableEq, Repr

/-- What a scalar stands for. -/
inductive Meaning where
  | null
  | bool (b : Bool)
  | int (n : Int)
  | float (d : Double)
  | moment
  | str (s : Bytes)

def Meaning.tag : Meaning → Tag
  | .null => .null
  | .bool _ => .bool
  | .int _ => .int
  | .float _ => .float
  | .moment => .moment
  | .str _ => .str

/-! ## Numbers -/

/-- An integer that may have a sign behind the mark of base two or eight. -/
def readMarked (bs : Bytes) : Option Int :=
  let signed (base : Nat) (rest : Bytes) : Option Int :=
    let (negative, digits) := Numeral.sign rest
    (Numeral.readBase base digits).map fun n => if negative then -n else n
  match bs with
  | 48 :: 98 :: rest => signed 2 rest
  | 48 :: 111 :: rest => signed 8 rest
  | _ => none

/-- An integer of 64 bits, signed, or without a sign. -/
def readInteger (bs : Bytes) : Option Int :=
  let (negative, rest) := Numeral.sign bs
  match Numeral.readNatural rest with
  | none => none
  | some n =>
    let z : Int := if negative then -n else n
    if Word.holds z then some z
    -- Without a sign there is one bit more.
    else if rest.length == bs.length && z ≤ 0xFFFFFFFFFFFFFFFF then some z
    else none

/-- A number that is not infinite. -/
def finite (d : Option Double) : Option Double :=
  d.bind fun d => if d.isFinite then some d else none

/-- What digits with signs and marks stand for, underscores being nothing. -/
def readNumber (contents : Bytes) : Option Meaning :=
  let digits := contents.filter (· != 95)
  match readInteger digits, finite (Numeral.readDouble digits) with
  | some n, _ => some (.int n)
  | none, some d => some (.float d)
  | none, none => ((readMarked digits).filter Word.holds).map .int

/-! ## Dates -/

/-- What is left behind the time of a day. -/
def dayTime (bs : Bytes) : Option Bytes := do
  let (_, rest) ← Timestamp.shortNumber 0 23 bs
  let rest ← Timestamp.mark 58 rest
  let (_, rest) ← Timestamp.shortNumber 0 59 rest
  let rest ← Timestamp.mark 58 rest
  let (_, rest) ← Timestamp.shortNumber 0 59 rest
  return (Timestamp.parseFraction rest).2

/-- What is left behind a date with a year of four digits. -/
def date (bs : Bytes) : Option Bytes := do
  let (year, rest) ← Timestamp.number 4 0 9999 bs
  let rest ← Timestamp.mark 45 rest
  let (month, rest) ← Timestamp.shortNumber 1 12 rest
  let rest ← Timestamp.mark 45 rest
  let (_, rest) ← Timestamp.shortNumber 1 (Timestamp.daysIn year month) rest
  return rest

/-- Whether a text is a date, alone, before the time of the day behind blanks,
    or before that and an offset behind a letter. -/
def isMoment (bs : Bytes) : Bool :=
  match date bs with
  | none => false
  | some [] => true
  | some (b :: rest) =>
    if b == 32 then dayTime (rest.dropWhile (· == 32)) == some []
    else if b == 84 || b == 116 then ((dayTime rest).bind Timestamp.parseOffset).isSome
    else false

/-! ## Kinds -/

/-- The words with a meaning of their own. -/
def words : List (String × Meaning) :=
  [("", .null), ("~", .null), ("null", .null), ("Null", .null), ("NULL", .null),
   ("true", .bool true), ("True", .bool true), ("TRUE", .bool true),
   ("false", .bool false), ("False", .bool false), ("FALSE", .bool false),
   (".nan", .float .nan), (".NaN", .float .nan), (".NAN", .float .nan),
   (".inf", .float .infinity), (".Inf", .float .infinity), (".INF", .float .infinity),
   ("+.inf", .float .infinity), ("+.Inf", .float .infinity), ("+.INF", .float .infinity),
   ("-.inf", .float .negInfinity), ("-.Inf", .float .negInfinity), ("-.INF", .float .negInfinity)]

/-- Whether a number may start with this byte. -/
def startsNumber (b : UInt8) : Bool := Bytes.isDigit b || b == 43 || b == 45

/-- What a plain scalar stands for. -/
def meaning (contents : Bytes) : Meaning :=
  match words.find? fun w => text w.1 == contents with
  | some (_, m) => m
  | none =>
    match contents.head? with
    | none => .null
    | some b =>
      if startsNumber b then
        if isMoment contents then .moment else (readNumber contents).getD (.str contents)
      else if b == 46 then
        ((finite (Numeral.readSeparated contents)).map .float).getD (.str contents)
      else .str contents

/-- The mark of a key that merges. -/
def mergeMark : Bytes := text "<<"

/-- The kind of a plain scalar. -/
def Tag.ofPlain (contents : Bytes) : Tag :=
  if contents == mergeMark then .merge else (meaning contents).tag

/-- The kind that a tag names. -/
def Tag.ofName (name : Bytes) : Tag :=
  let known := [("null", Tag.null), ("bool", .bool), ("int", .int), ("float", .float),
    ("timestamp", .moment), ("str", .str), ("merge", .merge)]
  let named := known.find? fun k =>
    name == text "!!" ++ text k.1 || name == text "tag:yaml.org,2002:" ++ text k.1
  (named.map Prod.snd).getD .other

/-- What a text of a kind stands for, if it is of that kind. An integer may be
    meant as a fraction. -/
def Tag.read (tag : Tag) (contents : Bytes) : Option Meaning :=
  match tag with
  | .str | .merge | .other => some (.str contents)
  | _ =>
    match meaning contents, tag with
    -- The digits of an integer are a fraction, too.
    | .int n, .float => if Word.holds n then some (.float (Double.ofInt n)) else none
    | m, _ => if m.tag == tag then some m else none

end Scriptlet.Yaml
