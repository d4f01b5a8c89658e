/-
  Scriptlet.Text.Expansion

  References to variables in a text, `$NAME` and `${NAME}`, and their replacement
  by the values of the variables.
-/
import Scriptlet.Text.Bytes

namespace Scriptlet.Expansion

/-- A name of one byte: a digit, or one of the marks `* # $ @ ! ? -`. -/
def isSpecial (b : UInt8) : Bool := Bytes.isDigit b || (text "*#$@!?-").contains b

/-- A byte of a longer name: a letter, a digit or an underscore. -/
def isNamePart (b : UInt8) : Bool :=
  b == 95 || Bytes.isDigit b || (97 ≤ b && b ≤ 122) || (65 ≤ b && b ≤ 90)

/-- What the bytes behind a dollar sign are: the name of a variable, a faulty
    reference, or no reference at all, with the number of bytes that belong to
    it. -/
inductive Reference where
  | named (name : Bytes) (width : Nat)
  | faulty (width : Nat)
  | none
deriving DecidableEq, Repr

/-- The reference behind a dollar sign. In braces any name may stand. -/
def reference (bs : Bytes) : Reference :=
  match bs with
  | [] => .none
  | 123 :: rest =>
    let name := rest.takeWhile (· != 125)
    if name.length == rest.length then .faulty 1
    else if name.isEmpty then .faulty 2
    else .named name (name.length + 2)
  | b :: _ =>
    if isSpecial b then .named [b] 1
    else
      let name := bs.takeWhile isNamePart
      if name.isEmpty then .none else .named name name.length

/-- The text with every reference replaced. A faulty reference vanishes, and a
    dollar sign without a reference stays. -/
def expand (value : Bytes → Bytes) : Bytes → Bytes
  | [] => []
  | 36 :: rest =>
    match reference rest with
    | .named name width => value name ++ expand value (rest.drop width)
    | .faulty width => expand value (rest.drop width)
    | .none => 36 :: expand value rest
  | b :: rest => b :: expand value rest
termination_by bs => bs.length
decreasing_by all_goals (simp only [List.length_cons, List.length_drop]; omega)

/-- The names of the variables that a text refers to, in order. -/
def names : Bytes → List Bytes
  | [] => []
  | 36 :: rest =>
    match reference rest with
    | .named name width => name :: names (rest.drop width)
    | .faulty width => names (rest.drop width)
    | .none => names rest
  | _ :: rest => names rest
termination_by bs => bs.length
decreasing_by all_goals (simp only [List.length_cons, List.length_drop]; omega)

end Scriptlet.Expansion
