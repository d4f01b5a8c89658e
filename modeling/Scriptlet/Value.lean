/-
  Scriptlet.Value

  The values of scripts: their kinds, their text, truth and equality, and the
  plain data that a host gets back.
-/
import Scriptlet.Tree.Render

namespace Scriptlet

/-- A function that the host provides: the one that prints, or one that the
    host knows by a key. -/
inductive HostFunction where
  | out
  | custom (key : Bytes)
deriving DecidableEq, Repr

/-- The place of a scope in the heap of scopes. -/
abbrev ScopeId := Nat

/-- A value. Closures and builtins have an identity, by which they are
    compared. `returned` marks a return that is on its way out of the blocks
    around it. -/
inductive Value where
  | int (n : Int64)
  | float (d : Double)
  | bool (b : Bool)
  | str (s : Bytes)
  | closure (identity : Nat) (function : Function) (scope : ScopeId)
  | builtin (identity : Nat) (name : Name) (function : HostFunction)
  | returned (value : Value)

namespace Value

/-! ## Text -/

/-- The name of the kind of a value. -/
def kind : Value → Bytes
  | .int _ => text "integer"
  | .float _ => text "float"
  | .bool _ => text "boolean"
  | .str _ => text "string"
  | .closure _ _ _ => text "function"
  | .builtin _ _ _ => text "builtin"
  | .returned _ => text "return"

/-- The text of a value as it is printed. -/
def inspect : Value → Bytes
  | .int n => Bytes.ofInt n.toInt
  | .float d => d.general
  | .bool b => text (if b then "true" else "false")
  | .str s => s
  | .closure _ f _ => renderHead f.name f.parameters
  | .builtin _ name _ => text "builtin " ++ name
  | .returned v => v.inspect

/-- The kind and the text of a value, a string in quotes. -/
def describe (v : Value) : Bytes :=
  match v with
  | .str s => v.kind ++ text " " ++ Quoted.quote s
  | _ => v.kind ++ text " " ++ v.inspect

/-! ## Truth and numbers -/

/-- Only the boolean false is false to conditions and to the two lazy
    operators. -/
def isFalse : Value → Bool
  | .bool false => true
  | _ => false

def isReturned : Value → Bool
  | .returned _ => true
  | _ => false

/-- The value inside a return on its way out. -/
def unwrap : Value → Value
  | .returned v => v
  | v => v

def isNumber : Value → Bool
  | .int _ | .float _ => true
  | _ => false

/-- A number as a binary64 number; zero for other values. -/
def toDouble : Value → Double
  | .int n => Double.ofInt n.toInt
  | .float d => d
  | _ => Double.zero

/-- Whether a value is a number equal to zero. -/
def isZero : Value → Bool
  | .int n => n == 0
  | .float d => d.isZero
  | _ => false

/-- Equality of values: integers exactly, other pairs of numbers as binary64
    numbers, functions by identity, and values of different kinds never. -/
def equal : Value → Value → Bool
  | .int a, .int b => a == b
  | .int a, .float b => (Double.ofInt a.toInt).equal b
  | .float a, .int b => a.equal (Double.ofInt b.toInt)
  | .float a, .float b => a.equal b
  | .bool a, .bool b => a == b
  | .str a, .str b => a == b
  | .closure a _ _, .closure b _ _ => a == b
  | .builtin a _ _, .builtin b _ _ => a == b
  | _, _ => false

end Value

/-- The plain data of a value, for the host. -/
inductive Datum where
  | int (n : Int64)
  | float (d : Double)
  | bool (b : Bool)
  | str (s : Bytes)
deriving DecidableEq, Repr

/-- What the host gets for a value: numbers, booleans and strings as they are,
    functions as their text. -/
def Value.datum : Value → Datum
  | .int n => .int n
  | .float d => .float d
  | .bool b => .bool b
  | .str s => .str s
  | .returned v => v.datum
  | v => .str v.inspect

end Scriptlet
