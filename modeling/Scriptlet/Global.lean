/-
  Scriptlet.Global

  Values that the host hands to scripts, and the globals made of them.
-/
import Scriptlet.Number.Word
import Scriptlet.Scope
import Scriptlet.Fault

namespace Scriptlet

/-- A value of the host. A value of scripts stands for itself, and a function
    may come as a builtin with a name of its own. -/
inductive HostValue where
  | absent
  | value (v : Value)
  | function (f : HostFunction)
  | builtin (name : Name) (f : HostFunction)
  | int (n : Int64)
  | natural (n : UInt64)
  | double (d : Double)
  | bool (b : Bool)
  | str (s : Bytes)
  | unsupported (typeName : Bytes)

namespace HostValue

/-- The name of a builtin that has none of its own yet. -/
def anonymous : Name := text "host"

/-- The value of a script for a value of the host. Nothing is false, and a
    natural number beyond the integers is the nearest float. A function becomes
    a builtin, and every builtin has the identity given. -/
def toValue (identity : Nat) : HostValue → Except GlobalProblem Value
  | .absent => .ok (.bool false)
  | .value v => .ok v
  | .function f => .ok (.builtin identity anonymous f)
  | .builtin name f => .ok (.builtin identity name f)
  | .int n => .ok (.int n)
  | .natural n =>
    if Word.holds n.toNat then .ok (.int (Int64.ofNat n.toNat))
    else .ok (.float (Double.ofInt n.toNat))
  | .double d => .ok (.float d)
  | .bool b => .ok (.bool b)
  | .str s => .ok (.str s)
  | .unsupported typeName => .error (.unsupported typeName)

end HostValue

/-- A builtin without a name of its own takes the name of its global. -/
def Value.named (name : Name) : Value → Value
  | .builtin identity n f =>
    if n == HostValue.anonymous then .builtin identity name f else .builtin identity n f
  | v => v

/-- The bindings of globals, in the order of their names. -/
def sortGlobals (globals : List (Bytes × HostValue)) : List (Bytes × HostValue) :=
  globals.mergeSort fun a b => decide (a.1 ≤ b.1)

/-- Binds globals in a scope in the order given. The identities used start at
    the one given, and the next free one is returned. -/
def defineAll (i : ScopeId) :
    List (Bytes × HostValue) → Scopes → Nat → Except Fault (Scopes × Nat)
  | [], s, identity => .ok (s, identity)
  | (name, h) :: globals, s, identity =>
    if !isVariableName name then .error (.global (.invalidName name))
    else
      match h.toValue identity with
      | .error problem => .error (.within (text "global " ++ name) (.global problem))
      -- The name of the global becomes that of a function that has none.
      | .ok v => defineAll i globals (s.define i name (v.named name)) (identity + 1)

end Scriptlet
