/-
  Scriptlet.Registry

  The registry of builtins: the host functions that every new global scope
  binds, and the policy on changing them.
-/
import Scriptlet.Text.Blank
import Scriptlet.Scope
import Scriptlet.Fault

namespace Scriptlet

/-- The registered builtins, and whether a name may be registered again and
    whether changes are refused. -/
structure Registry where
  table : List (Name × HostFunction)
  allowOverride : Bool
  frozen : Bool
deriving Repr

namespace Registry

/-- Only the function that prints. -/
def initial : Registry := ⟨[(text "Out", .out)], false, false⟩

/-- The function registered under a name, blanks around it aside. -/
def find? (r : Registry) (name : Bytes) : Option HostFunction := r.table.lookup (Blank.trim name)

/-- The registered names, sorted. -/
def names (r : Registry) : List Name := Bytes.sort (r.table.map Prod.fst)

/-- The table without a name. -/
def without (name : Name) (table : List (Name × HostFunction)) : List (Name × HostFunction) :=
  table.filter fun entry => entry.1 != name

/-- Registers a function under a name, blanks around it aside. -/
def register (r : Registry) (name : Bytes) (f : Option HostFunction) :
    Except RegistryProblem Registry :=
  let n := Blank.trim name
  match f with
  | none => .error .invalidRegistration
  | some f =>
    if n.isEmpty then .error .invalidRegistration
    else if !isVariableName n then .error (.invalidName n)
    -- A name has to be right even if nothing may be registered now.
    else if r.frozen then .error .frozen
    else if (r.table.lookup n).isSome && !r.allowOverride then .error (.alreadyRegistered n)
    else .ok { r with table := (n, f) :: without n r.table }

/-- Removes a name, blanks around it aside. -/
def unregister (r : Registry) (name : Bytes) : Except RegistryProblem Registry :=
  let n := Blank.trim name
  if r.frozen then .error .frozen
  else if (r.table.lookup n).isNone then .error (.notRegistered n)
  else .ok { r with table := without n r.table }

def freeze (r : Registry) : Registry := { r with frozen := true }

def unfreeze (r : Registry) : Registry := { r with frozen := false }

/-- Binds every entry of a table in a scope, to a builtin of its own. -/
def bindAll (s : Scopes) (i : ScopeId) (identity : Nat) : List (Name × HostFunction) → Scopes × Nat
  | [] => (s, identity)
  | (name, f) :: entries =>
    bindAll (s.define i name (.builtin identity name f)) i (identity + 1) entries

/-- Adds a root scope that binds every registered builtin. The identities used
    start at the one given, and the next free one is returned. -/
def pushGlobal (r : Registry) (s : Scopes) (identity : Nat) : ScopeId × Scopes × Nat :=
  let (i, s) := s.push none
  let (s, identity) := bindAll s i identity r.table
  (i, s, identity)

end Registry

end Scriptlet
