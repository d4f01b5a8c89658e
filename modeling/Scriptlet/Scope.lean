/-
  Scriptlet.Scope

  Lexical scopes. All scopes of an interpreter live in one heap, in the order
  of their creation; a scope refers to the one around it by its place there.
-/
import Scriptlet.Value

namespace Scriptlet

/-! ## Bindings -/

/-- Names with their values, in the order in which they were first bound. -/
abbrev Bindings := List (Name × Value)

namespace Bindings

/-- The value bound to a name. -/
def find? (bs : Bindings) (name : Name) : Option Value := bs.lookup name

/-- Binds a name, in the place of its former binding if it had one. -/
def bind (name : Name) (v : Value) : Bindings → Bindings
  | [] => [(name, v)]
  | (n, w) :: rest => if n == name then (n, v) :: rest else (n, w) :: bind name v rest

/-- The bound names. -/
def names (bs : Bindings) : List Name := bs.map Prod.fst

end Bindings

/-! ## The heap -/

/-- One scope: the scope around it, if it is not a root, and its own
    bindings. -/
structure Scope where
  outer : Option ScopeId
  bindings : Bindings

/-- The heap of scopes. -/
structure Scopes where
  cells : Array Scope

namespace Scopes

def empty : Scopes := ⟨#[]⟩

def size (s : Scopes) : Nat := s.cells.size

def get? (s : Scopes) (i : ScopeId) : Option Scope := s.cells[i]?

/-- Adds an empty scope inside `outer`, or an empty root. -/
def push (s : Scopes) (outer : Option ScopeId) : ScopeId × Scopes :=
  (s.cells.size, ⟨s.cells.push ⟨outer, []⟩⟩)

/-- The scope and the scopes around it, nearest first, at most `fuel` of
    them. -/
def chainFrom (s : Scopes) : Nat → ScopeId → List ScopeId
  | 0, _ => []
  | fuel + 1, i =>
    match s.get? i with
    | none => []
    | some scope =>
      match scope.outer with
      | none => [i]
      | some o => i :: s.chainFrom fuel o

/-- The scope and the scopes around it, nearest first. A scope is younger than
    the one around it, so the chain is no longer than its place. -/
def chain (s : Scopes) (i : ScopeId) : List ScopeId := s.chainFrom (i + 1) i

/-- The value that a scope itself binds to a name. -/
def own? (s : Scopes) (i : ScopeId) (name : Name) : Option Value :=
  (s.get? i).bind fun scope => scope.bindings.find? name

/-- The nearest scope that binds a name. -/
def owner? (s : Scopes) (i : ScopeId) (name : Name) : Option ScopeId :=
  (s.chain i).find? fun o => (s.own? o name).isSome

/-- The value of a name as seen from a scope. -/
def lookup? (s : Scopes) (i : ScopeId) (name : Name) : Option Value :=
  (s.owner? i name).bind fun o => s.own? o name

def outer? (s : Scopes) (i : ScopeId) : Option ScopeId := (s.get? i).bind Scope.outer

/-- Whether no scope is around this one. -/
def isRoot (s : Scopes) (i : ScopeId) : Bool := (s.outer? i).isNone

/-- Binds a name in a scope, whatever the scopes around it bind. -/
def define (s : Scopes) (i : ScopeId) (name : Name) (v : Value) : Scopes :=
  ⟨s.cells.modify i fun scope => { scope with bindings := scope.bindings.bind name v }⟩

/-- The scope that an assignment to a name writes to: the nearest one that binds
    it, or a root itself. Anywhere else the name has to exist. -/
def target? (s : Scopes) (i : ScopeId) (name : Name) : Option ScopeId :=
  match s.owner? i name with
  | some o => some o
  -- Only the scope asked for may create the name, and only if it is a root.
  | none => if s.isRoot i then some i else none

/-- Assigns to a name as seen from a scope. -/
def assign (s : Scopes) (i : ScopeId) (name : Name) (v : Value) : Option Scopes :=
  (s.target? i name).map fun o => s.define o name v

/-- The names that a scope itself binds, sorted. -/
def names (s : Scopes) (i : ScopeId) : List Name :=
  match s.get? i with
  | some scope => Bytes.sort scope.bindings.names
  | none => []

/-- Binds parameters in order. A parameter without an argument is false, and
    arguments without a parameter are dropped. -/
def bindParameters (s : Scopes) (i : ScopeId) : List Name → List Value → Scopes
  | [], _ => s
  -- A parameter that is there twice keeps the last of its arguments.
  | p :: ps, [] => (s.define i p (.bool false)).bindParameters i ps []
  | p :: ps, a :: as => (s.define i p a).bindParameters i ps as

/-- The scope of a call: a new one inside the scope of the function, with the
    parameters bound. -/
def enter (s : Scopes) (home : ScopeId) (parameters : List Name) (arguments : List Value) :
    ScopeId × Scopes :=
  let (i, s) := s.push (some home)
  (i, s.bindParameters i parameters arguments)

end Scopes

end Scriptlet
