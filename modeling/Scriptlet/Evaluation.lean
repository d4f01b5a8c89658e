/-
  Scriptlet.Evaluation

  Evaluation of trees. A return is a value on its way out, which every
  construct passes on unchanged up to the call that it leaves.
-/
import Scriptlet.Scope
import Scriptlet.Value.Operator
import Scriptlet.Limits
import Scriptlet.Host

namespace Scriptlet

/-! ## State and outcome -/

/-- What an evaluation did. Whatever it binds to a name stands here: arguments
    of a function entered in a scope of its own, functions declared and values
    assigned in a scope. -/
inductive Event where
  | entered (scope : ScopeId) (function : Function) (arguments : List Value) (depth : Nat)
  | declared (scope : ScopeId) (function : Function)
  | assigned (scope : ScopeId) (name : Name) (value : Value)
  | invoked (function : HostFunction) (arguments : List Value)
  | operated (operands : List Value)
  | looped

/-- The state of an evaluation: the scopes, the identities and the checks for
    interruption used so far, what was written and what was done, the last two
    newest first. -/
structure State where
  scopes : Scopes
  identities : Nat
  checks : Nat
  written : List Bytes
  events : List Event

/-- How an evaluation ended: with a value, with a fault, or not within its
    fuel. -/
inductive Outcome where
  | value (v : Value)
  | fault (f : Fault)
  | starved

/-- An outcome and the state behind it. -/
structure Result where
  outcome : Outcome
  state : State

/-- What stays fixed during an evaluation. -/
structure Setting where
  host : Host
  sink : Sink
  context : Context
  maxCallDepth : Int

namespace State

/-- The state after one more event. -/
def note (st : State) (e : Event) : State := { st with events := e :: st.events }

/-- Declares a function: its name is bound in the scope to a new closure. -/
def declare (st : State) (scope : ScopeId) (f : Function) : Result :=
  let closure := Value.closure st.identities f scope
  let st := st.note (.declared scope f)
  ⟨.value closure,
    { st with scopes := st.scopes.define scope f.name closure, identities := st.identities + 1 }⟩

/-- The value of a name. -/
def read (st : State) (scope : ScopeId) (name : Name) : Result :=
  match st.scopes.lookup? scope name with
  | some v => ⟨.value v, st⟩
  | none => ⟨.fault (.eval (.unbound name)), st⟩

/-- Assigns to a name. -/
def write (st : State) (scope : ScopeId) (name : Name) (v : Value) : Result :=
  match st.scopes.target? scope name with
  | some o => ⟨.value v, { st with scopes := st.scopes.define o name v }.note (.assigned o name v)⟩
  | none => ⟨.fault (.eval (.unbound name)), st⟩

/-- Applies an operator. -/
def operate (st : State) (operands : List Value) (result : Except EvalProblem Value) : Result :=
  match result with
  | .ok v => ⟨.value v, st.note (.operated operands)⟩
  | .error problem => ⟨.fault (.eval problem), st.note (.operated operands)⟩

/-- Calls a host function. -/
def invoke (st : State) (w : Setting) (name : Name) (f : HostFunction) (arguments : List Value) :
    Result :=
  let reply := w.host.call f w.sink arguments
  let st := st.note (.invoked f arguments)
  let st := { st with written := reply.written :: st.written }
  match reply.result with
  | .error fault => ⟨.fault (fault.raisedBy name), st⟩
  -- A function without a value gives false.
  | .ok none => ⟨.value (.bool false), st⟩
  | .ok (some v) => ⟨.value v, st⟩

/-- Enters a function as the `depth`-th active call: its parameters are bound in
    a new scope inside the one where it was declared. -/
def enter (st : State) (function : Function) (home : ScopeId) (arguments : List Value)
    (depth : Nat) : ScopeId × State :=
  let (scope, scopes) := st.scopes.enter home function.parameters arguments
  (scope, { st with scopes }.note (.entered scope function arguments depth))

/-- One check for interruption: the state goes on, or stops with a fault. -/
@[inline]
def check (st : State) (w : Setting) (go : State → Result) : Result :=
  let after := { st with checks := st.checks + 1 }
  match w.context.status st.checks with
  | some i => ⟨.fault (.interrupted i), after⟩
  | none => go after

end State

/-- Goes on with a value. A return on its way out, a fault and the end of the
    fuel are passed on. -/
@[inline]
def Result.andThen (r : Result) (go : Value → State → Result) : Result :=
  match r with
  | ⟨.value v, st⟩ => if v.isReturned then ⟨.value v, st⟩ else go v st
  | ⟨.fault f, st⟩ => ⟨.fault f, st⟩
  | ⟨.starved, st⟩ => ⟨.starved, st⟩

/-- Changes the value of an outcome, a return on its way out included. -/
@[inline]
def Result.map (f : Value → Value) (r : Result) : Result :=
  match r with
  | ⟨.value v, st⟩ => ⟨.value (f v), st⟩
  | ⟨.fault f, st⟩ => ⟨.fault f, st⟩
  | ⟨.starved, st⟩ => ⟨.starved, st⟩

/-- The value of a call: what its body returned, and false if it returned
    nothing. -/
def Value.ofBody : Value → Value
  | .returned v => v
  | _ => .bool false

/-! ## Evaluation -/

mutual

/-- Evaluates a node in a scope, inside `depth` calls. -/
def eval (w : Setting) : Nat → Nat → ScopeId → Node → State → Result
  | 0, _, _, _, st => ⟨.starved, st⟩
  | fuel + 1, depth, scope, node, st =>
    match node with
    | .program statements =>
      (evalSequence w fuel depth scope statements (.bool false) st).map Value.unwrap
    | .block body => evalSequence w fuel depth scope body.statements (.bool false) st
    | .int n => ⟨.value (.int n), st⟩
    | .float d => ⟨.value (.float d), st⟩
    | .str s => ⟨.value (.str s), st⟩
    | .bool b => ⟨.value (.bool b), st⟩
    | .ident name => st.read scope name
    | .unary op operand =>
      (eval w fuel depth scope operand st).andThen fun v st => st.operate [v] (op.apply v)
    | .binary op left right =>
      (eval w fuel depth scope left st).andThen fun l st =>
        match op with
        -- Only a false left operand spares the right one, and what `and` hands on then is false.
        | .and => if l.isFalse then ⟨.value (.bool false), st⟩ else eval w fuel depth scope right st
        | .or => if l.isFalse then eval w fuel depth scope right st else ⟨.value l, st⟩
        | op =>
          (eval w fuel depth scope right st).andThen fun r st => st.operate [l, r] (op.apply l r)
    | .assign (.ident name) value =>
      (eval w fuel depth scope value st).andThen fun v st => st.write scope name v
    -- The value is not evaluated if there is no name to assign it to.
    | .assign target _ => ⟨.fault (.eval (.notAssignable target)), st⟩
    | .call callee arguments =>
      (eval w fuel depth scope callee st).andThen fun f st =>
        evalCall w fuel depth scope f arguments [] st
    | .func name parameters body => st.declare scope ⟨name, parameters, body⟩
    | .branch condition body tail =>
      (eval w fuel depth scope condition st).andThen fun c st =>
        if c.isFalse then evalTail w fuel depth scope tail st
        else evalSequence w fuel depth scope body.statements (.bool false) st
    | .loop condition body => evalLoop w fuel depth scope condition body (.bool false) st
    | .ret value =>
      (eval w fuel depth scope value st).andThen fun v st => ⟨.value (.returned v), st⟩
    -- No parser makes the two that follow; a tree that is put together by hand may hold them.
    | .otherwise _ => ⟨.fault (.eval .strayElse), st⟩
    | .absent => ⟨.fault (.eval .missingNode), st⟩

/-- Evaluates statements in order; the value is that of the last one, and
    `last` if there is none. -/
def evalSequence (w : Setting) :
    Nat → Nat → ScopeId → List Node → Value → State → Result
  | 0, _, _, _, _, st => ⟨.starved, st⟩
  | _ + 1, _, _, [], last, st => ⟨.value last, st⟩
  | fuel + 1, depth, scope, s :: ss, _, st =>
    (eval w fuel depth scope s st).andThen fun v st => evalSequence w fuel depth scope ss v st

/-- Evaluates the branches of a conditional whose earlier conditions were
    false. -/
def evalTail (w : Setting) : Nat → Nat → ScopeId → Tail → State → Result
  | 0, _, _, _, st => ⟨.starved, st⟩
  | fuel + 1, depth, scope, tail, st =>
    match tail with
    | .none => ⟨.value (.bool false), st⟩
    | .else body => evalSequence w fuel depth scope body.statements (.bool false) st
    | .elif condition body rest =>
      (eval w fuel depth scope condition st).andThen fun c st =>
        if c.isFalse then evalTail w fuel depth scope rest st
        else evalSequence w fuel depth scope body.statements (.bool false) st

/-- Evaluates a loop; the value is that of its last round, and `last` if there
    is none. Every round starts with a check for interruption. -/
def evalLoop (w : Setting) :
    Nat → Nat → ScopeId → Node → Block → Value → State → Result
  | 0, _, _, _, _, _, st => ⟨.starved, st⟩
  | fuel + 1, depth, scope, condition, body, last, st =>
    st.check w fun st =>
      (eval w fuel depth scope condition (st.note .looped)).andThen fun c st =>
        if c.isFalse then ⟨.value last, st⟩
        else
          (evalSequence w fuel depth scope body.statements (.bool false) st).andThen fun v st =>
            evalLoop w fuel depth scope condition body v st

/-- Evaluates the arguments of a call from left to right, `done` being the
    values so far, last first, and then applies the function. -/
def evalCall (w : Setting) :
    Nat → Nat → ScopeId → Value → List Node → List Value → State → Result
  | 0, _, _, _, _, _, st => ⟨.starved, st⟩
  | fuel + 1, depth, _, f, [], done, st => apply w fuel depth f done.reverse st
  | fuel + 1, depth, scope, f, a :: as, done, st =>
    (eval w fuel depth scope a st).andThen fun v st =>
      evalCall w fuel depth scope f as (v :: done) st

/-- Applies a function to arguments, after a check for interruption. -/
def apply (w : Setting) : Nat → Nat → Value → List Value → State → Result
  | 0, _, _, _, st => ⟨.starved, st⟩
  | fuel + 1, depth, f, arguments, st =>
    st.check w fun st =>
      match f with
      | .closure _ function home =>
        -- A limit that is not positive is off.
        if 0 < w.maxCallDepth && w.maxCallDepth ≤ depth then
          ⟨.fault (.eval (.tooDeep w.maxCallDepth function.name)), st⟩
        else
          let (scope, st) := st.enter function home arguments (depth + 1)
          -- Whatever mark the body ends with stays inside the call.
          (evalSequence w fuel (depth + 1) scope function.body.statements (.bool false) st).map
            Value.ofBody
      | .builtin _ name function => st.invoke w name function arguments
      | v => ⟨.fault (.eval (.notCallable v)), st⟩

end

end Scriptlet
