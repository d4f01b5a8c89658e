/-
  Scriptlet.Interpreter

  An interpreter: a global scope that lasts from run to run, and the runs of
  scripts and trees in it.
-/
import Scriptlet.Tree.Parser
import Scriptlet.Evaluation
import Scriptlet.Registry
import Scriptlet.Global
import Scriptlet.ProgramCache

namespace Scriptlet

/-- A line of the log about one run. -/
inductive LogEntry where
  | failed (fault : Fault)
  | completed (statements : Nat)

namespace LogEntry

def level : LogEntry → Bytes
  | .failed _ => text "error"
  | .completed _ => text "info"

def message : LogEntry → Bytes
  | .failed _ => text "script run failed"
  | .completed _ => text "script run completed"

end LogEntry

/-- An interpreter. Its global scope is the first of its heap; limits of its
    own replace those of the process. -/
structure Interpreter where
  scopes : Scopes
  identities : Nat
  sink : Sink
  limits : Option Limits
  hasLogger : Bool
  cache : Option ProgramCache

/-- The circumstances of one run. -/
structure Occasion where
  host : Host
  context : Context
  override : Override
  processLimits : Limits
  fuel : Nat

/-- What a run gave: its outcome, what was written, what was logged, and the
    interpreter after it. -/
structure Report where
  outcome : Outcome
  output : Bytes
  log : List LogEntry
  interpreter : Interpreter

/-- Steps that no run takes in any time that can be observed. -/
def Occasion.ample : Nat := 1000000000000000

/-- A run in the background without limits. -/
def Occasion.plain (host : Host) : Occasion :=
  ⟨host, Context.background, Override.none, Limits.none, Occasion.ample⟩

namespace Interpreter

/-- The place of the global scope. -/
def globalScope : ScopeId := 0

/-- A new interpreter with the registered builtins. -/
def ofRegistry (r : Registry) : Interpreter :=
  let (_, scopes, identities) := r.pushGlobal Scopes.empty 0
  ⟨scopes, identities, .open, none, false, none⟩

/-- Defines globals, in the order of their names. -/
def defineGlobals (i : Interpreter) (globals : List (Bytes × HostValue)) :
    Except Fault Interpreter :=
  match defineAll globalScope (sortGlobals globals) i.scopes i.identities with
  | .ok (scopes, identities) => .ok { i with scopes, identities }
  | .error fault => .error fault

/-! ## Globals one by one -/

/-- The value of a global. -/
def get (i : Interpreter) (name : Name) : Except Fault Value :=
  match i.scopes.lookup? globalScope name with
  | some v => .ok v
  | none => .error (.eval (.unbound name))

/-- Defines one global, whatever its name. -/
def define (i : Interpreter) (name : Name) (h : HostValue) : Except Fault (Value × Interpreter) :=
  match h.toValue i.identities with
  | .error problem => .error (.global problem)
  | .ok v =>
    -- One identity is used up, whether or not the value needs it.
    .ok (v, { i with scopes := i.scopes.define globalScope name v, identities := i.identities + 1 })

/-- The global names, sorted. -/
def names (i : Interpreter) : List Name := i.scopes.names globalScope

/-! ## Runs -/

/-- The limits of a run: those of the interpreter or else of the process, after
    the override of the occasion. -/
def effectiveLimits (i : Interpreter) (o : Occasion) : Limits :=
  (i.limits.getD o.processLimits).replaced o.override

/-- The evaluation of a node in the global scope. -/
def start (i : Interpreter) (o : Occasion) (node : Node) : Result :=
  let limits := i.effectiveLimits o
  -- The clock starts with the evaluation, after the source was parsed.
  let setting : Setting :=
    ⟨o.host, i.sink, o.context.withTimeout o.host.clock limits.timeout, limits.maxCallDepth⟩
  eval setting o.fuel 0 globalScope node ⟨i.scopes, i.identities, 0, [], []⟩

/-- Evaluates a node in the global scope. A return ends the evaluation with its
    value. -/
def evaluate (i : Interpreter) (o : Occasion) (node : Node) : Report :=
  let r := (i.start o node).map Value.unwrap
  { outcome := r.outcome
    output := r.state.written.reverse.flatten
    log := []
    interpreter := { i with scopes := r.state.scopes, identities := r.state.identities } }

/-- Parses a source, or takes its program from the cache. Only what parses is
    stored there. -/
def parse (i : Interpreter) (source : Bytes) : Except Fault Program × Interpreter :=
  match i.cache with
  | none => (Scriptlet.parse source, i)
  | some cache =>
    match cache.get source with
    | (some p, cache) => (.ok p, { i with cache := some cache })
    -- The miss is counted even if the source does not parse.
    | (none, cache) =>
      match Scriptlet.parse source with
      | .ok p => (.ok p, { i with cache := some (cache.set source p) })
      | .error fault => (.error fault, { i with cache := some cache })

/-- The log entries of a run, if runs are logged. -/
def logged (i : Interpreter) (o : Occasion) (statements : Nat) (outcome : Outcome) :
    List LogEntry :=
  if (i.effectiveLimits o).logExecution && i.hasLogger then
    match outcome with
    | .fault fault => [.failed fault]
    | .value _ => [.completed statements]
    | .starved => []
  else []

/-- Runs a script: its value is that of its last statement. -/
def run (i : Interpreter) (o : Occasion) (source : Bytes) : Report :=
  match i.parse source with
  -- Nothing was evaluated, so nothing was written.
  | (.error fault, i) => ⟨.fault fault, [], i.logged o 0 (.fault fault), i⟩
  | (.ok p, i) =>
    let report := i.evaluate o (.program p.statements)
    { report with log := i.logged o p.statements.length report.outcome }

end Interpreter

end Scriptlet
