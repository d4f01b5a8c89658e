/-
  Scriptlet.Service

  The service: it runs, parses and splits scripts on request, and records the
  runs. Every run has an interpreter of its own.
-/
import Scriptlet.Interpreter
import Scriptlet.Config
import Scriptlet.History.Journal
import Scriptlet.Service.Message

namespace Scriptlet

/-- The state of the service. -/
structure Service where
  version : Bytes
  limits : Limits
  globals : List (Bytes × HostValue)
  registry : Registry
  journal : Journal
  cache : Option ProgramCache

/-- What the outside world contributes to one request: host functions, an id
    that no run has yet, when a run starts and how many nanoseconds it
    takes. -/
structure Moment where
  host : Host
  fresh : Bytes
  startedAt : Timestamp
  duration : Int
  fuel : Nat

/-! ## Globals -/

/-- A whole number below 2^53 in size is an integer again. -/
def HostValue.normal : HostValue → HostValue
  | .double d =>
    match d.toInt? with
    -- From 2^53 on not every integer is a double, so the double is kept.
    | some n => if n.natAbs < 0x20000000000000 then .int (Int64.ofInt n) else .double d
    | none => .double d
  | h => h

def normalGlobals (globals : List (Bytes × HostValue)) : List (Bytes × HostValue) :=
  globals.map fun g => (g.1, g.2.normal)

namespace Service

/-! ## Construction -/

/-- A service that keeps its history in memory and no programs. -/
def plain (registry : Registry) (version : Bytes) (limits : Limits)
    (globals : List (Bytes × HostValue)) : Service :=
  ⟨version, limits, normalGlobals globals, registry, Journal.inMemory, none⟩

/-- How many records a configured service keeps. -/
def historyCap : Int := 1000

/-- Why a configured service could not be built. -/
inductive Problem where
  | history (problem : HistoryProblem)
  | historyFile (fault : FileFault)
  | cache (message : Bytes)

def Problem.stage : Problem → Bytes
  | .history _ | .historyFile _ => text "open history"
  | .cache _ => text "create program cache"

def Problem.message : Problem → Bytes
  | .history p => text "open history: " ++ p.message
  | .historyFile fault => text "open history: " ++ fault.message
  | .cache m => text "create program cache: " ++ m

/-- The service of a configuration, given the storage of its history. -/
def ofConfig (registry : Registry) (c : Config) (storage : Storage) : Except Problem Service :=
  match Journal.openWith storage historyCap with
  | .error problem => .error (.history problem)
  | .ok journal =>
    let service : Service :=
      ⟨c.version, c.limits, normalGlobals c.globals, registry, journal, none⟩
    if c.cacheEnabled then
      match ProgramCache.ofCapacity c.maxPrograms with
      | .ok cache => .ok { service with cache := some cache }
      | .error m => .error (.cache m)
    else .ok service

/-! ## Requests -/

/-- A script to work on, with globals of its own. -/
structure Task where
  source : Bytes
  globals : List (Bytes × HostValue)

/-- Takes one field of a request into a task; globals only where they are
    wanted. -/
def readField (withGlobals : Bool) (key : Bytes) (j : Json) (t : Task) : Option Task :=
  if key == text "source" then (j.toText? t.source).map fun s => { t with source := s }
  else if withGlobals && key == text "globals" then
    (j.toHostFields? t.globals).map fun gs => { t with globals := gs }
  else some t

/-- The task of a request, or the response that refuses it. A form holds no
    globals. -/
def task (withGlobals : Bool) (r : Request) : Except Response Task :=
  -- A body of any other type is refused like one that cannot be read.
  let decoded :=
    if ContentType.isJson r.contentType then
      (Json.parse r.body).bind fun j => j.foldFields (readField withGlobals) ⟨[], []⟩
    else if ContentType.isForm r.contentType then some ⟨r.formField (text "source"), []⟩
    else none
  match decoded with
  | none => .error (.error 400 (text "Invalid request body"))
  | some t =>
    if (Blank.trim t.source).isEmpty then .error (.error 400 (text "Source cannot be empty"))
    else .ok t

/-- A number that is left out when it is zero. -/
def optional (key : String) (n : Nat) : List (Bytes × Json) :=
  if n == 0 then [] else [(text key, .ofNat n)]

/-- What a response says about a fault. -/
def faultFields (f : Fault) : List (Bytes × Json) :=
  [(text "error", .str f.message)] ++
    Record.optional "code" ((f.code?.map ErrorCode.label).getD []) ++
    optional "line" f.position.line ++ optional "column" f.position.column

/-- A script that was refused. -/
def unprocessable (f : Fault) : Response := ⟨422, .json (.object (faultFields f))⟩

def ok (j : Json) : Response := ⟨200, .json j⟩

def health (s : Service) (m : Moment) : Response :=
  ok (.object [(text "status", .str (text "healthy")), (text "version", .str s.version),
    (text "builtins", .list (s.registry.names.map .str)),
    (text "timestamp", .str m.startedAt.render)])

/-- The interpreter of a run: the globals of the service first, those of the
    request over them. -/
def interpreter (s : Service) (t : Task) : Except Fault Interpreter :=
  let fresh : Interpreter :=
    { Interpreter.ofRegistry s.registry with limits := some s.limits, cache := s.cache }
  (fresh.defineGlobals s.globals).bind fun i => i.defineGlobals (normalGlobals t.globals)

/-- Runs a task: its outcome, what it wrote, and the cache after it. -/
def execute (s : Service) (m : Moment) (t : Task) : Outcome × Bytes × Option ProgramCache :=
  match s.interpreter t with
  -- Globals that are refused end the run before its source is looked at.
  | .error f => (.fault f, [], s.cache)
  | .ok i =>
    let report := i.run { Occasion.plain m.host with fuel := m.fuel } t.source
    (report.outcome, report.output, report.interpreter.cache)

/-- The record of a run. -/
def record (m : Moment) (t : Task) (outcome : Outcome) (output : Bytes) : Record :=
  let base : Record :=
    { Record.blank with
      source := t.source, output := output, startedAt := m.startedAt, duration := m.duration }
  match outcome with
  | .value v => { base with status := Record.succeeded, result := v.inspect }
  | .fault f =>
    { base with
      status := Record.failed, error := f.message, code := (f.code?.map ErrorCode.label).getD [] }
  | .starved => { base with status := Record.failed }

/-- Milliseconds of a number of nanoseconds, to the microsecond. -/
def milliseconds (nanoseconds : Int) : Json :=
  let d := (Double.ofInt (nanoseconds.tdiv 1000)).div (Double.ofInt 1000)
  (Json.ofDouble? d).getD (.ofNat 0)

/-- The response to a run. -/
def runResponse (id : Bytes) (r : Record) (outcome : Outcome) : Response :=
  let details : List (Bytes × Json) :=
    match outcome with
    | .value v => Record.optional "result" v.inspect ++ Record.optional "type" v.kind
    | .fault f => faultFields f
    | .starved => []
  let status := if r.status == Record.succeeded then 200 else 422
  ⟨status, .json (.object ([(text "id", .str id), (text "status", .str r.status),
    (text "output", .str r.output)] ++ details ++ [(text "duration_ms", milliseconds r.duration)]))⟩

/-- Runs a script and records the run. When the history refuses the record the
    response has no id. -/
def run (s : Service) (m : Moment) (t : Task) : Response × Service :=
  let (outcome, output, cache) := s.execute m t
  let r := record m t outcome output
  match s.journal.append m.fresh r with
  | (.ok stored, journal) => (runResponse stored.id r outcome, { s with journal, cache })
  -- The run itself counts, whatever became of its record.
  | (.error _, journal) => (runResponse [] r outcome, { s with journal, cache })

def parse (t : Task) : Response :=
  match Scriptlet.parse t.source with
  | .error f => unprocessable f
  | .ok p =>
    ok (.object [(text "statements", .ofNat p.statements.length),
      (text "ast", .list (p.statements.map fun n => .str n.render))])

/-- A token as an object, unless its number has no JSON form. -/
def tokenJson? (t : Token) : Option Json :=
  let value? : Option Json :=
    match t.lexeme with
    | .integer _ n => some (.ofInt n.toInt)
    | .float _ d => Json.ofDouble? d
    | l => some (.str l.literal)
  value?.map fun v => .object [(text "kind", .str t.lexeme.kind), (text "value", v),
    (text "line", .ofNat t.position.line), (text "column", .ofNat t.position.column)]

def tokens (t : Task) : Response :=
  match tokenize t.source with
  | .error f => unprocessable f
  | .ok ts =>
    match ts.mapM tokenJson? with
    | some js => ok (.list js)
    -- An infinite float is the only number without a text.
    | none => .error 500 (text "json: unsupported value: +Inf")

/-- The runs, newest first. -/
def runs (s : Service) (query : Bytes) : Response :=
  let listed := s.journal.store.list (Query.int query (text "limit") 50)
  if listed.all Record.isWritable then ok (.list (listed.map Record.toJson))
  else .error 500 Record.unwritable

def runById (s : Service) (id : Bytes) : Response :=
  match s.journal.store.get? id with
  | some r => if r.isWritable then ok r.toJson else .error 500 Record.unwritable
  | none => .error 404 (text "run not found")

/-- Answers a request on a route. -/
def serve (s : Service) (m : Moment) (r : Request) (route : Route) : Response × Service :=
  let onTask (withGlobals : Bool) (go : Task → Response × Service) : Response × Service :=
    match task withGlobals r with
    | .ok t => go t
    | .error response => (response, s)
  match route with
  | .health => (s.health m, s)
  | .run => onTask true fun t => s.run m t
  | .parse => onTask false fun t => (parse t, s)
  | .tokens => onTask false fun t => (tokens t, s)
  | .runs => (s.runs r.target.2, s)
  | .runById id => (s.runById id, s)

/-- Answers a request. -/
def handle (s : Service) (m : Moment) (r : Request) : Response × Service :=
  if !Request.methods.contains r.method then (⟨400, .plain (text "Invalid http method")⟩, s)
  else
    let (response, after) : Response × Service :=
      match Route.find? r.target.1 with
      | none => (.notFound r.method r.target.1, s)
      | some route => if r.suits route then s.serve m r route else (.notAllowed, s)
    -- The head is asked for as the whole is, and the body left out.
    (if r.method == text "HEAD" then response.headOnly else response, after)

end Service

end Scriptlet
