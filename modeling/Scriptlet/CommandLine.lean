/-
  Scriptlet.CommandLine

  The command line: running and inspecting scripts, and starting the service,
  as functions from arguments, files and variables to what is printed.
-/
import Scriptlet.Number.Duration
import Scriptlet.CommandLine.Flag
import Scriptlet.Service

namespace Scriptlet

/-! ## Surroundings -/

/-- What a command finds: the files and the variables of the environment. -/
structure Surroundings where
  files : Files
  environment : Bytes → Bytes

/-- What the program is built and run on: the library for the third format of
    configurations, and the clock of its runs. -/
structure Platform where
  bcl : Config.Decoder
  clock : Clock

/-- No text is accepted in the third format, and the clock is steady. -/
def Platform.plain : Platform := ⟨.none, .steady⟩

/-! ## What is printed -/

/-- A message on the error channel: printed as it is, logged, or telling how
    long the run of a script took. -/
inductive Notice where
  | printed (message : Bytes)
  | logged (message : Bytes)
  | timed (name : Bytes)
deriving DecidableEq, Repr

/-- A logged message. The log holds text, so stray bytes are replaced. -/
def Notice.ofLog (message : Bytes) : Notice := .logged (Utf8.repair message)

/-- What a command did: the exit code, the output and the messages. -/
structure Transcript where
  exit : Nat
  output : Bytes
  notices : List Notice
deriving DecidableEq, Repr

/-- How a command ends: it is done, it keeps serving at an address, or its
    arguments ask for help. -/
inductive Conclusion where
  | done (t : Transcript)
  | listening (address : Bytes) (service : Service)
  | usage

namespace Transcript

def success (output : Bytes) : Transcript := ⟨0, output, []⟩

/-- A failure that is logged. -/
def failure (message : Bytes) : Transcript := ⟨1, [], [.ofLog message]⟩

/-- A failure that is printed. -/
def refusal (exit : Nat) (message : Bytes) : Transcript := ⟨exit, [], [.printed message]⟩

end Transcript

namespace CommandLine

/-! ## Scripts -/

/-- Where a script comes from: its text, or a file named by a flag or by the
    first argument. -/
structure Source where
  inline : Bytes
  file : Bytes
  argument : Bytes
deriving DecidableEq, Repr

namespace Source

/-- The path of the file, if the script is in one. -/
def path (s : Source) : Bytes := if s.file.isEmpty then s.argument else s.file

/-- The text of a script and the name that messages give it. -/
def read (s : Source) (w : Surroundings) : Except Transcript (Bytes × Bytes) :=
  if !s.inline.isEmpty then .ok (s.inline, text "<eval>")
  else if s.path.isEmpty then
    .error (.refusal 2 (text "provide a script with --file, --eval, or a path argument"))
  else
    match w.files.read s.path with
    | .ok content => .ok (content, s.path)
    | .error fault => .error (.failure fault.message)

end Source

/-- The refusal of a script with a name. -/
def refused (name : Bytes) (f : Fault) : Transcript :=
  .refusal 1 (name ++ text ": " ++ f.message)

/-- The tokens of a script, one a line. -/
def printTokens (w : Surroundings) (s : Source) : Transcript :=
  match s.read w with
  | .error t => t
  | .ok (source, name) =>
    match tokenize source with
    | .error f => refused name f
    | .ok ts => .success (ts.flatMap fun t => t.describe ++ Lexeme.newline)

/-- The text of a parsed script. -/
def printTree (w : Surroundings) (s : Source) : Transcript :=
  match s.read w with
  | .error t => t
  | .ok (source, name) =>
    match parse source with
    | .error f => refused name f
    | .ok p => .success p.render

/-- The configuration in a file, or the default if there is no path. -/
def loadConfig (p : Platform) (w : Surroundings) (path : Bytes) : Except ConfigProblem Config :=
  if path.isEmpty then .ok .default
  else Config.ofFile w.environment path (w.files.read path) p.bcl

/-- How a script is run. Limits that are given replace those of the
    configuration. -/
structure RunOptions where
  source : Source
  config : Bytes
  timing : Bool
  print : Bool
  timeout : Option Int
  maxDepth : Option Int
deriving DecidableEq, Repr

/-- The interpreter of a configuration. -/
def interpreter (registry : Registry) (c : Config) (o : RunOptions) : Except Fault Interpreter :=
  let limits := c.limits.replaced ⟨o.timeout, o.maxDepth, none⟩
  let fresh : Interpreter :=
    { Interpreter.ofRegistry registry with
      limits := some limits
      hasLogger := true
      cache := if c.cacheEnabled then some .empty else none }
  fresh.defineGlobals c.globals

/-- What is printed about a run with this outcome, output and log. -/
def conclude (o : RunOptions) (name : Bytes) (outcome : Outcome) (output : Bytes)
    (log : List LogEntry) : Transcript :=
  let notices : List Notice :=
    -- The log is written during the run and the time told behind it.
    (log.map fun e => .ofLog e.message) ++ if o.timing then [.timed name] else []
  match outcome with
  | .value v =>
    ⟨0, if o.print then output ++ v.inspect ++ Lexeme.newline else output, notices⟩
  | .fault f => ⟨1, output, notices ++ (refused name f).notices⟩
  | .starved => ⟨1, output, notices⟩

/-- Runs a script. -/
def runScript (p : Platform) (w : Surroundings) (o : RunOptions) : Transcript :=
  match o.source.read w with
  | .error t => t
  | .ok (source, name) =>
    match loadConfig p w o.config with
    | .error problem => .failure problem.message
    | .ok c =>
      match interpreter .initial c o with
      | .error f => conclude o name (.fault f) [] []
      | .ok i =>
        let report := i.run (.plain (.bare p.clock)) source
        conclude o name report.outcome report.output report.log

/-! ## The service -/

/-- The path of the lock of a file. -/
def lockOf (path : Bytes) : Bytes := path ++ text ".lock"

/-- The storage of a configured history. Its file need not exist, but its lock
    has to. -/
def storage (fs : Files) (c : Config) : Except FileFault Storage :=
  if c.historyFile.isEmpty then .ok .memory
  else
    match fs.creationFault? (lockOf c.historyFile), fs.read c.historyFile with
    | some fault, _ => .error fault
    | none, .ok content => .ok (.file (some content))
    -- A file that is missing is made by the first record.
    | none, .error fault =>
      if fault.problem == .missing then .ok (.file none) else .error fault

/-- Builds the service of a configuration. -/
def build (fs : Files) (c : Config) : Except Service.Problem Service :=
  match storage fs c with
  | .ok storage => Service.ofConfig .initial c storage
  | .error fault => .error (.historyFile fault)

/-- What is logged when the service starts. -/
def starting (address : Bytes) : Notice :=
  .ofLog (text "Starting sprite API server on " ++ address)

/-- Why a text in front of a colon and a port is no host. A host with colons
    stands in brackets, and no other brackets may stand anywhere. -/
def hostProblem? (host : Bytes) : Option Bytes :=
  let unexpected (bs : Bytes) : Option Bytes :=
    if bs.contains 91 then some (text "unexpected '[' in address")
    else if bs.contains 93 then some (text "unexpected ']' in address")
    else none
  match host with
  | 91 :: rest =>
    -- Behind the bracket that closes a host there is only the colon of the port.
    match Bytes.cut 93 rest with
    | (_, none) => some (text "missing ']' in address")
    | (inside, some []) => unexpected inside
    | (_, some (58 :: _)) => some (text "too many colons in address")
    | (_, some _) => some (text "missing port in address")
  | _ => if host.contains 58 then some (text "too many colons in address") else unexpected host

/-- Why no service can listen at an address. -/
def listenProblem? (c : Config) : Option Bytes :=
  let why (subject reason : Bytes) : Bytes :=
    text "failed to listen: listen tcp4: address " ++ subject ++ text ": " ++ reason
  match hostProblem? c.host with
  | some reason => some (why c.address reason)
  | none =>
    if c.port < 0 || 65535 < c.port then some (why (Bytes.ofInt c.port) (text "invalid port"))
    else none

/-- Starts the service of a configuration. Messages about a failure to build it
    and about its end have a preamble. -/
def start (fs : Files) (c : Config) (building stopping : Bytes) : Conclusion :=
  match build fs c with
  | .error problem => .done (.failure (building ++ problem.message))
  | .ok service =>
    match listenProblem? c with
    | some message => .done ⟨1, [], [starting c.address, .ofLog (stopping ++ message)]⟩
    | none => .listening c.address service

/-- How the service is started from the command line. -/
structure ServeOptions where
  config : Bytes
  host : Option Bytes
  port : Option Int
deriving DecidableEq, Repr

/-- Starts the service from the command line. -/
def serve (p : Platform) (w : Surroundings) (o : ServeOptions) : Conclusion :=
  match loadConfig p w o.config with
  | .error problem => .done (.failure problem.message)
  | .ok c =>
    start w.files { c with host := o.host.getD c.host, port := o.port.getD c.port } [] []

/-- The message about a text that is no port. -/
def badPort (value : Bytes) (problem : Numeral.Problem) : Bytes :=
  let reason :=
    match problem with
    | .malformed => text "invalid syntax"
    | .outOfRange => text "value out of range"
  text "invalid PORT " ++ Quoted.quote value ++ text ": strconv.Atoi: parsing " ++
    Quoted.quote value ++ text ": " ++ reason

/-- Starts the service from the environment alone. -/
def serveFromEnvironment (w : Surroundings) (p : Platform := .plain) : Conclusion :=
  let path := w.environment (text "SPRITE_CONFIG")
  let port := w.environment (text "PORT")
  match loadConfig p w path with
  | .error problem =>
    .done (.failure (text "load config " ++ path ++ text ": " ++ problem.message))
  | .ok c =>
    let go (c : Config) := start w.files c (text "build server: ") (text "server stopped: ")
    if port.isEmpty then go c
    else
      match Numeral.readInt64 port with
      -- The range of the port is left to who listens.
      | .ok n => go { c with port := n }
      | .error problem => .done (.failure (badPort port problem))

/-! ## Commands -/

/-- A command with its options. -/
inductive Command where
  | run (options : RunOptions)
  | tokens (source : Source)
  | tree (source : Source)
  | serve (options : ServeOptions)
deriving DecidableEq, Repr

/-- A flag with a value. -/
def valued (name : String) (aliases : List String) : Flag := ⟨text name, aliases.map text, false⟩

/-- A flag without a value. -/
def switch (name : String) : Flag := ⟨text name, [], true⟩

def helpFlag : Flag := ⟨text "help", [text "h"], true⟩

def sourceFlags : List Flag := [valued "file" ["f"], valued "eval" ["e"]]

def configFlag : Flag := valued "config" ["c"]

def runFlags : List Flag :=
  [configFlag, switch "timing", switch "print", valued "timeout" [], valued "max-depth" []] ++
    sourceFlags

def serveFlags : List Flag := [configFlag, valued "host" [], valued "port" []]

/-- The script that the settings and the first argument name. -/
def sourceOf (settings : List (Bytes × Bytes)) (arguments : List Bytes) : Source :=
  ⟨(Flag.last? settings "eval").getD [], (Flag.last? settings "file").getD [],
    arguments.head?.getD []⟩

/-- Reads a setting that may be missing. Of several the last counts, and all
    have to be right. -/
def setting? {α : Type} (settings : List (Bytes × Bytes)) (name : String)
    (read : Bytes → Option α) : Option (Option α) :=
  ((settings.filter fun s => s.1 == text name).mapM fun s => read s.2).map List.getLast?

/-- The flags and the arguments of a command, or of all commands, unless they
    ask for help. -/
def read (flags : List Flag) (arguments : List Bytes) :
    Option (List (Bytes × Bytes) × List Bytes) := do
  let (settings, arguments) ← Flag.read (helpFlag :: flags) arguments
  let help ← setting? settings "help" Flag.switchValue?
  if help == some true || arguments.head?.any fun a => a == text "help" || a == text "h" then none
  else return (settings, arguments)

/-- The command that the arguments give, if they give one. -/
def command? (arguments : List Bytes) : Option Command := do
  let (_, arguments) ← read [] arguments
  match arguments with
  | [] => none
  | name :: rest =>
    if name == text "run" then
      let (settings, arguments) ← read runFlags rest
      let timing ← setting? settings "timing" Flag.switchValue?
      let print ← setting? settings "print" Flag.switchValue?
      let timeout ← setting? settings "timeout" Duration.parse
      let maxDepth ← setting? settings "max-depth" Numeral.readInt64AnyBase
      return .run ⟨sourceOf settings arguments, (Flag.last? settings "config").getD [],
        timing.getD false, print.getD false, timeout, maxDepth⟩
    else if name == text "tokens" then
      (read sourceFlags rest).map fun (settings, arguments) => .tokens (sourceOf settings arguments)
    else if name == text "ast" then
      (read sourceFlags rest).map fun (settings, arguments) => .tree (sourceOf settings arguments)
    else if name == text "serve" then
      let (settings, _) ← read serveFlags rest
      let port ← setting? settings "port" Numeral.readInt64AnyBase
      return .serve ⟨(Flag.last? settings "config").getD [], Flag.last? settings "host", port⟩
    else none

/-- Executes a command. -/
def Command.execute (p : Platform) (w : Surroundings) : Command → Conclusion
  | .run o => .done (runScript p w o)
  | .tokens s => .done (printTokens w s)
  | .tree s => .done (printTree w s)
  | .serve o => CommandLine.serve p w o

/-- Executes the command that the arguments give. -/
def execute (w : Surroundings) (arguments : List Bytes) (p : Platform := .plain) : Conclusion :=
  match command? arguments with
  | some c => c.execute p w
  | none => .usage

/-- The paths of the files that a command reads before anything else. -/
def Command.paths : Command → List Bytes
  | .run o => [o.source.path, o.config]
  | .tokens s | .tree s => [s.path]
  | .serve o => [o.config]

/-- The path of the history that a configuration file names. -/
def historyPath (p : Platform) (w : Surroundings) (config : Bytes) : Bytes :=
  match loadConfig p w config with
  | .ok c => c.historyFile
  | .error _ => []

end CommandLine

end Scriptlet
