/-
  Scriptlet.Config

  The configuration of the command line and of the service: defaults, reading
  from JSON or YAML text with references to variables, and validation. A third
  format is read by a library, which is a parameter here.
-/
import Scriptlet.Text.Blank
import Scriptlet.Text.Case
import Scriptlet.Text.Expansion
import Scriptlet.Json.Parser
import Scriptlet.Yaml.Parser
import Scriptlet.Limits
import Scriptlet.Files

namespace Scriptlet

/-- A configuration. An empty history file keeps the history in memory. -/
structure Config where
  timeoutMs : Int
  maxCallDepth : Int
  logExecution : Bool
  cacheEnabled : Bool
  maxPrograms : Int
  host : Bytes
  port : Int
  version : Bytes
  historyFile : Bytes
  globals : List (Bytes × HostValue)

/-- Why there is no configuration. -/
inductive ConfigProblem where
  | negativeTimeout
  | negativeCallDepth
  | noPrograms
  | portOutOfRange (port : Int)
  | reservedGlobal (name : Bytes)
  | unsupportedFormat (format : Bytes)
  | unsupportedExtension (extension : Bytes)
  | undecodable
  | undetected
  | unreadable (fault : FileFault)
deriving DecidableEq, Repr

def ConfigProblem.message : ConfigProblem → Bytes
  | .negativeTimeout => text "runtime.timeout_ms must not be negative"
  | .negativeCallDepth => text "runtime.max_call_depth must not be negative"
  | .noPrograms => text "cache.max_programs must be positive when the cache is enabled"
  | .portOutOfRange port => text "server.port " ++ Bytes.ofInt port ++ text " out of range"
  | .reservedGlobal name => text "global " ++ Quoted.quote name ++ text " is a reserved keyword"
  | .unsupportedFormat format => text "unsupported format: " ++ format
  | .unsupportedExtension extension => text "unsupported config format: " ++ extension
  | .undecodable => text "undecodable config"
  | .undetected =>
    text "unable to detect config format, please provide valid JSON, YAML, or BCL"
  | .unreadable fault => fault.message

namespace Config

/-- Every limit is off, and programs are cached. -/
def default : Config :=
  { timeoutMs := 0, maxCallDepth := 0, logExecution := false, cacheEnabled := true
    maxPrograms := 1024, host := text "0.0.0.0", port := 8080, version := text "dev"
    historyFile := [], globals := [] }

/-- The address to listen on. -/
def address (c : Config) : Bytes := c.host ++ text ":" ++ Bytes.ofInt c.port

/-- The limits of the runs. -/
def limits (c : Config) : Limits := ⟨nanoseconds c.timeoutMs, c.maxCallDepth, c.logExecution⟩

/-- Refuses a configuration, for the first reason that there is. -/
def validate (c : Config) : Except ConfigProblem Config :=
  if c.timeoutMs < 0 then .error .negativeTimeout
  else if c.maxCallDepth < 0 then .error .negativeCallDepth
  -- The size of a cache that is off does not matter.
  else if c.cacheEnabled && c.maxPrograms ≤ 0 then .error .noPrograms
  else if c.port < 0 || 65535 < c.port then .error (.portOutOfRange c.port)
  else
    -- Of several names the first in order is told.
    match (sortGlobals c.globals).find? fun g => isKeyword g.1 with
    | some (name, _) => .error (.reservedGlobal name)
    | none => .ok c

/-! ## Formats -/

/-- The formats a configuration may have. -/
inductive Format where
  | json
  | yaml
  | bcl
deriving DecidableEq, Repr

/-- The format with a name, in any case. -/
def Format.ofName? (name : Bytes) : Option Format :=
  let n := Bytes.lower name
  if n == text "yaml" || n == text "yml" then some .yaml
  else if n == text "json" then some .json
  else if n == text "bcl" then some .bcl
  else none

/-- Reads the sections of a configuration from typed documents of any kind,
    given how such documents are taken apart. -/
structure Reader (δ : Type) where
  fields : {α : Type} → (Bytes → δ → α → Option α) → δ → α → Option α
  int : Int → δ → Option Int
  str : Bytes → δ → Option Bytes
  bool : Bool → δ → Option Bool
  globals : List (Bytes × HostValue) → δ → Option (List (Bytes × HostValue))

def Reader.json : Reader Json where
  fields := Json.foldFields
  int := Json.toInt?
  str := Json.toText?
  bool := Json.toBool?
  globals := Json.toHostFields?

def Reader.yaml : Reader Yaml where
  fields := Yaml.foldEntries
  int := Yaml.toInt?
  str := Yaml.toText?
  bool := Yaml.toBool?
  globals := fun _ y => y.toHostFields?

namespace Reader

variable {δ : Type} (r : Reader δ)

/-- The section on runs. -/
def runtime (key : Bytes) (d : δ) (c : Config) : Option Config :=
  if key == text "timeout_ms" then
    (r.int c.timeoutMs d).map fun n => { c with timeoutMs := n }
  else if key == text "max_call_depth" then
    (r.int c.maxCallDepth d).map fun n => { c with maxCallDepth := n }
  else if key == text "log_execution" then
    (r.bool c.logExecution d).map fun b => { c with logExecution := b }
  else some c

/-- The section on the cache. -/
def cache (key : Bytes) (d : δ) (c : Config) : Option Config :=
  if key == text "enabled" then
    (r.bool c.cacheEnabled d).map fun b => { c with cacheEnabled := b }
  else if key == text "max_programs" then
    (r.int c.maxPrograms d).map fun n => { c with maxPrograms := n }
  else some c

/-- The section on the service. -/
def server (key : Bytes) (d : δ) (c : Config) : Option Config :=
  if key == text "host" then (r.str c.host d).map fun s => { c with host := s }
  else if key == text "port" then (r.int c.port d).map fun n => { c with port := n }
  else if key == text "version" then
    (r.str c.version d).map fun s => { c with version := s }
  else some c

/-- The section on the history. -/
def history (key : Bytes) (d : δ) (c : Config) : Option Config :=
  if key == text "file" then
    (r.str c.historyFile d).map fun s => { c with historyFile := s }
  else some c

/-- A section of a configuration; unknown ones are skipped. -/
def topLevel (key : Bytes) (d : δ) (c : Config) : Option Config :=
  if key == text "runtime" then r.fields r.runtime d c
  else if key == text "cache" then r.fields r.cache d c
  else if key == text "server" then r.fields r.server d c
  else if key == text "history" then r.fields r.history d c
  else if key == text "globals" then
    (r.globals c.globals d).map fun gs => { c with globals := gs }
  else some c

/-- A configuration over the defaults. -/
def read (d : δ) : Option Config := r.fields r.topLevel d Config.default

end Reader

/-- A library for the third format: the configuration over the defaults that a
    text holds, if the library accepts it. Globals are decoded into a map, so no
    name is there twice. -/
structure Decoder where
  decode : Bytes → Option Config
  distinct : ∀ {content c}, decode content = some c → (c.globals.map Prod.fst).Nodup

/-- The library that accepts no text. -/
def Decoder.none : Decoder := ⟨fun _ => .none, nofun⟩

/-- The configuration that a text holds. -/
def decode (bcl : Decoder) (format : Format) (content : Bytes) : Option Config :=
  match format with
  | .json => (Json.parse content).bind Reader.json.read
  | .yaml => (Yaml.parse content).bind Reader.yaml.read
  | .bcl => bcl.decode content

/-- The configuration that a text holds, if it is valid. -/
def decodeValid (bcl : Decoder) (format : Format) (content : Bytes) :
    Except ConfigProblem Config :=
  match decode bcl format content with
  | some c => c.validate
  | none => .error .undecodable

/-- Reads a configuration in a named format. References to variables are
    replaced first. -/
def ofText (environment : Bytes → Bytes) (format content : Bytes) (bcl : Decoder := .none) :
    Except ConfigProblem Config :=
  match Format.ofName? format with
  | none => .error (.unsupportedFormat format)
  | some f => decodeValid bcl f (Expansion.expand environment content)

/-- Reads a configuration in the first format that gives a valid one. -/
def detect (environment : Bytes → Bytes) (content : Bytes) (bcl : Decoder := .none) :
    Except ConfigProblem Config :=
  let expanded := Expansion.expand environment (Blank.trim content)
  -- A text that is read but not valid does not end the search.
  let valid := [Format.json, .yaml, .bcl].findSome? fun f => (decodeValid bcl f expanded).toOption
  match valid with
  | some c => .ok c
  | none => .error .undetected

/-- The extension of the last part of a path, with its point, in lower case. -/
def extension (path : Bytes) : Bytes :=
  let last := (path.reverse.takeWhile (· != 47)).reverse
  match Bytes.lastIndexOf 46 last with
  | some i => Case.lower (last.drop i)
  | none => []

/-- Reads a configuration file. Its extension tells the format, and one that
    does not is refused before the file is opened. -/
def ofFile (environment : Bytes → Bytes) (path : Bytes) (content : Except FileFault Bytes)
    (bcl : Decoder := .none) : Except ConfigProblem Config :=
  match extension path with
  | 46 :: name =>
    match Format.ofName? name, content with
    -- The file is not opened for an unknown format, so its fault is not told.
    | none, _ => .error (.unsupportedExtension (46 :: name))
    | some _, .error fault => .error (.unreadable fault)
    | some _, .ok content => ofText environment name content bcl
  | e => .error (.unsupportedExtension e)

end Config

end Scriptlet
