/-
  Scriptlet.Main

  The program: it fetches the files and variables that a command asks for,
  executes the command and prints what it concludes. Everything that is decided
  is decided in `Scriptlet.CommandLine`.
-/
import Scriptlet.CommandLine

namespace Scriptlet.Main

/-! ## Fetching -/

/-- A text for the system; stray bytes are repaired. -/
def systemText (bs : Bytes) : String := (String.fromUTF8? ⟨(Utf8.repair bs).toArray⟩).getD ""

/-- The content of a file. -/
def fetchFile? (path : Bytes) : IO (Option Bytes) := do
  try
    let content ← IO.FS.readBinFile (systemText path)
    return some content.data.toList
  catch _ => return none

/-- Whether a path leads to a directory. -/
def isDirectory (path : Bytes) : IO Bool := do
  try
    let _ ← IO.FS.realPath (systemText (path ++ text "/."))
    return true
  catch _ => return false

/-- A path and the paths of the directories on the way to it. -/
def stages (path : Bytes) : List Bytes :=
  path :: (List.range path.length).filterMap fun i =>
    if path[i]? == some 47 && i != 0 then some (path.take i) else none

/-- What there is at a path and on the way to it. -/
def fetchPath (path : Bytes) : IO Files := do
  let mut files : Files := ⟨[], []⟩
  for stage in stages path do
    if ← isDirectory stage then
      files := { files with directories := stage :: files.directories }
    else if let some content ← fetchFile? stage then
      files := { files with contents := (stage, content) :: files.contents }
  return files

/-- All files of two kinds. -/
def union (a b : Files) : Files := ⟨a.contents ++ b.contents, a.directories ++ b.directories⟩

/-- A variable of the environment, empty if it is not set. -/
def fetchVariable (name : Bytes) : IO (Bytes × Bytes) := do
  return (name, text ((← IO.getEnv (systemText name)).getD ""))

/-- The surroundings with the files at the given paths, and every variable that
    is asked for or that a file refers to. -/
def fetch (paths wanted : List Bytes) : IO Surroundings := do
  let found ← (paths.filter fun p => !p.isEmpty).mapM fetchPath
  let files := found.foldl union ⟨[], []⟩
  let mentioned := files.contents.flatMap fun f => Expansion.names f.2
  let values ← (wanted ++ mentioned.eraseDups).mapM fetchVariable
  return ⟨files, fun name => (values.lookup name).getD []⟩

/-- The program is built without a library for the third format. -/
def platform : Platform := .plain

/-- The surroundings with the history that a configuration file names. -/
def withHistory (w : Surroundings) (config : Bytes) : IO Surroundings := do
  let path := CommandLine.historyPath platform w config
  if path.isEmpty then return w
  else
    let file ← fetchPath path
    let lock ← fetchPath (CommandLine.lockOf path)
    return { w with files := union (union file lock) w.files }

/-! ## Printing -/

def put (stream : IO.FS.Stream) (bs : Bytes) : IO Unit := do
  stream.write ⟨bs.toArray⟩
  stream.flush

/-- The text of a message. -/
def noticeText (elapsed : Nat) : Notice → Bytes
  | .printed message | .logged message => message
  | .timed name => name ++ text ": ran in " ++ Duration.render elapsed

/-- Prints a transcript and gives its exit code. -/
def report (elapsed : Nat) (t : Transcript) : IO UInt32 := do
  put (← IO.getStdout) t.output
  let err ← IO.getStderr
  for n in t.notices do
    put err (noticeText elapsed n ++ Lexeme.newline)
  return UInt32.ofNat t.exit

/-- The commands, for who asks. -/
def usage : Bytes :=
  text "usage: run | tokens | ast [--file FILE | --eval TEXT | FILE]; serve [--config FILE]"

/-- Prints a conclusion and gives its exit code. There is no transport for the
    service here. -/
def finish (elapsed : Nat) : Conclusion → IO UInt32
  | .done t => report elapsed t
  | .usage => report elapsed ⟨3, [], [.printed usage]⟩
  | .listening address _ =>
    report elapsed
      ⟨1, [], [CommandLine.starting address, .logged (text "no transport to listen with")]⟩

/-- Concludes in the given surroundings, and finishes with the time it took. -/
def timed (w : Surroundings) (conclude : Surroundings → Conclusion) : IO UInt32 := do
  let before ← IO.monoNanosNow
  let conclusion ← (← IO.mkRef (conclude w)).get
  let after ← IO.monoNanosNow
  finish (after - before) conclusion

/-- Executes the command that the arguments give. -/
def run (arguments : List Bytes) : IO UInt32 := do
  match CommandLine.command? arguments with
  | none => finish 0 .usage
  | some command =>
    let w ← fetch command.paths []
    let w ← match command with
      | .serve o => withHistory w o.config
      | _ => pure w
    timed w (command.execute platform)

/-- Starts the service from the environment alone. -/
def serve : IO UInt32 := do
  let (_, config) ← fetchVariable (text "SPRITE_CONFIG")
  let w ← fetch [config] [text "SPRITE_CONFIG", text "PORT"]
  let w ← withHistory w config
  timed w fun w => CommandLine.serveFromEnvironment w platform

end Scriptlet.Main

/-- Executes a command; the single argument `server` starts the service from
    the environment. -/
def main (args : List String) : IO UInt32 :=
  match args with
  | ["server"] => Scriptlet.Main.serve
  | _ => Scriptlet.Main.run (args.map Scriptlet.text)
