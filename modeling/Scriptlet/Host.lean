/-
  Scriptlet.Host

  The functions of the host: where they write, what they give back, and the one
  that prints. A host has a clock, too.
-/
import Scriptlet.Limits

namespace Scriptlet

/-- Where output goes: it is kept, or every write fails for a reason. -/
inductive Sink where
  | open
  | broken (reason : Bytes)
deriving DecidableEq, Repr

/-- What a call of a host function did: what it wrote, and its value, if it has
    one, or a fault. -/
structure HostReply where
  written : Bytes
  result : Except Fault (Option Value)

/-- The behaviour of the functions that the host knows by a key, and the clock
    of its runs. -/
structure Host where
  behave : Bytes → Sink → List Value → HostReply
  clock : Clock := .steady

namespace Host

/-- The host without functions of its own. -/
def bare (clock : Clock := .steady) : Host := ⟨fun _ _ _ => ⟨[], .ok none⟩, clock⟩

/-- The line that printing writes: the texts of the values, separated by
    blanks. -/
def printed (arguments : List Value) : Bytes :=
  Bytes.join (text " ") (arguments.map Value.inspect) ++ Lexeme.newline

/-- Prints its arguments on one line. -/
def out (sink : Sink) (arguments : List Value) : HostReply :=
  match sink with
  | .open => ⟨printed arguments, .ok (some (.bool false))⟩
  | .broken reason => ⟨[], .error (.plain reason)⟩

/-- Calls a host function. -/
def call (h : Host) (f : HostFunction) (sink : Sink) (arguments : List Value) : HostReply :=
  match f with
  | .out => out sink arguments
  | .custom key => h.behave key sink arguments

end Host

/-- The fault of a script whose host function raised `fault`: the same one if
    it has a code, and one that names the function otherwise. -/
def Fault.raisedBy (name : Name) (fault : Fault) : Fault :=
  if fault.code?.isSome then fault else .hostFailed name fault

end Scriptlet
