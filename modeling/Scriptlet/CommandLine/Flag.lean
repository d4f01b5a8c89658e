/-
  Scriptlet.CommandLine.Flag

  Flags in front of the arguments of a command.
-/
import Scriptlet.Text.Bytes

namespace Scriptlet

/-- A flag: its name, the other names it has, and whether it is a switch, which
    needs no value. -/
structure Flag where
  name : Bytes
  aliases : List Bytes
  isSwitch : Bool
deriving DecidableEq, Repr

namespace Flag

/-- What an argument is: a flag, perhaps with its value, the mark that ends the
    flags, something that is neither a flag nor not one, or anything else. -/
inductive Shape where
  | flag (name : Bytes) (value : Option Bytes)
  | terminator
  | malformed
  | other
deriving DecidableEq, Repr

/-- The shape of an argument. One dash and two dashes mean the same. -/
def shape (argument : Bytes) : Shape :=
  let named (s : Bytes) : Shape :=
    match s with
    | [] => .malformed
    | b :: _ =>
      if b == 45 || b == 61 then .malformed
      else
        let (name, value) := Bytes.cut 61 s
        .flag name value
  match argument with
  | [45, 45] => .terminator
  | 45 :: 45 :: s => named s
  | [45] => .other
  | 45 :: s => named s
  | _ => .other

/-- The value of a switch. -/
def switchValue? (v : Bytes) : Option Bool :=
  if ["1", "t", "T", "true", "TRUE", "True"].any fun w => text w == v then some true
  else if ["0", "f", "F", "false", "FALSE", "False"].any fun w => text w == v then some false
  else none

/-- Whether a flag has a name. -/
def isNamed (f : Flag) (name : Bytes) : Bool := f.name == name || f.aliases.contains name

/-- The flags at the start of the arguments, as they are spelled, and the
    arguments behind them; nothing if one is unknown or lacks its value. -/
def spelled (flags : List Flag) : List Bytes → Option (List (Bytes × Bytes) × List Bytes)
  | [] => some ([], [])
  | a :: rest =>
    match shape a with
    | .other => some ([], a :: rest)
    | .terminator => some ([], rest)
    | .malformed => none
    | .flag name value =>
      match flags.find? fun f => f.isNamed name with
      | none => none
      | some f =>
        let set (v : Bytes) (more : Option (List (Bytes × Bytes) × List Bytes)) :=
          more.map fun (settings, arguments) => ((name, v) :: settings, arguments)
        match value, f.isSwitch with
        | some v, _ => set v (spelled flags rest)
        -- A switch by itself is on.
        | none, true => set (text "true") (spelled flags rest)
        | none, false =>
          match rest with
          | [] => none
          -- The next argument is the value, even if it looks like a flag.
          | v :: more => set v (spelled flags more)

/-- The settings of a flag under its first name. It may be set more than once,
    and not under two of its names. -/
def settingsOf? (settings : List (Bytes × Bytes)) (f : Flag) : Option (List (Bytes × Bytes)) :=
  match settings.filter fun s => f.isNamed s.1 with
  | [] => some []
  | own@((name, _) :: _) =>
    if own.all fun s => s.1 == name then some (own.map fun s => (f.name, s.2)) else none

/-- The flags at the start of the arguments, by name, and the arguments behind
    them. -/
def read (flags : List Flag) (arguments : List Bytes) :
    Option (List (Bytes × Bytes) × List Bytes) := do
  let (settings, arguments) ← spelled flags arguments
  let named ← flags.mapM (settingsOf? settings)
  return (named.flatten, arguments)

/-- The last value that was set under a name. -/
def last? (settings : List (Bytes × Bytes)) (name : String) : Option Bytes :=
  settings.reverse.lookup (text name)

end Flag

end Scriptlet
