/-
  Scriptlet.Limits

  What bounds a run: limits on time and call depth, the clock, and the context
  that may interrupt it.
-/
import Scriptlet.Fault

namespace Scriptlet

/-- The limits of a run. A limit that is not positive is off. The timeout is in
    nanoseconds. -/
structure Limits where
  timeout : Int
  maxCallDepth : Int
  logExecution : Bool
deriving DecidableEq, Repr

/-- No limits. -/
def Limits.none : Limits := ⟨0, 0, false⟩

/-- Limits that replace others for one run, field by field. -/
structure Override where
  timeout : Option Int
  maxCallDepth : Option Int
  logExecution : Option Bool
deriving DecidableEq, Repr

/-- Replaces nothing. -/
def Override.none : Override := ⟨.none, .none, .none⟩

/-- The limits after an override. -/
def Limits.replaced (l : Limits) (o : Override) : Limits :=
  ⟨o.timeout.getD l.timeout, o.maxCallDepth.getD l.maxCallDepth, o.logExecution.getD l.logExecution⟩

/-- Nanoseconds of a number of milliseconds, in 64 bits that wrap around. -/
def nanoseconds (milliseconds : Int) : Int := (Int64.ofInt (milliseconds * 1000000)).toInt

/-- How time passes in a run: the nanoseconds that are over at the check after
    `n` earlier ones. Sooner or later any time is over. -/
structure Clock where
  elapsed : Nat → Int
  passes : ∀ t, ∃ n, t ≤ elapsed n

/-- The clock by which four microseconds pass up to each check. -/
def Clock.steady : Clock where
  elapsed n := 4000 * (n + 1)
  passes t := ⟨t.toNat, by omega⟩

/-- What may interrupt a run. Time is counted in the checks that the run makes:
    `status n` tells what the check after `n` earlier ones finds. -/
structure Context where
  status : Nat → Option Interrupt
  hasDeadline : Bool

namespace Context

/-- Never interrupts. -/
def background : Context := ⟨fun _ => none, false⟩

/-- Was cancelled before the run. -/
def canceled : Context := ⟨fun _ => some .canceled, false⟩

/-- Had its deadline before the run. -/
def expired : Context := ⟨fun _ => some .expired, true⟩

/-- Has a deadline that no run reaches. -/
def far : Context := ⟨fun _ => none, true⟩

/-- The context with a timeout by a clock, if the timeout is on. A deadline that
    exists already is kept instead. -/
def withTimeout (c : Context) (clock : Clock) (timeout : Int) : Context :=
  if timeout ≤ 0 || c.hasDeadline then c
  else
    { status := fun n =>
        -- An interruption of the outer context comes first.
        match c.status n with
        | some i => some i
        | none => if timeout ≤ clock.elapsed n then some .expired else none
      hasDeadline := true }

end Context

end Scriptlet
