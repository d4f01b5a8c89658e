/-
  Scriptlet.Proofs.Timeout

  The timeout of a configuration and the one that its runs have.

  A configuration gives milliseconds and a run counts nanoseconds, in a word that wraps
  around. Validation bounds the milliseconds from below only, so the product is exact
  up to `greatestMilliseconds` and wrong beyond it (`nanoseconds_eq_iff`). A product that
  wraps around to nothing or below turns the timeout off: the context of a run then gets
  no deadline (`Context.hasDeadline_withTimeout`), and a loop without end, which any
  timeout stops (`evaluates_endless`), is never stopped (`not_evaluates_endless`).
-/
import Mathlib.Data.Nat.Find
import Scriptlet.Config
import Scriptlet.Proofs.Arithmetic
import Scriptlet.Proofs.Unwinding

namespace Scriptlet

/-! ## Milliseconds and nanoseconds -/

/-- The most milliseconds whose nanoseconds are a word. -/
def greatestMilliseconds : Int := 9223372036854

theorem nanoseconds_eq_bmod (ms : Int) : nanoseconds ms = (ms * 1000000).bmod (2 ^ 64) :=
  Int64.toInt_ofInt

theorem nanoseconds_eq_iff {ms : Int} (h : 0 ≤ ms) :
    nanoseconds ms = ms * 1000000 ↔ ms ≤ greatestMilliseconds := by
  rw [nanoseconds_eq_bmod, Word.bmod_eq_self_iff, Word.holds_iff, greatestMilliseconds]
  omega

/-- The timeout is on after the conversion just if what is left of the product is in the
    positive half of the words. -/
theorem nanoseconds_pos_iff (ms : Int) :
    0 < nanoseconds ms ↔ 0 < ms * 1000000 % 2 ^ 64 ∧ ms * 1000000 % 2 ^ 64 < 2 ^ 63 := by
  rw [nanoseconds_eq_bmod, Int.bmod_def]
  -- Only the product matters, so the arithmetic is done without its factors.
  generalize ms * 1000000 = product
  have hword : ((2 ^ 64 : Nat) : Int) = 18446744073709551616 := by decide
  have hhalf : (2 : Int) ^ 63 = 9223372036854775808 := by decide
  rw [hword, hhalf, show (2 : Int) ^ 64 = 18446744073709551616 by decide]
  omega

/-! ## Deadlines -/

namespace Context

variable (clock : Clock)

theorem hasDeadline_withTimeout (c : Context) (timeout : Int) :
    (c.withTimeout clock timeout).hasDeadline = true ↔ 0 < timeout ∨ c.hasDeadline = true := by
  unfold withTimeout
  split
  · -- Off: the context stays as it is.
    rename_i hoff
    simp only [Bool.or_eq_true, decide_eq_true_eq] at hoff
    constructor
    · exact .inr
    · rintro (hon | hdeadline)
      · exact hoff.resolve_left (by omega)
      · exact hdeadline
  · -- On: the context gets a deadline, whether or not it had one.
    rename_i hon
    simp only [Bool.or_eq_true, decide_eq_true_eq, not_or] at hon
    simp only [true_iff]
    omega

theorem withTimeout_of_nonpos (c : Context) {timeout : Int} (h : timeout ≤ 0) :
    c.withTimeout clock timeout = c := by
  rw [withTimeout, if_pos (by simp [h])]

theorem status_background_withTimeout {timeout : Int} (h : 0 < timeout) (n : Nat) :
    (background.withTimeout clock timeout).status n =
      if timeout ≤ clock.elapsed n then some .expired else none := by
  have hon : (decide (timeout ≤ 0) || background.hasDeadline) = false := by
    simp [background, Int.not_le.mpr h]
  rw [withTimeout, if_neg (ne_true_of_eq_false hon)]
  rfl

end Context

/-! ## A loop without end -/

/-- A loop that nothing in it ends. -/
def Node.endless : Node := .loop (.bool true) (.mk [] false)

section Endless

variable {w : Setting} (depth : Nat) (scope : ScopeId) {st : State}

/-- Rounds of the loop take one check each, up to the first check that interrupts. -/
theorem rounds_endless {n : Nat} (hbefore : ∀ m < n, w.context.status m = none)
    (hst : st.checks ≤ n) :
    ∃ st', Rounds w depth scope (.bool true) (.mk [] false) st st' ∧ st'.checks = n := by
  -- The induction is on the checks that are left until the interruption.
  obtain ⟨left, hleft⟩ := Nat.exists_eq_add_of_le hst
  induction left generalizing st with
  | zero => exact ⟨st, .none, hleft.symm⟩
  | succ left ih =>
    let next := { st with checks := st.checks + 1 }.note .looped
    have hchecks : next.checks = st.checks + 1 := rfl
    obtain ⟨st', hrounds, hst'⟩ : ∃ st', Rounds w depth scope _ _ next st' ∧ st'.checks = n :=
      ih (by omega) (by omega)
    have hcondition : Yields w depth scope (.bool true) next (.bool true) next :=
      ⟨⟨1, by rw [eval], by simp⟩, rfl⟩
    have hbody : Yields w depth scope (.block (.mk [] false)) next (.bool false) next :=
      ⟨⟨2, by rw [eval, Block.statements, evalSequence], by simp⟩, rfl⟩
    exact ⟨st', .one (hbefore _ (by omega)) hcondition rfl hbody hrounds, hst'⟩

/-- The first check that finds an interruption stops the loop. -/
theorem evaluates_endless {n : Nat} {k : Interrupt} (hbefore : ∀ m < n, w.context.status m = none)
    (hstop : w.context.status n = some k) (hst : st.checks ≤ n) :
    ∃ st', Evaluates w depth scope .endless st ⟨.fault (.interrupted k), st'⟩ := by
  obtain ⟨st₁, hrounds, hchecks⟩ := rounds_endless depth scope hbefore hst
  let stopped := { st₁ with checks := st₁.checks + 1 }
  have hlast : ∀ last, Settles (fun n => evalLoop w n depth scope (.bool true) (.mk [] false) last
      st₁) ⟨.fault (.interrupted k), stopped⟩ := by
    intro last
    refine .of_succ ⟨0, fun n _ => ?_⟩
    rw [← hchecks] at hstop
    simp only [evalLoop, State.check, hstop, stopped]
  have hloop : Settles (fun n => eval w n depth scope .endless st)
      ⟨.fault (.interrupted k), stopped⟩ := by
    refine .of_succ ((hrounds.loop (.bool false) hlast).map fun n hn => ?_)
    rw [Node.endless, eval, hn]
  exact ⟨stopped, hloop.evaluates (by simp)⟩

/-- Without an interruption it goes on with any fuel. -/
theorem not_evaluates_endless (hquiet : w.Quiet) (r : Result) :
    ¬ Evaluates w depth scope .endless st r := by
  -- A round goes on to the next with less fuel, and so on until there is none.
  have hloop : ∀ n last st, (evalLoop w n depth scope (.bool true) (.mk [] false) last st).outcome =
      .starved := by
    intro n
    induction n with
    | zero => exact fun last st => by rw [evalLoop]
    | succ n ih =>
      intro last st
      rw [evalLoop_succ (hquiet _)]
      cases n with
      | zero =>
        rw [eval]
        rfl
      | succ n =>
        rw [eval, Result.andThen_value rfl, Block.statements, evalSequence]
        exact ih _ _
  rintro ⟨n, hn, hends⟩
  rw [← hn] at hends
  apply hends
  cases n with
  | zero => rw [eval]
  | succ n =>
    rw [Node.endless, eval]
    exact hloop n _ st

end Endless

/-! ## Configurations -/

namespace Config

theorem timeoutMs_nonneg {c : Config} (h : c.validate = .ok c) : 0 ≤ c.timeoutMs := by
  unfold validate at h
  split at h
  · cases h
  · omega

/-- The timeout of a valid configuration is that of its runs up to
    `greatestMilliseconds`, and not beyond. Up to there it is on just if the
    configuration has one; in general it is on just if the wrapped product is positive.
    Only a timeout that is on gives the context of a run a deadline and stops a loop
    without end; under one that is off, the loop does not end. -/
theorem timeout_enforced_iff {c : Config} (hvalid : c.validate = .ok c) :
    (c.limits.timeout = c.timeoutMs * 1000000 ↔ c.timeoutMs ≤ greatestMilliseconds) ∧
    (c.timeoutMs ≤ greatestMilliseconds → (0 < c.limits.timeout ↔ 0 < c.timeoutMs)) ∧
    (0 < c.limits.timeout ↔
      0 < c.timeoutMs * 1000000 % 2 ^ 64 ∧ c.timeoutMs * 1000000 % 2 ^ 64 < 2 ^ 63) ∧
    (∀ (context : Context) (clock : Clock), context.hasDeadline = false →
      ((context.withTimeout clock c.limits.timeout).hasDeadline = true ↔ 0 < c.limits.timeout)) ∧
    ∀ (i : Interpreter) (o : Occasion), i.effectiveLimits o = c.limits →
      o.context = .background →
      if 0 < c.limits.timeout then
        ∃ st, Evaluates (i.setting o) 0 Interpreter.globalScope .endless i.initial
          ⟨.fault (.interrupted .expired), st⟩
      else
        ∀ r, ¬ Evaluates (i.setting o) 0 Interpreter.globalScope .endless i.initial r := by
  have hexact := nanoseconds_eq_iff (timeoutMs_nonneg hvalid)
  refine ⟨hexact, fun hsmall => ?_, nanoseconds_pos_iff c.timeoutMs, fun context clock hnone => ?_,
    fun i o hlimits hcontext => ?_⟩
  · rw [show c.limits.timeout = c.timeoutMs * 1000000 from hexact.mpr hsmall]
    omega
  · simp [Context.hasDeadline_withTimeout, hnone]
  · -- Nothing but the limits of the configuration bounds the time of the run.
    have hsetting : (i.setting o).context =
        Context.background.withTimeout o.host.clock c.limits.timeout := by
      rw [Interpreter.setting, hlimits, hcontext]
    split
    · rename_i hon
      have hstatus := Context.status_background_withTimeout o.host.clock hon
      rw [← hsetting] at hstatus
      -- The loop goes up to the first check at which the time of the timeout is over.
      have hover := o.host.clock.passes c.limits.timeout
      have hbefore : ∀ m < Nat.find hover, (i.setting o).context.status m = none := by
        intro m hm
        rw [hstatus, if_neg (Nat.find_min hover hm)]
      have hstop : (i.setting o).context.status (Nat.find hover) = some .expired := by
        rw [hstatus, if_pos (Nat.find_spec hover)]
      exact evaluates_endless 0 _ hbefore hstop (Nat.zero_le _)
    · rename_i hoff
      have hquiet : (i.setting o).Quiet := by
        intro n
        rw [hsetting, Context.withTimeout_of_nonpos _ _ (Int.not_lt.mp hoff)]
        rfl
      exact not_evaluates_endless 0 _ hquiet

/-- One millisecond more than fits is valid, and turns the timeout off. -/
theorem timeout_enforced_iff_beyond :
    let c := { Config.default with timeoutMs := greatestMilliseconds + 1 }
    c.validate = .ok c ∧ c.limits.timeout ≠ c.timeoutMs * 1000000 ∧
      ∀ clock, (Context.background.withTimeout clock c.limits.timeout).hasDeadline = false := by
  intro c
  have hvalid : c.validate = .ok c := by
    simp [c, validate, Config.default, sortGlobals, greatestMilliseconds]
  obtain ⟨hexact, -, hon, hdeadline, -⟩ := timeout_enforced_iff hvalid
  refine ⟨hvalid, mt hexact.mp (by decide), fun clock => ?_⟩
  rw [← Bool.not_eq_true, hdeadline .background clock rfl, hon]
  decide

end Config

end Scriptlet
