/-
  Scriptlet.Proofs.Evaluation

  What an evaluation depends on. Fuel only decides whether it ends, and what
  was written, done and checked before only stands behind what it adds: from
  the same scopes and identities an evaluation takes the same course, unless a
  check interrupts it (`concludes_after`).

  Both facts are one induction on the fuel. It compares a run that goes on from
  the past `p` with one that goes on from the past `q` with at least as much
  fuel, the checks of both finding the same: where the first one ends, both
  reach the same result, each behind its own past. With equal pasts this says
  that more fuel changes nothing (`evalSequence_of_le`), with equal fuel that the
  past changes nothing.

  The other parts are about trees that end (`Evaluates`), and about sequences of
  statements, which are taken apart (`evalSequence_append`).
-/
import Scriptlet.Evaluation
import Mathlib.Tactic.Common

namespace Scriptlet

/-! ## Histories -/

/-- The state with the history of `past` behind its own. -/
def State.after (st past : State) : State :=
  { st with
    checks := past.checks + st.checks
    written := st.written ++ past.written
    events := st.events ++ past.events }

/-- The result with the history of `past` behind its own. -/
def Result.after (r : Result) (past : State) : Result := ⟨r.outcome, r.state.after past⟩

/-- The state without its history. -/
def State.fresh (st : State) : State := ⟨st.scopes, st.identities, 0, [], []⟩

namespace State

variable {st past : State} {scope : ScopeId}

theorem fresh_after (st : State) : st.fresh.after st = st := rfl

theorem after_fresh (st past : State) : st.after past.fresh = st := by
  simp [after, fresh]

theorem scopes_after : (st.after past).scopes = st.scopes := rfl

theorem note_after (e : Event) : (st.after past).note e = (st.note e).after past := rfl

/-- Reading looks at the scopes only, so the past has no part in it. -/
theorem read_after (name : Name) :
    (st.after past).read scope name = (st.read scope name).after past := by
  unfold read
  rw [scopes_after]
  cases st.scopes.lookup? scope name <;> rfl

/-- Writing chooses its scope by the scopes only. -/
theorem write_after (name : Name) (v : Value) :
    (st.after past).write scope name v = (st.write scope name v).after past := by
  unfold write
  rw [scopes_after]
  cases st.scopes.target? scope name <;> rfl

/-- Operators look at their operands only. -/
theorem operate_after (operands : List Value) (result : Except EvalProblem Value) :
    (st.after past).operate operands result = (st.operate operands result).after past := by
  cases result <;> rfl

/-- A function of the host is called with the same arguments, whatever came before. -/
theorem invoke_after (w : Setting) (name : Name) (f : HostFunction) (arguments : List Value) :
    (st.after past).invoke w name f arguments =
      (st.invoke w name f arguments).after past := by
  unfold invoke
  cases h : (w.host.call f w.sink arguments).result with
  | error fault => simp only [h]; rfl
  | ok v? => cases v? <;> simp only [h] <;> rfl

/-- Entering a function makes the same scope behind any past. -/
theorem enter_after (function : Function) (home : ScopeId) (arguments : List Value)
    (depth : Nat) :
    (st.after past).enter function home arguments depth =
      ((st.enter function home arguments depth).1,
        (st.enter function home arguments depth).2.after past) := rfl

end State

/-- A past without a history adds nothing. -/
theorem Result.after_fresh (r : Result) (past : State) : r.after past.fresh = r := by
  rw [after, State.after_fresh]

theorem Result.andThen_starved {r : Result} {go : Value → State → Result}
    (h : r.outcome = .starved) : (r.andThen go).outcome = .starved := by
  obtain ⟨_, st⟩ := r
  cases h
  rfl

theorem Result.map_starved {r : Result} {f : Value → Value} :
    (r.map f).outcome = .starved ↔ r.outcome = .starved := by
  obtain ⟨_ | _ | _, st⟩ := r <;> simp [Result.map]

theorem Result.map_state (f : Value → Value) (r : Result) : (r.map f).state = r.state := by
  obtain ⟨_ | _ | _, st⟩ := r <;> rfl

/-- A value that is no return on its way out is handed on. -/
theorem Result.andThen_value {v : Value} {st : State} {go : Value → State → Result}
    (hv : v.isReturned = false) : (⟨.value v, st⟩ : Result).andThen go = go v st := by
  simp [Result.andThen, hv]

/-- A return on its way out skips what would come next. -/
theorem Result.andThen_returned {v : Value} {st : State} {go : Value → State → Result}
    (hv : v.isReturned = true) : (⟨.value v, st⟩ : Result).andThen go = ⟨.value v, st⟩ := by
  simp [Result.andThen, hv]

/-! ## Agreement -/

/-- No check finds an interruption. -/
def Setting.Quiet (w : Setting) : Prop := ∀ n, w.context.status n = none

/-- The checks behind one past find what those behind the other find. -/
def Setting.InStep (w : Setting) (p q : State) : Prop :=
  ∀ n, w.context.status (p.checks + n) = w.context.status (q.checks + n)

/-- Where no check interrupts, any two pasts are in step. -/
theorem Setting.Quiet.inStep {w : Setting} (hquiet : w.Quiet) (p q : State) : w.InStep p q := by
  intro n
  rw [hquiet, hquiet]

theorem Setting.InStep.refl (w : Setting) (p : State) : w.InStep p p := fun _ => rfl

/-- If `r` is a result at all, then `r` and `r'` are the same one, behind the
    pasts `p` and `q`. -/
def Result.Agrees (p q : State) (r r' : Result) : Prop :=
  r.outcome ≠ .starved → ∃ c : Result, r = c.after p ∧ r' = c.after q

namespace Result.Agrees

variable {p q : State} {r r' : Result}

/-- One result behind two pasts agrees with itself. -/
theorem of_after (c : Result) : Agrees p q (c.after p) (c.after q) := fun _ => ⟨c, rfl, rfl⟩

/-- A starved run agrees with anything, as it is no result yet. -/
theorem starved (st : State) : Agrees p q ⟨.starved, st⟩ r' := fun h => absurd rfl h

/-- Two steps agree if the first do, and the second do from every common state. -/
theorem andThen {go go' : Value → State → Result} (h : Agrees p q r r')
    (hgo : ∀ v (st : State), Agrees p q (go v (st.after p)) (go' v (st.after q))) :
    Agrees p q (r.andThen go) (r'.andThen go') := by
  intro hends
  -- A part that is starved starves the whole, so `r` is a result.
  have hr : r.outcome ≠ .starved := fun hstarved => hends (andThen_starved hstarved)
  obtain ⟨c, rfl, rfl⟩ := h hr
  obtain ⟨outcome, st⟩ := c
  cases outcome with
  | value v =>
    -- A return on its way out skips the second step in both runs.
    cases hv : v.isReturned with
    | true => exact ⟨⟨.value v, st⟩, andThen_returned hv, andThen_returned hv⟩
    | false =>
      have hfirst : (Result.after ⟨.value v, st⟩ p).andThen go = go v (st.after p) :=
        andThen_value hv
      have hsecond : (Result.after ⟨.value v, st⟩ q).andThen go' = go' v (st.after q) :=
        andThen_value hv
      rw [hfirst] at hends ⊢
      rw [hsecond]
      exact hgo v st hends
  | fault f => exact ⟨⟨.fault f, st⟩, rfl, rfl⟩
  | starved => exact absurd rfl hr

theorem map {f : Value → Value} (h : Agrees p q r r') : Agrees p q (r.map f) (r'.map f) := by
  intro hends
  have hr : r.outcome ≠ .starved := fun hstarved => hends (map_starved.mpr hstarved)
  obtain ⟨c, rfl, rfl⟩ := h hr
  refine ⟨c.map f, ?_, ?_⟩ <;> obtain ⟨_ | _ | _, st⟩ := c <;> rfl

/-- Checks in step stop both runs with one fault or let both go on. -/
theorem check {w : Setting} (hstep : w.InStep p q) {go go' : State → Result} {st : State}
    (hgo : ∀ st : State, Agrees p q (go (st.after p)) (go' (st.after q))) :
    Agrees p q ((st.after p).check w go) ((st.after q).check w go') := by
  have hsame : w.context.status (st.after p).checks = w.context.status (st.after q).checks :=
    hstep st.checks
  simp only [State.check, hsame]
  cases w.context.status (st.after q).checks with
  | some i => exact of_after ⟨.fault (.interrupted i), { st with checks := st.checks + 1 }⟩
  | none => exact hgo { st with checks := st.checks + 1 }

/-- Behind one past there is one result. -/
theorem eq_of_ends (h : Agrees p p r r') (hends : r.outcome ≠ .starved) : r' = r := by
  obtain ⟨c, rfl, rfl⟩ := h hends
  rfl

end Result.Agrees

/-! ## One step of the fuel -/

/-- Evaluations with the fuel `n` behind `p` agree with those with the fuel `m`
    behind `q`. -/
structure Alike (w : Setting) (p q : State) (n m : Nat) : Prop where
  node : ∀ depth scope node (st : State),
    Result.Agrees p q (eval w n depth scope node (st.after p))
      (eval w m depth scope node (st.after q))
  sequence : ∀ depth scope ss last (st : State),
    Result.Agrees p q (evalSequence w n depth scope ss last (st.after p))
      (evalSequence w m depth scope ss last (st.after q))
  tail : ∀ depth scope tail (st : State),
    Result.Agrees p q (evalTail w n depth scope tail (st.after p))
      (evalTail w m depth scope tail (st.after q))
  loop : ∀ depth scope condition body last (st : State),
    Result.Agrees p q (evalLoop w n depth scope condition body last (st.after p))
      (evalLoop w m depth scope condition body last (st.after q))
  call : ∀ depth scope f arguments done (st : State),
    Result.Agrees p q (evalCall w n depth scope f arguments done (st.after p))
      (evalCall w m depth scope f arguments done (st.after q))
  apply : ∀ depth f arguments (st : State),
    Result.Agrees p q (Scriptlet.apply w n depth f arguments (st.after p))
      (Scriptlet.apply w m depth f arguments (st.after q))

namespace Alike

variable {w : Setting} {p q : State} {n m : Nat}

open Result.Agrees

/-- Without fuel no evaluation is a result, so there is nothing to compare. -/
theorem zero (m : Nat) : Alike w p q 0 m := by
  refine ⟨?_, ?_, ?_, ?_, ?_, ?_⟩
  · intro depth scope node st
    rw [eval]
    exact starved _
  · intro depth scope ss last st
    rw [evalSequence]
    exact starved _
  · intro depth scope tail st
    rw [evalTail]
    exact starved _
  · intro depth scope condition body last st
    rw [evalLoop]
    exact starved _
  · intro depth scope f arguments done st
    rw [evalCall]
    exact starved _
  · intro depth f arguments st
    rw [Scriptlet.apply]
    exact starved _

/-- The operands are evaluated alike, and so the operator finds the same values. -/
theorem binary_succ (ih : Alike w p q n m) (depth : Nat) (scope : ScopeId) (op : BinaryOp)
    (left right : Node) (st : State) :
    Result.Agrees p q (eval w (n + 1) depth scope (.binary op left right) (st.after p))
      (eval w (m + 1) depth scope (.binary op left right) (st.after q)) := by
  rw [eval, eval]
  refine (ih.node depth scope left st).andThen fun l st => ?_
  have hright := ih.node depth scope right st
  cases op with
  | and =>
    -- Both sides decide on the same value, so they take the same branch.
    show Result.Agrees p q (if l.isFalse then _ else _) (if l.isFalse then _ else _)
    split
    · exact of_after ⟨_, st⟩
    · exact hright
  | or =>
    show Result.Agrees p q (if l.isFalse then _ else _) (if l.isFalse then _ else _)
    split
    · exact hright
    · exact of_after ⟨_, st⟩
  | _ =>
    refine hright.andThen fun r st => ?_
    rw [State.operate_after, State.operate_after]
    exact of_after _

/-- A construct is alike in both runs if its parts are, one case for each construct. -/
theorem node_succ (ih : Alike w p q n m) (depth : Nat) (scope : ScopeId) (node : Node)
    (st : State) :
    Result.Agrees p q (eval w (n + 1) depth scope node (st.after p))
      (eval w (m + 1) depth scope node (st.after q)) := by
  cases node with
  | program statements =>
    rw [eval, eval]
    exact (ih.sequence depth scope statements _ st).map
  | block body =>
    rw [eval, eval]
    exact ih.sequence depth scope body.statements _ st
  | int | float | str | bool | otherwise | absent =>
    rw [eval, eval]
    exact of_after ⟨_, st⟩
  | ident name =>
    rw [eval, eval, State.read_after, State.read_after]
    exact of_after _
  | unary op operand =>
    rw [eval, eval]
    refine (ih.node depth scope operand st).andThen fun v st => ?_
    rw [State.operate_after, State.operate_after]
    exact of_after _
  | binary op left right => exact ih.binary_succ depth scope op left right st
  | assign target value =>
    cases target with
    | ident name =>
      rw [eval, eval]
      refine (ih.node depth scope value st).andThen fun v st => ?_
      rw [State.write_after, State.write_after]
      exact of_after _
    -- Nothing but a name can be assigned to, whatever the past.
    | _ =>
      simp only [eval]
      exact of_after ⟨_, st⟩
  | call callee arguments =>
    rw [eval, eval]
    exact (ih.node depth scope callee st).andThen fun f st => ih.call depth scope f arguments [] st
  | func name parameters body =>
    rw [eval, eval]
    exact of_after (st.declare scope ⟨name, parameters, body⟩)
  | branch condition body tail =>
    rw [eval, eval]
    refine (ih.node depth scope condition st).andThen fun c st => ?_
    cases c.isFalse with
    | true => exact ih.tail depth scope tail st
    | false => exact ih.sequence depth scope body.statements _ st
  | loop condition body =>
    rw [eval, eval]
    exact ih.loop depth scope condition body _ st
  | ret value =>
    rw [eval, eval]
    exact (ih.node depth scope value st).andThen fun v st => of_after ⟨.value (.returned v), st⟩

/-- Statements are alike one by one, the rest from the state that the first leaves. -/
theorem sequence_succ (ih : Alike w p q n m) (depth : Nat) (scope : ScopeId) (ss : List Node)
    (last : Value) (st : State) :
    Result.Agrees p q (evalSequence w (n + 1) depth scope ss last (st.after p))
      (evalSequence w (m + 1) depth scope ss last (st.after q)) := by
  cases ss with
  | nil =>
    rw [evalSequence, evalSequence]
    exact of_after ⟨.value last, st⟩
  | cons s ss =>
    rw [evalSequence, evalSequence]
    exact (ih.node depth scope s st).andThen fun v st => ih.sequence depth scope ss v st

/-- Conditions with one value lead both runs into the same branch. -/
theorem tail_succ (ih : Alike w p q n m) (depth : Nat) (scope : ScopeId) (tail : Tail)
    (st : State) :
    Result.Agrees p q (evalTail w (n + 1) depth scope tail (st.after p))
      (evalTail w (m + 1) depth scope tail (st.after q)) := by
  cases tail with
  | none =>
    rw [evalTail, evalTail]
    exact of_after ⟨_, st⟩
  | «else» body =>
    rw [evalTail, evalTail]
    exact ih.sequence depth scope body.statements _ st
  | elif condition body rest =>
    rw [evalTail, evalTail]
    refine (ih.node depth scope condition st).andThen fun c st => ?_
    cases c.isFalse with
    | true => exact ih.tail depth scope rest st
    | false => exact ih.sequence depth scope body.statements _ st

/-- A round is a check, the condition and the body, and the rounds behind it. -/
theorem loop_succ (hstep : w.InStep p q) (ih : Alike w p q n m) (depth : Nat) (scope : ScopeId)
    (condition : Node) (body : Block) (last : Value) (st : State) :
    Result.Agrees p q (evalLoop w (n + 1) depth scope condition body last (st.after p))
      (evalLoop w (m + 1) depth scope condition body last (st.after q)) := by
  rw [evalLoop, evalLoop]
  -- The check counts itself in both runs, and interrupts both or neither.
  refine check hstep fun st => ?_
  rw [State.note_after, State.note_after]
  refine (ih.node depth scope condition (st.note .looped)).andThen fun c st => ?_
  cases c.isFalse with
  | true => exact of_after ⟨.value last, st⟩
  | false =>
    exact (ih.sequence depth scope body.statements _ st).andThen fun v st =>
      ih.loop depth scope condition body v st

/-- Arguments are evaluated alike, and then the function is applied to the same values. -/
theorem call_succ (ih : Alike w p q n m) (depth : Nat) (scope : ScopeId) (f : Value)
    (arguments : List Node) (done : List Value) (st : State) :
    Result.Agrees p q (evalCall w (n + 1) depth scope f arguments done (st.after p))
      (evalCall w (m + 1) depth scope f arguments done (st.after q)) := by
  cases arguments with
  | nil =>
    rw [evalCall, evalCall]
    exact ih.apply depth f done.reverse st
  | cons a as =>
    rw [evalCall, evalCall]
    exact (ih.node depth scope a st).andThen fun v st => ih.call depth scope f as (v :: done) st

/-- The limit on calls depends on the depth only, so both runs enter the function or neither. -/
theorem apply_succ (hstep : w.InStep p q) (ih : Alike w p q n m) (depth : Nat) (f : Value)
    (arguments : List Value) (st : State) :
    Result.Agrees p q (Scriptlet.apply w (n + 1) depth f arguments (st.after p))
      (Scriptlet.apply w (m + 1) depth f arguments (st.after q)) := by
  rw [Scriptlet.apply, Scriptlet.apply]
  refine check hstep fun st => ?_
  cases f with
  | closure identity function home =>
    show Result.Agrees p q (if 0 < w.maxCallDepth && w.maxCallDepth ≤ depth then _ else _)
      (if 0 < w.maxCallDepth && w.maxCallDepth ≤ depth then _ else _)
    split
    · exact of_after ⟨_, st⟩
    · -- The scope of the call is the same one, and the body is a sequence in it.
      rw [State.enter_after, State.enter_after]
      exact (ih.sequence (depth + 1) _ function.body.statements _
        (st.enter function home arguments (depth + 1)).2).map
  | builtin identity name function =>
    show Result.Agrees p q ((st.after p).invoke w name function arguments)
      ((st.after q).invoke w name function arguments)
    rw [State.invoke_after, State.invoke_after]
    exact of_after _
  | _ => exact of_after ⟨_, st⟩

end Alike

/-- More fuel and another past change neither the course of an evaluation that
    ends nor its result. -/
theorem alike_of_le {w : Setting} {p q : State} (hstep : w.InStep p q) {n m : Nat} (hle : n ≤ m) :
    Alike w p q n m := by
  induction n generalizing m with
  | zero => exact .zero m
  | succ n ih =>
    -- The larger fuel is a successor too, so both runs take a step.
    obtain ⟨m, rfl⟩ := Nat.exists_eq_add_of_lt hle
    have ih' := ih (m := n + m) (Nat.le_add_right n m)
    exact ⟨ih'.node_succ, ih'.sequence_succ, ih'.tail_succ, ih'.loop_succ hstep, ih'.call_succ,
      ih'.apply_succ hstep⟩

/-! ## Trees that end -/

/-- Evaluated with enough fuel, the node ends with `r`. -/
def Evaluates (w : Setting) (depth : Nat) (scope : ScopeId) (node : Node) (st : State)
    (r : Result) : Prop :=
  ∃ n, eval w n depth scope node st = r ∧ r.outcome ≠ .starved

/-- From some amount of fuel on, the computation gives `r`. -/
def Settles (run : Nat → Result) (r : Result) : Prop := ∃ enough, ∀ n, enough ≤ n → run n = r

namespace Settles

variable {run run₁ run₂ : Nat → Result} {r r₁ r₂ : Result}

theorem unique (h : Settles run r) (h' : Settles run r₁) : r = r₁ := by
  obtain ⟨n, hn⟩ := h
  obtain ⟨m, hm⟩ := h'
  -- The larger of both amounts is enough for both.
  rw [← hn (max n m) (Nat.le_max_left n m), hm (max n m) (Nat.le_max_right n m)]

/-- One unit of fuel goes to a construct, the rest to its parts. -/
theorem of_succ (h : Settles (fun n => run (n + 1)) r) : Settles run r := by
  obtain ⟨enough, hrun⟩ := h
  refine ⟨enough + 1, fun n hn => ?_⟩
  obtain ⟨m, rfl⟩ := Nat.exists_eq_add_of_lt hn
  exact hrun _ (Nat.le_add_right enough m)

/-- What is computed from a settled result is settled. -/
theorem map (h : Settles run₁ r₁) (hmap : ∀ n, run₁ n = r₁ → run n = r) : Settles run r := by
  obtain ⟨enough, hrun⟩ := h
  exact ⟨enough, fun n hn => hmap n (hrun n hn)⟩

theorem map₂ (h₁ : Settles run₁ r₁) (h₂ : Settles run₂ r₂)
    (hmap : ∀ n, run₁ n = r₁ → run₂ n = r₂ → run n = r) : Settles run r := by
  obtain ⟨n₁, hrun₁⟩ := h₁
  obtain ⟨n₂, hrun₂⟩ := h₂
  refine ⟨n₁ + n₂, fun n hn => hmap n (hrun₁ n ?_) (hrun₂ n ?_)⟩
  · omega
  · omega

end Settles

section Trees

variable {w : Setting} {depth : Nat} {scope : ScopeId} {node : Node} {st : State} {r r' : Result}

/-- More fuel does not change how a node ends. -/
theorem eval_of_le {n m : Nat} (hle : n ≤ m) (hr : eval w n depth scope node st = r)
    (hends : r.outcome ≠ .starved) : eval w m depth scope node st = r := by
  have hagrees := (alike_of_le (.refl w st.fresh) hle).node depth scope node st
  rw [State.after_fresh, hr] at hagrees
  exact hagrees.eq_of_ends hends

/-- A node that ends with some fuel ends with the same result from there on. -/
theorem Evaluates.settles (h : Evaluates w depth scope node st r) :
    Settles (fun n => eval w n depth scope node st) r := by
  obtain ⟨n, hn, hends⟩ := h
  exact ⟨n, fun m hm => eval_of_le hm hn hends⟩

/-- A node that settles on a result that is not starved ends with it. -/
theorem Settles.evaluates (h : Settles (fun n => eval w n depth scope node st) r)
    (hends : r.outcome ≠ .starved) : Evaluates w depth scope node st r := by
  obtain ⟨n, hn⟩ := h
  exact ⟨n, hn n (Nat.le_refl n), hends⟩

theorem Evaluates.ends (h : Evaluates w depth scope node st r) : r.outcome ≠ .starved := by
  obtain ⟨n, hn, hends⟩ := h
  exact hends

/-- A tree ends with one result. -/
theorem Evaluates.unique (h : Evaluates w depth scope node st r)
    (h' : Evaluates w depth scope node st r') : r = r' :=
  h.settles.unique h'.settles

end Trees

/-! ## Sequences of statements -/

section Sequences

variable {w : Setting} {depth : Nat} {scope : ScopeId} {ss ts : List Node} {st : State}
  {r r' : Result}

/-- More fuel does not change how a sequence of statements ends. -/
theorem evalSequence_of_le (hquiet : w.Quiet) {n m : Nat} (hle : n ≤ m) {last : Value}
    (hr : evalSequence w n depth scope ss last st = r) (hends : r.outcome ≠ .starved) :
    evalSequence w m depth scope ss last st = r := by
  have halike := alike_of_le (hquiet.inStep st.fresh st.fresh) hle
  have hagrees := halike.sequence depth scope ss last st
  rw [State.after_fresh, hr] at hagrees
  exact hagrees.eq_of_ends hends

/-- Whether the statement behind one with this result is evaluated. -/
def Result.goesOn (r : Result) : Bool :=
  match r.outcome with
  | .value v => !v.isReturned
  | _ => false

/-- What goes on has a value that is no return on its way out. -/
theorem Result.exists_of_goesOn (h : r.goesOn = true) :
    ∃ v, v.isReturned = false ∧ r = ⟨.value v, r.state⟩ := by
  obtain ⟨outcome, st⟩ := r
  cases outcome with
  | value v => exact ⟨v, by simpa [goesOn] using h, rfl⟩
  | fault | starved => cases h

/-- What does not go on is the result of the whole. -/
theorem Result.andThen_of_not_goesOn {go : Value → State → Result} (h : r.goesOn = false) :
    r.andThen go = r := by
  obtain ⟨outcome, st⟩ := r
  cases outcome with
  | value v => exact andThen_returned (by simpa [goesOn] using h)
  | fault | starved => rfl

/-- A sequence in two parts: the second one follows if the first one goes
    on. -/
theorem evalSequence_append (k : Nat) {last : Value} (hlast : last.isReturned = false) :
    evalSequence w (k + ss.length) depth scope (ss ++ ts) last st =
      (evalSequence w (k + ss.length) depth scope ss last st).andThen fun v st =>
        evalSequence w k depth scope ts v st := by
  induction ss generalizing last st with
  | nil =>
    cases k with
    -- Without fuel both sides starve.
    | zero =>
      have hstarved : ∀ us, evalSequence w 0 depth scope us last st = ⟨.starved, st⟩ := by
        intro us
        rw [evalSequence]
      rw [List.nil_append, List.length_nil, Nat.add_zero, hstarved, hstarved]
      rfl
    | succ k =>
      have hfirst : evalSequence w (k + 1) depth scope [] last st = ⟨.value last, st⟩ := by
        rw [evalSequence]
      rw [List.nil_append, List.length_nil, Nat.add_zero, hfirst, Result.andThen_value hlast]
  | cons s ss ih =>
    have hfuel : k + (s :: ss).length = k + ss.length + 1 := rfl
    rw [List.cons_append, hfuel, evalSequence, evalSequence]
    -- Each statement takes one unit of fuel, so `k` is left for `ts`.
    generalize eval w (k + ss.length) depth scope s st = r
    cases hr : r.goesOn with
    | true =>
      obtain ⟨v, hv, hvalue⟩ := Result.exists_of_goesOn hr
      rw [hvalue, Result.andThen_value hv, Result.andThen_value hv]
      exact ih hv
    | false =>
      rw [Result.andThen_of_not_goesOn hr, Result.andThen_of_not_goesOn hr,
        Result.andThen_of_not_goesOn hr]

/-- The value before a sequence matters only to an empty one. -/
theorem evalSequence_last (hts : ts ≠ []) (n : Nat) (last last' : Value) :
    evalSequence w n depth scope ts last st = evalSequence w n depth scope ts last' st := by
  cases ts with
  | nil => exact absurd rfl hts
  | cons t ts =>
    cases n with
    | zero => rw [evalSequence, evalSequence]
    | succ n => rw [evalSequence, evalSequence]

/-! ## Sequences that end -/

/-- Evaluated with enough fuel, the statements end with `r`. -/
def Concludes (w : Setting) (depth : Nat) (scope : ScopeId) (ss : List Node) (st : State)
    (r : Result) : Prop :=
  ∃ n, evalSequence w n depth scope ss (.bool false) st = r ∧ r.outcome ≠ .starved

/-- A block ends as its statements do. -/
theorem evaluates_block_iff {body : Block} :
    Evaluates w depth scope (.block body) st r ↔ Concludes w depth scope body.statements st r := by
  constructor
  · rintro ⟨n, hn, hends⟩
    cases n with
    | zero =>
      rw [eval] at hn
      rw [← hn] at hends
      exact absurd rfl hends
    | succ n =>
      rw [eval] at hn
      exact ⟨n, hn, hends⟩
  · rintro ⟨n, hn, hends⟩
    exact ⟨n + 1, by rw [eval, hn], hends⟩

theorem Concludes.unique (hquiet : w.Quiet) (h : Concludes w depth scope ss st r)
    (h' : Concludes w depth scope ss st r') : r = r' := by
  obtain ⟨n, hn, hends⟩ := h
  obtain ⟨m, hm, hends'⟩ := h'
  rw [← evalSequence_of_le hquiet (Nat.le_max_left n m) hn hends,
    evalSequence_of_le hquiet (Nat.le_max_right n m) hm hends']

/-- What came before only stands behind the result. -/
theorem concludes_after (hquiet : w.Quiet) (past : State) :
    Concludes w depth scope ss (st.after past) r' ↔
      ∃ r, Concludes w depth scope ss st r ∧ r' = r.after past := by
  constructor
  · rintro ⟨n, hn, hends⟩
    -- The run behind `past` agrees with the one behind no past at all, which is that
    -- from `st` itself.
    have halike := alike_of_le (hquiet.inStep past st.fresh) (Nat.le_refl n)
    have hagrees := halike.sequence depth scope ss (.bool false) st
    rw [hn, State.after_fresh] at hagrees
    obtain ⟨c, rfl, hc⟩ := hagrees hends
    exact ⟨c, ⟨n, by rw [hc, Result.after_fresh], hends⟩, rfl⟩
  · rintro ⟨r, ⟨n, hn, hends⟩, rfl⟩
    have halike := alike_of_le (hquiet.inStep st.fresh past) (Nat.le_refl n)
    have hagrees := halike.sequence depth scope ss (.bool false) st
    rw [State.after_fresh, hn] at hagrees
    obtain ⟨c, hc, hpast⟩ := hagrees hends
    rw [Result.after_fresh] at hc
    subst hc
    exact ⟨n, hpast, hends⟩

/-- A sequence in two parts ends as its first part does, unless that one goes
    on: then it ends as the second part does from there. -/
theorem concludes_append (hquiet : w.Quiet) (hts : ts ≠ []) :
    Concludes w depth scope (ss ++ ts) st r ↔
      ∃ r₁, Concludes w depth scope ss st r₁ ∧
        if r₁.goesOn then Concludes w depth scope ts r₁.state r else r = r₁ := by
  constructor
  · rintro ⟨n, hn, hends⟩
    -- `n` is enough for the whole, so it is enough for each part, and the fuel that
    -- `evalSequence_append` needs on top changes nothing.
    have hwhole := evalSequence_of_le hquiet (Nat.le_add_right n ss.length) hn hends
    rw [evalSequence_append n rfl] at hwhole
    generalize hr₁ : evalSequence w (n + ss.length) depth scope ss (.bool false) st = r₁ at hwhole
    have hends₁ : r₁.outcome ≠ .starved := by
      intro hstarved
      apply hends
      rw [← hwhole]
      exact Result.andThen_starved hstarved
    refine ⟨r₁, ⟨_, hr₁, hends₁⟩, ?_⟩
    split
    · rename_i hgoes
      obtain ⟨v, hv, hvalue⟩ := Result.exists_of_goesOn hgoes
      rw [hvalue, Result.andThen_value hv, evalSequence_last hts n v (.bool false)] at hwhole
      exact ⟨n, hwhole, hends⟩
    · rename_i hstops
      rw [Result.andThen_of_not_goesOn (by simpa using hstops)] at hwhole
      exact hwhole.symm
  · rintro ⟨r₁, ⟨n₁, hn₁, hends₁⟩, hrest⟩
    split at hrest
    · rename_i hgoes
      obtain ⟨n₂, hn₂, hends⟩ := hrest
      obtain ⟨v, hv, hvalue⟩ := Result.exists_of_goesOn hgoes
      -- Fuel for both parts: `k` is left when the first part is done.
      let k := n₁ + n₂
      have hfirst := evalSequence_of_le hquiet (show n₁ ≤ k + ss.length by omega) hn₁ hends₁
      have hsecond := evalSequence_of_le hquiet (show n₂ ≤ k by omega) hn₂ hends
      refine ⟨k + ss.length, ?_, hends⟩
      rw [evalSequence_append k rfl, hfirst, hvalue, Result.andThen_value hv,
        evalSequence_last hts k v (.bool false), hsecond]
    · rename_i hstops
      subst hrest
      have hfirst := evalSequence_of_le hquiet (Nat.le_add_right n₁ ss.length) hn₁ hends₁
      refine ⟨n₁ + ss.length, ?_, hends₁⟩
      rw [evalSequence_append n₁ rfl, hfirst, Result.andThen_of_not_goesOn (by simpa using hstops)]

end Sequences

end Scriptlet
