/-
  Scriptlet.Proofs.Visits

  Where an evaluation may be stopped from outside. Limits and interruptions are
  looked at in two kinds of places only: at the start of a round of a loop, and
  where a function is applied to the values of its arguments. `Visits` says at
  which of these points an evaluation arrives, through the constructs around
  them and the bodies of the functions entered on the way, whose number is the
  depth of the point.

  At every point the setting has a verdict. If that is a fault, then the
  evaluation ends with it (`Visits.evaluates`). Nothing else of the context and
  of the limit on calls matters: evaluations in two settings with the same host
  are the same one unless they arrive at a point where the verdicts differ, and
  a function is entered only at a point (`follows`).
-/
import Scriptlet.Proofs.Unwinding

namespace Scriptlet

/-! ## Points and verdicts -/

/-- A point of an evaluation where it may be stopped, inside `depth` active calls:
    the start of a round of a loop, or the application of a function to
    values. -/
inductive Point where
  | round (depth : Nat) (st : State)
  | application (depth : Nat) (f : Value) (arguments : List Value) (st : State)

namespace Point

/-- How many calls are active at a point. -/
def depth : Point → Nat
  | .round depth _ => depth
  | .application depth _ _ _ => depth

/-- The state in which an evaluation arrives at a point. -/
def state : Point → State
  | .round _ st => st
  | .application _ _ _ st => st

/-- The state behind a point: one more check was made. -/
def checked (p : Point) : State := { p.state with checks := p.state.checks + 1 }

end Point

namespace Setting

/-- The fault of a call of a function inside `depth` others, if the limit does
    not leave room for one more. -/
def refusal (w : Setting) (depth : Nat) : Value → Option Fault
  | .closure _ function _ =>
    if 0 < w.maxCallDepth && w.maxCallDepth ≤ depth then
      some (.eval (.tooDeep w.maxCallDepth function.name))
    else none
  | _ => none

/-- The fault that stops an evaluation at a point, if it is stopped there. -/
def verdict (w : Setting) : Point → Option Fault
  | .round _ st => (w.context.status st.checks).map .interrupted
  | .application depth f _ st =>
    match w.context.status st.checks with
    | some i => some (.interrupted i)
    | none => w.refusal depth f

/-- At the point a function is entered, which the event tells. -/
def Admits (w : Setting) (p : Point) (e : Event) : Prop :=
  ∃ depth identity function home arguments st,
    p = .application depth (.closure identity function home) arguments st ∧
    w.verdict p = none ∧ e = .entered st.scopes.size function arguments (depth + 1)

/-- The setting with another context and another limit on calls. -/
def bounded (w : Setting) (context : Context) (limit : Int) : Setting :=
  { w with context := context, maxCallDepth := limit }

variable {w : Setting} {depth : Nat} {f : Value} {arguments : List Value} {st : State}

theorem status_of_round (h : w.verdict (.round depth st) = none) :
    w.context.status st.checks = none := by
  simpa [verdict] using h

/-- A function is applied if neither the context nor the limit on calls stops it. -/
theorem verdict_application_eq_none :
    w.verdict (.application depth f arguments st) = none ↔
      w.context.status st.checks = none ∧ w.refusal depth f = none := by
  simp only [verdict]
  cases w.context.status st.checks with
  | some i => simp
  | none => simp

theorem refusal_eq_none_iff {identity : Nat} {function : Function} {home : ScopeId} :
    w.refusal depth (.closure identity function home) = none ↔
      ¬ (0 < w.maxCallDepth ∧ w.maxCallDepth ≤ depth) := by
  simp [refusal]

end Setting

/-! ## What follows a verdict -/

/-- Applies a function that is not stopped: one is entered, one of the host is
    called, and nothing else can be applied. -/
def carryOut (w : Setting) (n depth : Nat) (f : Value) (arguments : List Value) (st : State) :
    Result :=
  match f with
  | .closure _ function home =>
    let called := st.enter function home arguments (depth + 1)
    (evalSequence w n (depth + 1) called.1 function.body.statements (.bool false) called.2).map
      Value.ofBody
  | .builtin _ name function => st.invoke w name function arguments
  | v => ⟨.fault (.eval (.notCallable v)), st⟩

theorem Outcome.fault_ne_starved {f : Fault} : Outcome.fault f ≠ .starved := by
  intro h
  cases h

section Verdict

variable {w : Setting} {depth : Nat} {scope : ScopeId} {f : Value} {arguments : List Value}
  {st : State} {g : Fault}

/-- A round that is stopped ends the loop, and its check is counted. -/
theorem evalLoop_of_stop (h : w.verdict (.round depth st) = some g) (n : Nat) (condition : Node)
    (body : Block) (last : Value) :
    evalLoop w (n + 1) depth scope condition body last st =
      ⟨.fault g, { st with checks := st.checks + 1 }⟩ := by
  obtain ⟨i, hstatus, rfl⟩ := Option.map_eq_some_iff.mp h
  rw [evalLoop, State.check]
  simp only [hstatus]

/-- An application that is stopped ends the call, and its check is counted. -/
theorem apply_of_stop (h : w.verdict (.application depth f arguments st) = some g) (n : Nat) :
    apply w (n + 1) depth f arguments st = ⟨.fault g, { st with checks := st.checks + 1 }⟩ := by
  rw [apply, State.check]
  unfold Setting.verdict at h
  cases hstatus : w.context.status st.checks with
  | some i =>
    simp only [hstatus, Option.some.injEq] at h ⊢
    rw [h]
  | none =>
    simp only [hstatus] at h ⊢
    -- Only a closure can be refused for the depth.
    cases f with
    | closure identity function home =>
      simp only [Setting.refusal] at h
      split at h
      · rename_i hfull
        cases h
        simp only [hfull, if_true]
      · cases h
    | _ => cases h

/-- An application that is not stopped is carried out behind its check. -/
theorem apply_of_go (h : w.verdict (.application depth f arguments st) = none) (n : Nat) :
    apply w (n + 1) depth f arguments st =
      carryOut w n depth f arguments { st with checks := st.checks + 1 } := by
  obtain ⟨hstatus, hroom⟩ := Setting.verdict_application_eq_none.mp h
  rw [apply, State.check]
  simp only [hstatus]
  cases f with
  | closure identity function home =>
    have hgoes : (decide (0 < w.maxCallDepth) && decide (w.maxCallDepth ≤ depth)) = false := by
      simpa using Setting.refusal_eq_none_iff.mp hroom
    simp only [hgoes, carryOut]
    rfl
  | _ => rfl

end Verdict

/-! ## Visits -/

section Visiting

variable (w : Setting)

/-- Evaluating a node in its state arrives at a point. -/
inductive Visits : Nat → ScopeId → Node × State → Point → Prop where
  | round {depth : Nat} {scope : ScopeId} {condition : Node} {body : Block} {st st₁ : State} :
      Rounds w depth scope condition body st st₁ →
      Visits depth scope (.loop condition body, st) (.round depth st₁)
  | application {depth : Nat} {scope : ScopeId} {callee : Node} {arguments : List Node} {f : Value}
      {vs : List Value} {st st₁ st₂ : State} :
      Yields w depth scope callee st f st₁ → YieldsAll w depth scope arguments st₁ vs st₂ →
      Visits depth scope (.call callee arguments, st) (.application depth f vs st₂)
  | part {depth : Nat} {scope : ScopeId} {outer inner : Node × State} {p : Point} :
      Descends w depth scope outer inner → Visits depth scope inner p → Visits depth scope outer p
  | statement {depth : Nat} {scope : ScopeId} {s : Node} {before behind : List Node}
      {vs : List Value} {st st₁ : State} {p : Point} :
      YieldsAll w depth scope before st vs st₁ → Visits depth scope (s, st₁) p →
      Visits depth scope (.program (before ++ s :: behind), st) p
  | body {depth : Nat} {scope home : ScopeId} {call : Node × State} {function : Function}
      {entered : State} {p : Point} :
      Enters w depth scope call function home entered →
      Visits (depth + 1) home (.block function.body, entered) p → Visits depth scope call p

/-- Evaluating nodes one after another arrives at a point in one of them. -/
def VisitsEach (depth : Nat) (scope : ScopeId) (nodes : List Node) (st : State) (p : Point) :
    Prop :=
  ∃ before s behind vs st₁, nodes = before ++ s :: behind ∧
    YieldsAll w depth scope before st vs st₁ ∧ Visits w depth scope (s, st₁) p

/-- Evaluating the rest of a conditional arrives at a point. -/
def VisitsTail (depth : Nat) (scope : ScopeId) (tail : Tail) (st : State) (p : Point) : Prop :=
  ∃ inner, TailDescends w depth scope tail st inner ∧ Visits w depth scope inner p

/-- Applying a function is a point itself, and may arrive at others in its
    body. -/
def VisitsApplication (depth : Nat) (f : Value) (arguments : List Value) (st : State) (p : Point) :
    Prop :=
  p = .application depth f arguments st ∨
  ∃ identity function home, f = .closure identity function home ∧
    w.verdict (.application depth f arguments st) = none ∧
    let called := { st with checks := st.checks + 1 }.enter function home arguments (depth + 1)
    Visits w (depth + 1) called.1 (.block function.body, called.2) p

/-- Evaluating the arguments of a call and applying the function arrives at a
    point. -/
def VisitsCall (depth : Nat) (scope : ScopeId) (f : Value) (arguments : List Node)
    (done : List Value) (st : State) (p : Point) : Prop :=
  VisitsEach w depth scope arguments st p ∨
  ∃ vs st₁, YieldsAll w depth scope arguments st vs st₁ ∧
    VisitsApplication w depth f (done.reverse ++ vs) st₁ p

end Visiting

section Arriving

variable {w : Setting} {depth : Nat} {scope : ScopeId} {st st₁ : State} {p : Point} {v : Value}

theorem VisitsEach.head {s : Node} {ss : List Node} (h : Visits w depth scope (s, st) p) :
    VisitsEach w depth scope (s :: ss) st p :=
  ⟨[], s, ss, [], st, rfl, .nil, h⟩

theorem VisitsEach.tail {s : Node} {ss : List Node} (hs : Yields w depth scope s st v st₁)
    (h : VisitsEach w depth scope ss st₁ p) : VisitsEach w depth scope (s :: ss) st p := by
  obtain ⟨before, t, behind, vs, st₂, rfl, hbefore, ht⟩ := h
  exact ⟨s :: before, t, behind, v :: vs, st₂, rfl, .cons hs hbefore, ht⟩

theorem VisitsEach.program {ss : List Node} (h : VisitsEach w depth scope ss st p) :
    Visits w depth scope (.program ss, st) p := by
  obtain ⟨before, s, behind, vs, st₁, rfl, hbefore, hs⟩ := h
  exact .statement hbefore hs

theorem VisitsEach.block {body : Block} (h : VisitsEach w depth scope body.statements st p) :
    Visits w depth scope (.block body, st) p := by
  obtain ⟨ss, inline⟩ := body
  obtain ⟨before, s, behind, vs, st₁, heq, hbefore, hs⟩ := h
  obtain rfl : ss = before ++ s :: behind := heq
  exact .part (.statement hbefore) hs

theorem VisitsCall.tail {f : Value} {a : Node} {as : List Node} {done : List Value}
    (ha : Yields w depth scope a st v st₁) (h : VisitsCall w depth scope f as (v :: done) st₁ p) :
    VisitsCall w depth scope f (a :: as) done st p := by
  rcases h with heach | ⟨vs, st₂, has, happly⟩
  · exact .inl (.tail ha heach)
  · refine .inr ⟨v :: vs, st₂, .cons ha has, ?_⟩
    simpa using happly

/-- The points of the arguments and of the application are points of the call. -/
theorem VisitsCall.visits {callee : Node} {arguments : List Node}
    (hcallee : Yields w depth scope callee st v st₁)
    (h : VisitsCall w depth scope v arguments [] st₁ p) :
    Visits w depth scope (.call callee arguments, st) p := by
  -- In an argument, at the application itself, or in the body of the function.
  rcases h with heach | ⟨vs, st₂, harguments, rfl | ⟨identity, function, home, rfl, hgo, hbody⟩⟩
  · obtain ⟨before, a, behind, vs, st₂, rfl, hbefore, ha⟩ := heach
    exact .part (.argument hcallee hbefore) ha
  · exact .application hcallee harguments
  · obtain ⟨hstatus, hrefusal⟩ := Setting.verdict_application_eq_none.mp hgo
    exact .body (.call hcallee harguments hstatus (Setting.refusal_eq_none_iff.mp hrefusal)) hbody

/-- The rounds behind a complete round are rounds of the whole loop. -/
theorem Visits.next_round {condition : Node} {body : Block} {c : Value} {st₂ : State}
    (hstatus : w.context.status st.checks = none)
    (hcondition : Yields w depth scope condition
      ({ st with checks := st.checks + 1 }.note .looped) c st₁)
    (htrue : c.isFalse = false) (hbody : Yields w depth scope (.block body) st₁ v st₂)
    (h : Visits w depth scope (.loop condition body, st₂) p) :
    Visits w depth scope (.loop condition body, st) p := by
  have hround : ∀ {st₃}, Rounds w depth scope condition body st₂ st₃ →
      Rounds w depth scope condition body st st₃ :=
    fun hrest => .one hstatus hcondition htrue hbody hrest
  -- A point of the loop is at the start of a round or in a part of one.
  cases h with
  | round hrounds => exact .round (hround hrounds)
  | part hdescends hinner =>
    cases hdescends with
    | loopCondition hrounds hcheck => exact .part (.loopCondition (hround hrounds) hcheck) hinner
    | loopBody hrounds hcheck hc hgoes =>
      exact .part (.loopBody (hround hrounds) hcheck hc hgoes) hinner
  | body henters _ => cases henters

/-- An evaluation that arrives at a point where it is stopped ends there. -/
theorem Visits.evaluates {c : Node × State} {g : Fault} (h : Visits w depth scope c p)
    (hstop : w.verdict p = some g) : Evaluates w depth scope c.1 c.2 ⟨.fault g, p.checked⟩ := by
  -- By the way the evaluation takes to the point; the fault is handed on at each step.
  induction h with
  | @round depth scope condition body st st₁ hrounds =>
    have hround : ∀ last, Settles (fun n => evalLoop w n depth scope condition body last st₁)
        ⟨.fault g, (Point.round depth st₁).checked⟩ :=
      fun last => .of_succ ⟨0, fun n _ => evalLoop_of_stop hstop n condition body last⟩
    refine (Settles.of_succ ?_).evaluates Outcome.fault_ne_starved
    refine (hrounds.loop (.bool false) hround).map fun n hn => ?_
    simp only [eval, hn]
  | @application depth scope callee arguments f vs st st₁ st₂ hcallee harguments =>
    have happly : Settles (fun n => apply w n depth f vs st₂)
        ⟨.fault g, (Point.application depth f vs st₂).checked⟩ :=
      .of_succ ⟨0, fun n _ => apply_of_stop hstop n⟩
    refine (Settles.of_succ ?_).evaluates Outcome.fault_ne_starved
    refine hcallee.1.settles.map₂ (harguments.apply happly) fun n hfirst hn => ?_
    simp only [eval, hfirst, hcallee.andThen, hn]
  | part hdescends _ ih => exact hdescends.evaluates (ih hstop) rfl
  | @statement depth scope s before behind vs st st₁ p hbefore _ ih =>
    have hs := (ih hstop).settles
    -- The statements before gave values, so the one that stops is reached.
    have hstatement : ∀ last,
        Settles (fun n => evalSequence w n depth scope (s :: behind) last st₁)
          ⟨.fault g, p.checked⟩ := by
      intro last
      refine .of_succ (hs.map fun n hn => ?_)
      rw [evalSequence, hn]
      rfl
    refine (Settles.of_succ ?_).evaluates Outcome.fault_ne_starved
    refine (hbefore.sequence (.bool false) hstatement).map fun n hn => ?_
    simp only [eval, hn]
    rfl
  | body henters _ ih => exact henters.evaluates (ih hstop)

end Arriving

/-! ## Evaluations in two settings -/

/-- Whether an event is the entry into a function. -/
def Event.isEntry : Event → Bool
  | .entered _ _ _ _ => true
  | _ => false

/-- `r` in the setting `w` and `r'` in the setting `w'`, both from the state `st`:
    the functions entered are those of the points `P`, and the results are the
    same one, unless `P` has a point where the verdicts differ. -/
structure Follows (w w' : Setting) (P : Point → Prop) (st : State) (r r' : Result) : Prop where
  entries : ∀ e ∈ r.state.events, e.isEntry = true → e ∈ st.events ∨ ∃ p, P p ∧ w.Admits p e
  same : r' = r ∨ ∃ p, P p ∧ w.verdict p ≠ w'.verdict p

namespace Follows

variable {w w' : Setting} {P Q : Point → Prop} {st st₁ : State} {r r' : Result}

/-- A step that enters no function and does not depend on the setting. -/
theorem of_step (h : ∀ e ∈ r.state.events, e.isEntry = true → e ∈ st.events) :
    Follows w w' P st r r :=
  ⟨fun e he hentry => .inl (h e he hentry), .inl rfl⟩

theorem of_state (o : Outcome) : Follows w w' P st ⟨o, st⟩ ⟨o, st⟩ := .of_step fun _ he _ => he

/-- Less can differ where fewer points are visited. -/
theorem mono (h : Follows w w' P st r r') (hPQ : ∀ p, P p → Q p) : Follows w w' Q st r r' where
  entries e he hentry := (h.entries e he hentry).imp_right fun ⟨p, hp, hadmits⟩ =>
    ⟨p, hPQ p hp, hadmits⟩
  same := h.same.imp_right fun ⟨p, hp, hdiffers⟩ => ⟨p, hPQ p hp, hdiffers⟩

/-- A start from a state behind further events, none of them an entry. -/
theorem of_note (h : Follows w w' P st₁ r r')
    (hevents : ∀ e ∈ st₁.events, e.isEntry = true → e ∈ st.events) : Follows w w' P st r r' where
  entries e he hentry := by
    rcases h.entries e he hentry with hold | hnew
    · exact .inl (hevents e hold hentry)
    · exact .inr hnew
  same := h.same

theorem map {f : Value → Value} (h : Follows w w' P st r r') :
    Follows w w' P st (r.map f) (r'.map f) where
  entries e he hentry := by
    rw [Result.map_state] at he
    exact h.entries e he hentry
  same := h.same.imp_left fun heq => by rw [heq]

/-- Two steps follow each other in both settings, or the settings part at a point of one of
them. -/
theorem andThen {go go' : Value → State → Result} (h : Follows w w' P st r r')
    (hgo : ∀ v st₁, r = ⟨.value v, st₁⟩ → v.isReturned = false →
      Follows w w' P st₁ (go v st₁) (go' v st₁)) :
    Follows w w' P st (r.andThen go) (r'.andThen go') := by
  -- The second step runs only if the first one goes on.
  cases hr : r.goesOn with
  | false =>
    refine ⟨?_, ?_⟩
    · rw [Result.andThen_of_not_goesOn hr]
      exact h.entries
    · rcases h.same with rfl | hdiffers
      · rw [Result.andThen_of_not_goesOn hr, Result.andThen_of_not_goesOn hr]
        exact .inl rfl
      · exact .inr hdiffers
  | true =>
    obtain ⟨v, hv, hvalue⟩ := Result.exists_of_goesOn hr
    have hrest := hgo v r.state hvalue hv
    have hfirst : r.andThen go = go v r.state := by rw [hvalue, Result.andThen_value hv]
    rw [hfirst]
    refine ⟨?_, ?_⟩
    · intro e he hentry
      -- A function was entered in the second step, or in the first or before.
      rcases hrest.entries e he hentry with hold | hnew
      · exact h.entries e hold hentry
      · exact .inr hnew
    · rcases h.same with rfl | hdiffers
      · have hsecond : r'.andThen go' = go' v r'.state := by rw [hvalue, Result.andThen_value hv]
        rw [hsecond]
        exact hrest.same
      · exact .inr hdiffers

end Follows

/-- Evaluations with the fuel `n` in `w` and in `w'`. -/
structure FollowsAll (w w' : Setting) (n : Nat) : Prop where
  node : ∀ depth scope node st, Follows w w' (Visits w depth scope (node, st)) st
    (eval w n depth scope node st) (eval w' n depth scope node st)
  sequence : ∀ depth scope ss last st, Follows w w' (VisitsEach w depth scope ss st) st
    (evalSequence w n depth scope ss last st) (evalSequence w' n depth scope ss last st)
  tail : ∀ depth scope tail st, Follows w w' (VisitsTail w depth scope tail st) st
    (evalTail w n depth scope tail st) (evalTail w' n depth scope tail st)
  loop : ∀ depth scope condition body last st,
    Follows w w' (Visits w depth scope (.loop condition body, st)) st
      (evalLoop w n depth scope condition body last st)
      (evalLoop w' n depth scope condition body last st)
  call : ∀ depth scope f arguments done st,
    Follows w w' (VisitsCall w depth scope f arguments done st) st
      (evalCall w n depth scope f arguments done st)
      (evalCall w' n depth scope f arguments done st)
  apply : ∀ depth f arguments st, Follows w w' (VisitsApplication w depth f arguments st) st
    (Scriptlet.apply w n depth f arguments st) (Scriptlet.apply w' n depth f arguments st)

namespace Follows

variable {w w' : Setting} {P : Point → Prop} {st : State}

theorem entries_note {e : Event} (he : e.isEntry = false) :
    ∀ e' ∈ (st.note e).events, e'.isEntry = true → e' ∈ st.events := by
  intro e' hmem hentry
  rcases List.mem_cons.mp hmem with rfl | hold
  · rw [he] at hentry
    cases hentry
  · exact hold

theorem operate (operands : List Value) (result : Except EvalProblem Value) :
    Follows w w' P st (st.operate operands result) (st.operate operands result) := by
  cases result <;> exact .of_step (entries_note rfl)

theorem read (scope : ScopeId) (name : Name) :
    Follows w w' P st (st.read scope name) (st.read scope name) := by
  unfold State.read
  cases st.scopes.lookup? scope name <;> exact .of_state _

theorem write (scope : ScopeId) (name : Name) (v : Value) :
    Follows w w' P st (st.write scope name v) (st.write scope name v) := by
  unfold State.write
  cases st.scopes.target? scope name with
  | none => exact .of_state _
  | some o => exact .of_step (entries_note rfl)

theorem invoke (name : Name) (f : HostFunction) (arguments : List Value) :
    Follows w w' P st (st.invoke w name f arguments) (st.invoke w name f arguments) := by
  refine .of_step ?_
  rw [State.invoke_state]
  exact entries_note rfl

/-- What happens at a point of `P`: each setting stops there by its verdict or
    goes on. -/
theorem at_point {p : Point} {r r' go go' : Result} (hp : P p)
    (hstop : ∀ g, w.verdict p = some g → r = ⟨.fault g, p.checked⟩)
    (hstop' : ∀ g, w'.verdict p = some g → r' = ⟨.fault g, p.checked⟩)
    (hgo : w.verdict p = none → r = go) (hgo' : w'.verdict p = none → r' = go')
    (h : w.verdict p = none → Follows w w' P p.state go go') : Follows w w' P p.state r r' := by
  -- Equal verdicts stop both or let both go on; different ones are all that is asked for.
  by_cases hv : w.verdict p = w'.verdict p
  · cases hw : w.verdict p with
    | some g =>
      rw [hstop g hw, hstop' g (hv ▸ hw)]
      exact .of_step fun _ he _ => he
    | none =>
      rw [hgo hw, hgo' (hv ▸ hw)]
      exact h hw
  · refine ⟨?_, .inr ⟨p, hp, hv⟩⟩
    -- The point itself is where the settings part, so only the entries are left.
    cases hw : w.verdict p with
    | some g =>
      rw [hstop g hw]
      exact fun e he _ => .inl he
    | none =>
      rw [hgo hw]
      exact (h hw).entries

end Follows

namespace FollowsAll

variable {w : Setting} {c : Context} {m : Int} {n : Nat}

open Follows

theorem zero : FollowsAll w (w.bounded c m) 0 := by
  refine ⟨?_, ?_, ?_, ?_, ?_, ?_⟩
  · intro depth scope node st
    rw [eval, eval]
    exact of_state _
  · intro depth scope ss last st
    rw [evalSequence, evalSequence]
    exact of_state _
  · intro depth scope tail st
    rw [evalTail, evalTail]
    exact of_state _
  · intro depth scope condition body last st
    rw [evalLoop, evalLoop]
    exact of_state _
  · intro depth scope f arguments done st
    rw [evalCall, evalCall]
    exact of_state _
  · intro depth f arguments st
    rw [Scriptlet.apply, Scriptlet.apply]
    exact of_state _

/-- What a node of the right fuel evaluates to, it yields. -/
theorem yields {depth : Nat} {scope : ScopeId} {node : Node} {st st₁ : State} {v : Value}
    (h : eval w n depth scope node st = ⟨.value v, st₁⟩) (hv : v.isReturned = false) :
    Yields w depth scope node st v st₁ :=
  ⟨⟨n, h, nofun⟩, hv⟩

/-- What the statements of a block give, the block yields. -/
theorem yields_block {depth : Nat} {scope : ScopeId} {body : Block} {st st₁ : State} {v : Value}
    (h : evalSequence w n depth scope body.statements (.bool false) st = ⟨.value v, st₁⟩)
    (hv : v.isReturned = false) : Yields w depth scope (.block body) st v st₁ :=
  yields (n := n + 1) (by rw [eval, h]) hv

theorem block (ih : FollowsAll w (w.bounded c m) n) (depth : Nat) (scope : ScopeId) (body : Block)
    (st : State) :
    Follows w (w.bounded c m) (Visits w depth scope (.block body, st)) st
      (evalSequence w n depth scope body.statements (.bool false) st)
      (evalSequence (w.bounded c m) n depth scope body.statements (.bool false) st) :=
  (ih.sequence depth scope body.statements _ st).mono fun _ hp => hp.block

/-- A part that the construct descends to. -/
theorem part (ih : FollowsAll w (w.bounded c m) n) {depth : Nat} {scope : ScopeId}
    {outer : Node × State} {node : Node} {st : State}
    (h : Descends w depth scope outer (node, st)) :
    Follows w (w.bounded c m) (Visits w depth scope outer) st (eval w n depth scope node st)
      (eval (w.bounded c m) n depth scope node st) :=
  (ih.node depth scope node st).mono fun _ hp => .part h hp

theorem bodyPart (ih : FollowsAll w (w.bounded c m) n) {depth : Nat} {scope : ScopeId}
    {outer : Node × State} {body : Block} {st : State}
    (h : Descends w depth scope outer (.block body, st)) :
    Follows w (w.bounded c m) (Visits w depth scope outer) st
      (evalSequence w n depth scope body.statements (.bool false) st)
      (evalSequence (w.bounded c m) n depth scope body.statements (.bool false) st) :=
  (ih.block depth scope body st).mono fun _ hp => .part h hp

theorem binary_succ (ih : FollowsAll w (w.bounded c m) n) (depth : Nat) (scope : ScopeId)
    (op : BinaryOp) (left right : Node) (st : State) :
    Follows w (w.bounded c m) (Visits w depth scope (.binary op left right, st)) st
      (eval w (n + 1) depth scope (.binary op left right) st)
      (eval (w.bounded c m) (n + 1) depth scope (.binary op left right) st) := by
  rw [eval, eval]
  refine (ih.part .left).andThen fun l st₁ hleft hl => ?_
  -- The right operand is a part only if the left one does not decide.
  have hright (hgoes : op.skips l = false) :
      Follows w (w.bounded c m) (Visits w depth scope (.binary op left right, st)) st₁
        (eval w n depth scope right st₁) (eval (w.bounded c m) n depth scope right st₁) :=
    ih.part (.right (yields hleft hl) hgoes)
  cases op with
  | and =>
    show Follows _ _ _ _ (if l.isFalse then _ else _) (if l.isFalse then _ else _)
    split
    · exact of_state _
    · rename_i htrue
      exact hright (by simpa [BinaryOp.skips] using htrue)
  | or =>
    show Follows _ _ _ _ (if l.isFalse then _ else _) (if l.isFalse then _ else _)
    split
    · rename_i hfalse
      exact hright (by simpa [BinaryOp.skips] using hfalse)
    · exact of_state _
  | _ => exact (hright rfl).andThen fun r st₂ _ _ => .operate _ _

/-- Every part that a construct evaluates is one that it descends to. -/
theorem node_succ (ih : FollowsAll w (w.bounded c m) n) (depth : Nat) (scope : ScopeId)
    (node : Node) (st : State) :
    Follows w (w.bounded c m) (Visits w depth scope (node, st)) st
      (eval w (n + 1) depth scope node st) (eval (w.bounded c m) (n + 1) depth scope node st) := by
  cases node with
  | program statements =>
    rw [eval, eval]
    exact ((ih.sequence depth scope statements _ st).mono fun _ hp => hp.program).map
  | block body =>
    rw [eval, eval]
    exact ih.block depth scope body st
  | int | float | str | bool | otherwise | absent =>
    rw [eval, eval]
    exact of_state _
  | ident name =>
    rw [eval, eval]
    exact .read scope name
  | unary op operand =>
    rw [eval, eval]
    exact (ih.part .operand).andThen fun v st₁ _ _ => .operate _ _
  | binary op left right => exact ih.binary_succ depth scope op left right st
  | assign target value =>
    cases target with
    | ident name =>
      rw [eval, eval]
      exact (ih.part .assigned).andThen fun v st₁ _ _ => .write scope name v
    | _ =>
      simp only [eval]
      exact of_state _
  | call callee arguments =>
    rw [eval, eval]
    -- The callee comes first; its points are those of a part.
    refine (ih.part .callee).andThen fun f st₁ hcallee hf => ?_
    exact (ih.call depth scope f arguments [] st₁).mono fun p hp => hp.visits (yields hcallee hf)
  | func name parameters body =>
    rw [eval, eval]
    exact .of_step (entries_note (e := .declared scope ⟨name, parameters, body⟩) rfl)
  | branch condition body tail =>
    rw [eval, eval]
    refine (ih.part .condition).andThen fun v st₁ hcondition hv => ?_
    cases hfalse : v.isFalse with
    | true =>
      -- A false condition leads to the rest of the conditional.
      refine (ih.tail depth scope tail st₁).mono fun p hp => ?_
      obtain ⟨inner, htail, hinner⟩ := hp
      exact .part (.tail (yields hcondition hv) hfalse htail) hinner
    | false => exact ih.bodyPart (.body (yields hcondition hv) hfalse)
  | loop condition body =>
    rw [eval, eval]
    exact ih.loop depth scope condition body _ st
  | ret value =>
    rw [eval, eval]
    exact (ih.part .returned).andThen fun v st₁ _ _ => of_state _

theorem sequence_succ (ih : FollowsAll w (w.bounded c m) n) (depth : Nat) (scope : ScopeId)
    (ss : List Node) (last : Value) (st : State) :
    Follows w (w.bounded c m) (VisitsEach w depth scope ss st) st
      (evalSequence w (n + 1) depth scope ss last st)
      (evalSequence (w.bounded c m) (n + 1) depth scope ss last st) := by
  cases ss with
  | nil =>
    rw [evalSequence, evalSequence]
    exact of_state _
  | cons s ss =>
    rw [evalSequence, evalSequence]
    -- The points of the first statement are points of the sequence.
    have hfirst := (ih.node depth scope s st).mono fun p hp =>
      (.head hp : VisitsEach w depth scope (s :: ss) st p)
    refine hfirst.andThen fun v st₁ hs hv => ?_
    exact (ih.sequence depth scope ss v st₁).mono fun p hp => .tail (yields hs hv) hp

theorem tail_succ (ih : FollowsAll w (w.bounded c m) n) (depth : Nat) (scope : ScopeId)
    (tail : Tail) (st : State) :
    Follows w (w.bounded c m) (VisitsTail w depth scope tail st) st
      (evalTail w (n + 1) depth scope tail st)
      (evalTail (w.bounded c m) (n + 1) depth scope tail st) := by
  cases tail with
  | none =>
    rw [evalTail, evalTail]
    exact of_state _
  | «else» body =>
    rw [evalTail, evalTail]
    exact (ih.block depth scope body st).mono fun p hp => ⟨_, .otherwise, hp⟩
  | elif condition body rest =>
    rw [evalTail, evalTail]
    have hfirst := (ih.node depth scope condition st).mono fun p hp =>
      (⟨_, .condition, hp⟩ : VisitsTail w depth scope (.elif condition body rest) st p)
    refine hfirst.andThen fun v st₁ hcondition hv => ?_
    cases hfalse : v.isFalse with
    -- The points of the branches behind are reached through this condition.
    | true =>
      refine (ih.tail depth scope rest st₁).mono fun p hp => ?_
      obtain ⟨inner, htail, hinner⟩ := hp
      exact ⟨inner, .next (yields hcondition hv) hfalse htail, hinner⟩
    | false =>
      exact (ih.block depth scope body st₁).mono fun p hp =>
        ⟨_, .body (yields hcondition hv) hfalse, hp⟩

/-- A round is a point itself; the later rounds are those of the same loop. -/
theorem loop_succ (ih : FollowsAll w (w.bounded c m) n) (depth : Nat) (scope : ScopeId)
    (condition : Node) (body : Block) (last : Value) (st : State) :
    Follows w (w.bounded c m) (Visits w depth scope (.loop condition body, st)) st
      (evalLoop w (n + 1) depth scope condition body last st)
      (evalLoop (w.bounded c m) (n + 1) depth scope condition body last st) := by
  refine at_point (p := .round depth st) (.round .none)
    (fun g hg => evalLoop_of_stop hg n condition body last)
    (fun g hg => evalLoop_of_stop hg n condition body last)
    (fun hgo => evalLoop_succ (Setting.status_of_round hgo) n condition body last)
    (fun hgo => evalLoop_succ (Setting.status_of_round hgo) n condition body last) fun hgo => ?_
  have hstatus := Setting.status_of_round hgo
  -- The first round starts at once: no round is complete yet.
  have hnone : Rounds w depth scope condition body st st := .none
  have hfirst :
      Follows w (w.bounded c m) (Visits w depth scope (.loop condition body, st)) st _ _ :=
    (ih.part (.loopCondition hnone hstatus)).of_note (entries_note rfl)
  refine hfirst.andThen fun v st₁ hcondition hv => ?_
  have hcondition := yields hcondition hv
  cases hfalse : v.isFalse with
  | true => exact of_state _
  | false =>
    -- A true condition leads to the body and from there to the next round.
    have hbody := ih.bodyPart (.loopBody hnone hstatus hcondition hfalse)
    refine hbody.andThen fun u st₂ hround hu => ?_
    have hround := yields_block hround hu
    exact (ih.loop depth scope condition body u st₂).mono fun p hp =>
      hp.next_round hstatus hcondition hfalse hround

theorem call_succ (ih : FollowsAll w (w.bounded c m) n) (depth : Nat) (scope : ScopeId) (f : Value)
    (arguments : List Node) (done : List Value) (st : State) :
    Follows w (w.bounded c m) (VisitsCall w depth scope f arguments done st) st
      (evalCall w (n + 1) depth scope f arguments done st)
      (evalCall (w.bounded c m) (n + 1) depth scope f arguments done st) := by
  cases arguments with
  | nil =>
    rw [evalCall, evalCall]
    -- All arguments have their values, so the function is applied.
    refine (ih.apply depth f done.reverse st).mono fun p hp => ?_
    exact .inr ⟨[], st, .nil, by rwa [List.append_nil]⟩
  | cons a as =>
    rw [evalCall, evalCall]
    have hfirst := (ih.node depth scope a st).mono fun p hp =>
      (.inl (.head hp) : VisitsCall w depth scope f (a :: as) done st p)
    refine hfirst.andThen fun v st₁ ha hv => ?_
    exact (ih.call depth scope f as (v :: done) st₁).mono fun p hp => hp.tail (yields ha hv)

/-- A function is entered only where its application is not stopped. -/
theorem apply_succ (ih : FollowsAll w (w.bounded c m) n) (depth : Nat) (f : Value)
    (arguments : List Value) (st : State) :
    Follows w (w.bounded c m) (VisitsApplication w depth f arguments st) st
      (Scriptlet.apply w (n + 1) depth f arguments st)
      (Scriptlet.apply (w.bounded c m) (n + 1) depth f arguments st) := by
  -- The application is a point itself, and the body has others.
  refine at_point (p := .application depth f arguments st) (.inl rfl)
    (fun g hg => apply_of_stop hg n) (fun g hg => apply_of_stop hg n)
    (fun hgo => apply_of_go hgo n) (fun hgo => apply_of_go hgo n) fun hgo => ?_
  cases f with
  | closure identity function home =>
    let called := { st with checks := st.checks + 1 }.enter function home arguments (depth + 1)
    have hbody := (ih.block (depth + 1) called.1 function.body called.2).mono fun p hp =>
      (.inr ⟨identity, function, home, rfl, hgo, hp⟩ :
        VisitsApplication w depth (.closure identity function home) arguments st p)
    refine Follows.map ⟨?_, hbody.same⟩
    intro e he hentry
    rcases hbody.entries e he hentry with hold | hnew
    · -- The entry noted for this call, or one from before it.
      rcases List.mem_cons.mp hold with rfl | hold
      · exact .inr ⟨_, .inl rfl, depth, identity, function, home, arguments, st, rfl, hgo, rfl⟩
      · exact .inl hold
    · exact .inr hnew
  | builtin identity name function =>
    exact (Follows.invoke name function arguments).of_note fun _ he _ => he
  | _ => exact of_step fun _ he _ => he

end FollowsAll

/-- With another context and another limit on calls an evaluation is the same
    one, unless it arrives at a point where the verdicts differ. It enters
    functions at such points only. -/
theorem follows (w : Setting) (c : Context) (m : Int) (n : Nat) :
    FollowsAll w (w.bounded c m) n := by
  induction n with
  | zero => exact .zero
  | succ n ih =>
    exact ⟨ih.node_succ, ih.sequence_succ, ih.tail_succ, ih.loop_succ, ih.call_succ,
      ih.apply_succ⟩

end Scriptlet
