/-
  Scriptlet.Proofs.Unwinding

  A return unwinds. `Descends` says where the evaluation of a construct comes to
  the evaluation of one of its parts: the parts before it have ended with values,
  and the state is the one that they left. Along any number of such steps a
  return in the inner part ends the outer construct at once, with the same mark,
  the same value and the same state, so that nothing behind it runs; and so does
  a fault (`Descends.evaluates`). The call of the function around it, and at the
  top the run, takes off the mark (`return_unwinds`).
-/
import Scriptlet.Proofs.Run
import Scriptlet.Proofs.Invariant
import Mathlib.Logic.Relation

namespace Scriptlet

/-- Whether an operator is done with its left operand alone. -/
def BinaryOp.skips (op : BinaryOp) (left : Value) : Bool :=
  match op with
  | .and => left.isFalse
  | .or => !left.isFalse
  | _ => false

/-! ## Where evaluation gets to -/

section Positions

variable (w : Setting) (depth : Nat) (scope : ScopeId)

/-- The node ends with a value that is no return. -/
def Yields (node : Node) (st : State) (v : Value) (st' : State) : Prop :=
  Evaluates w depth scope node st ⟨.value v, st'⟩ ∧ v.isReturned = false

/-- The nodes yield values, one after another. -/
inductive YieldsAll : List Node → State → List Value → State → Prop where
  | nil {st : State} : YieldsAll [] st [] st
  | cons {node : Node} {nodes : List Node} {v : Value} {vs : List Value} {st st₁ st₂ : State} :
      Yields w depth scope node st v st₁ → YieldsAll nodes st₁ vs st₂ →
      YieldsAll (node :: nodes) st (v :: vs) st₂

/-- Rounds of a loop from their start to the start of the next one: no check
    interrupts them, the condition is not false, and the body yields a value. -/
inductive Rounds (condition : Node) (body : Block) : State → State → Prop where
  | none {st : State} : Rounds condition body st st
  | one {c v : Value} {st st₁ st₂ st₃ : State} :
      w.context.status st.checks = none →
      Yields w depth scope condition ({ st with checks := st.checks + 1 }.note .looped) c st₁ →
      c.isFalse = false → Yields w depth scope (.block body) st₁ v st₂ →
      Rounds condition body st₂ st₃ → Rounds condition body st st₃

/-- Where the branches of a conditional come to, its earlier conditions being
    false. -/
inductive TailDescends : Tail → State → Node × State → Prop where
  | condition {c : Node} {body : Block} {rest : Tail} {st : State} :
      TailDescends (.elif c body rest) st (c, st)
  | body {c : Node} {body : Block} {rest : Tail} {v : Value} {st st₁ : State} :
      Yields w depth scope c st v st₁ → v.isFalse = false →
      TailDescends (.elif c body rest) st (.block body, st₁)
  | next {c : Node} {body : Block} {rest : Tail} {v : Value} {st st₁ : State}
      {inner : Node × State} :
      Yields w depth scope c st v st₁ → v.isFalse = true → TailDescends rest st₁ inner →
      TailDescends (.elif c body rest) st inner
  | otherwise {body : Block} {st : State} : TailDescends (.else body) st (.block body, st)

/-- Evaluating the first node in its state comes to evaluate the second one in
    its own. An assignment evaluates its right side if its target is a name. -/
inductive Descends : Node × State → Node × State → Prop where
  | operand {op : UnaryOp} {x : Node} {st : State} : Descends (.unary op x, st) (x, st)
  | left {op : BinaryOp} {l r : Node} {st : State} : Descends (.binary op l r, st) (l, st)
  | right {op : BinaryOp} {l r : Node} {v : Value} {st st₁ : State} :
      Yields w depth scope l st v st₁ → op.skips v = false →
      Descends (.binary op l r, st) (r, st₁)
  | assigned {name : Name} {x : Node} {st : State} :
      Descends (.assign (.ident name) x, st) (x, st)
  | callee {f : Node} {arguments : List Node} {st : State} :
      Descends (.call f arguments, st) (f, st)
  | argument {f a : Node} {before behind : List Node} {v : Value} {vs : List Value}
      {st st₁ st₂ : State} :
      Yields w depth scope f st v st₁ → YieldsAll w depth scope before st₁ vs st₂ →
      Descends (.call f (before ++ a :: behind), st) (a, st₂)
  | condition {c : Node} {body : Block} {tail : Tail} {st : State} :
      Descends (.branch c body tail, st) (c, st)
  | body {c : Node} {body : Block} {tail : Tail} {v : Value} {st st₁ : State} :
      Yields w depth scope c st v st₁ → v.isFalse = false →
      Descends (.branch c body tail, st) (.block body, st₁)
  | tail {c : Node} {body : Block} {tail : Tail} {v : Value} {st st₁ : State}
      {inner : Node × State} :
      Yields w depth scope c st v st₁ → v.isFalse = true →
      TailDescends w depth scope tail st₁ inner →
      Descends (.branch c body tail, st) inner
  | loopCondition {c : Node} {body : Block} {st st₁ : State} :
      Rounds w depth scope c body st st₁ → w.context.status st₁.checks = none →
      Descends (.loop c body, st) (c, { st₁ with checks := st₁.checks + 1 }.note .looped)
  | loopBody {c : Node} {body : Block} {v : Value} {st st₁ st₂ : State} :
      Rounds w depth scope c body st st₁ → w.context.status st₁.checks = none →
      Yields w depth scope c ({ st₁ with checks := st₁.checks + 1 }.note .looped) v st₂ →
      v.isFalse = false → Descends (.loop c body, st) (.block body, st₂)
  | statement {s : Node} {before behind : List Node} {inline : Bool} {vs : List Value}
      {st st₁ : State} :
      YieldsAll w depth scope before st vs st₁ →
      Descends (.block (.mk (before ++ s :: behind) inline), st) (s, st₁)
  | returned {x : Node} {st : State} : Descends (.ret x, st) (x, st)

/-- A call comes to the body of a function: to a scope and a state to evaluate it
    in. No check interrupts the call, and the calls around it leave room for
    one more. -/
inductive Enters : Node × State → Function → ScopeId → State → Prop where
  | call {callee : Node} {arguments : List Node} {identity home : Nat} {function : Function}
      {vs : List Value} {st st₁ st₂ : State} :
      Yields w depth scope callee st (.closure identity function home) st₁ →
      YieldsAll w depth scope arguments st₁ vs st₂ → w.context.status st₂.checks = none →
      ¬ (0 < w.maxCallDepth ∧ w.maxCallDepth ≤ depth) →
      Enters (.call callee arguments, st) function
        ({ st₂ with checks := st₂.checks + 1 }.enter function home vs (depth + 1)).1
        ({ st₂ with checks := st₂.checks + 1 }.enter function home vs (depth + 1)).2

end Positions

/-! ## Parts that yield values -/

section Parts

variable {w : Setting} {depth : Nat} {scope : ScopeId} {st : State} {r : Result}

/-- The statements of a block settle on what the block settles on. -/
theorem Settles.of_block {body : Block}
    (h : Settles (fun n => eval w n depth scope (.block body) st) r) :
    Settles (fun n => evalSequence w n depth scope body.statements (.bool false) st) r := by
  obtain ⟨enough, hrun⟩ := h
  refine ⟨enough, fun n hn => ?_⟩
  have hmore : eval w (n + 1) depth scope (.block body) st = r := hrun _ (Nat.le_succ_of_le hn)
  rwa [eval] at hmore

/-- Behind a node that yields a value the next step goes on from its state. -/
theorem Yields.andThen {node : Node} {v : Value} {st₁ : State}
    (h : Yields w depth scope node st v st₁) {go : Value → State → Result} :
    Result.andThen ⟨.value v, st₁⟩ go = go v st₁ :=
  Result.andThen_value h.2

/-- What follows statements that yield values decides how the sequence ends. -/
theorem YieldsAll.sequence {before behind : List Node} {vs : List Value} {st₁ : State}
    (h : YieldsAll w depth scope before st vs st₁) (last : Value)
    (hrest : ∀ last, Settles (fun n => evalSequence w n depth scope behind last st₁) r) :
    Settles (fun n => evalSequence w n depth scope (before ++ behind) last st) r := by
  induction h generalizing last with
  | nil => exact hrest last
  | @cons node nodes v vs st st₁ st₂ hnode _ ih =>
    -- One unit of fuel for the sequence, and enough of the rest for both parts.
    refine .of_succ (hnode.1.settles.map₂ (ih v hrest) fun n hfirst hothers => ?_)
    rw [List.cons_append, evalSequence, hfirst, hnode.andThen, hothers]

/-- What follows arguments that yield values decides how the call ends. -/
theorem YieldsAll.call {before behind : List Node} {vs : List Value} {st₁ : State}
    (h : YieldsAll w depth scope before st vs st₁) (f : Value) (done : List Value)
    (hrest : Settles (fun n => evalCall w n depth scope f behind (vs.reverse ++ done) st₁) r) :
    Settles (fun n => evalCall w n depth scope f (before ++ behind) done st) r := by
  induction h generalizing done with
  | nil => exact hrest
  | @cons node nodes v vs st st₁ st₂ hnode _ ih =>
    have hothers := ih (v :: done) (by simpa using hrest)
    refine .of_succ (hnode.1.settles.map₂ hothers fun n hfirst hrun => ?_)
    rw [List.cons_append, evalCall, hfirst, hnode.andThen, hrun]

/-- The application to all arguments decides how the call ends. -/
theorem YieldsAll.apply {arguments : List Node} {f : Value} {vs : List Value} {st₁ : State}
    (h : YieldsAll w depth scope arguments st vs st₁)
    (happly : Settles (fun n => Scriptlet.apply w n depth f vs st₁) r) :
    Settles (fun n => evalCall w n depth scope f arguments [] st) r := by
  have hlast : Settles (fun n => evalCall w n depth scope f [] (vs.reverse ++ []) st₁) r := by
    refine .of_succ (happly.map fun n hn => ?_)
    rw [evalCall, List.append_nil, List.reverse_reverse, hn]
  have hcall := h.call f [] hlast
  rwa [List.append_nil] at hcall

/-- One round of a loop, after a check that does not interrupt it. -/
theorem evalLoop_succ (hcheck : w.context.status st.checks = none) (n : Nat) (condition : Node)
    (body : Block) (last : Value) :
    evalLoop w (n + 1) depth scope condition body last st =
      (eval w n depth scope condition
        ({ st with checks := st.checks + 1 }.note .looped)).andThen fun c st =>
          if c.isFalse then ⟨.value last, st⟩
          else
            (evalSequence w n depth scope body.statements (.bool false) st).andThen fun v st =>
              evalLoop w n depth scope condition body v st := by
  rw [evalLoop, State.check]
  simp only [hcheck]

/-- What follows complete rounds decides how the loop ends. -/
theorem Rounds.loop {condition : Node} {body : Block} {st₁ : State}
    (h : Rounds w depth scope condition body st st₁) (last : Value)
    (hrest : ∀ last, Settles (fun n => evalLoop w n depth scope condition body last st₁) r) :
    Settles (fun n => evalLoop w n depth scope condition body last st) r := by
  induction h generalizing last with
  | none => exact hrest last
  | @one c v st st₁ st₂ st₃ hcheck hcondition htrue hbody _ ih =>
    -- The body of this round, and all rounds behind it.
    have hround : Settles (fun n =>
        (evalSequence w n depth scope body.statements (.bool false) st₁).andThen fun v st =>
          evalLoop w n depth scope condition body v st) r := by
      refine hbody.1.settles.of_block.map₂ (ih v hrest) fun n hfirst hothers => ?_
      rw [hfirst, hbody.andThen, hothers]
    refine .of_succ (hcondition.1.settles.map₂ hround fun n hfirst hothers => ?_)
    rw [evalLoop_succ hcheck, hfirst, hcondition.andThen, htrue]
    exact hothers

end Parts

/-! ## What stops a part stops what is around it -/

section Unwinding

variable {w : Setting} {depth : Nat} {scope : ScopeId} {v : Value} {S : State} {r : Result}

/-- A return on its way out or a fault in the tail of a conditional. -/
theorem TailDescends.settles {tail : Tail} {st : State} {inner : Node × State}
    (h : TailDescends w depth scope tail st inner)
    (hinner : Evaluates w depth scope inner.1 inner.2 r) (hstops : r.goesOn = false) :
    Settles (fun n => evalTail w n depth scope tail st) r := by
  induction h with
  | condition =>
    refine .of_succ (hinner.settles.map fun n hn => ?_)
    rw [evalTail, hn, Result.andThen_of_not_goesOn hstops]
  | body hcondition htrue =>
    refine .of_succ (hcondition.1.settles.map₂ hinner.settles.of_block fun n hfirst hn => ?_)
    rw [evalTail, hfirst, hcondition.andThen, htrue]
    exact hn
  | next hcondition hfalse _ ih =>
    refine .of_succ (hcondition.1.settles.map₂ (ih hinner) fun n hfirst hn => ?_)
    rw [evalTail, hfirst, hcondition.andThen, hfalse]
    exact hn
  | otherwise =>
    refine .of_succ (hinner.settles.of_block.map fun n hn => ?_)
    rw [evalTail]
    exact hn

/-- A return on its way out or a fault in a part of a construct ends the
    construct, and nothing else of it is evaluated. -/
theorem Descends.evaluates {outer inner : Node × State} (h : Descends w depth scope outer inner)
    (hinner : Evaluates w depth scope inner.1 inner.2 r) (hstops : r.goesOn = false) :
    Evaluates w depth scope outer.1 outer.2 r := by
  suffices hsettles : Settles (fun n => eval w n depth scope outer.1 outer.2) r from
    hsettles.evaluates hinner.ends
  have hpart := hinner.settles
  -- One case for each place where a part may stand.
  cases h with
  -- The part comes first, so the construct ends as it does.
  | operand | left | assigned | callee | condition | returned =>
    refine .of_succ (hpart.map fun n hn => ?_)
    simp only [eval, hn, Result.andThen_of_not_goesOn hstops]
  | @right op l r' u st st₁ hleft hgoes =>
    refine .of_succ (hleft.1.settles.map₂ hpart fun n hfirst hn => ?_)
    simp only [eval, hfirst, hleft.andThen]
    cases op with
    | and =>
      have htrue : u.isFalse = false := hgoes
      simp only [htrue, hn]
      rfl
    | or =>
      have hfalse : u.isFalse = true := by simpa [BinaryOp.skips] using hgoes
      simp only [hfalse, hn]
      rfl
    | _ => simp only [hn, Result.andThen_of_not_goesOn hstops]
  -- The arguments before have values, and the call is never made.
  | @argument f a before behind u vs st st₁ st₂ hcallee hbefore =>
    have hargument : Settles (fun n => evalCall w n depth scope u (a :: behind)
        (vs.reverse ++ []) st₂) r := by
      refine .of_succ (hpart.map fun n hn => ?_)
      rw [evalCall, hn, Result.andThen_of_not_goesOn hstops]
    have hcall := hbefore.call u [] hargument
    refine .of_succ (hcallee.1.settles.map₂ hcall fun n hfirst hn => ?_)
    simp only [eval, hfirst, hcallee.andThen, hn]
  | body hcondition htrue =>
    refine .of_succ (hcondition.1.settles.map₂ hpart.of_block fun n hfirst hn => ?_)
    simp only [eval, hfirst, hcondition.andThen, htrue]
    exact hn
  | tail hcondition hfalse htail =>
    refine .of_succ (hcondition.1.settles.map₂ (htail.settles hinner hstops) fun n hfirst hn => ?_)
    simp only [eval, hfirst, hcondition.andThen, hfalse]
    exact hn
  -- The rounds before are complete, and the condition stops the next one.
  | @loopCondition c body st st₁ hrounds hcheck =>
    have hround : ∀ last, Settles (fun n => evalLoop w n depth scope c body last st₁) r := by
      intro last
      refine .of_succ (hpart.map fun n hn => ?_)
      rw [evalLoop_succ hcheck, hn, Result.andThen_of_not_goesOn hstops]
    refine .of_succ ((hrounds.loop (.bool false) hround).map fun n hn => ?_)
    simp only [eval, hn]
  | @loopBody c body u st st₁ st₂ hrounds hcheck hcondition htrue =>
    have hround : ∀ last, Settles (fun n => evalLoop w n depth scope c body last st₁) r := by
      intro last
      refine .of_succ (hcondition.1.settles.map₂ hpart.of_block fun n hfirst hn => ?_)
      rw [evalLoop_succ hcheck, hfirst, hcondition.andThen, htrue, hn]
      exact Result.andThen_of_not_goesOn hstops
    refine .of_succ ((hrounds.loop (.bool false) hround).map fun n hn => ?_)
    simp only [eval, hn]
  -- The statements before have values, and those behind are not evaluated.
  | @statement s before behind inline vs st st₁ hbefore =>
    have hstatement : ∀ last,
        Settles (fun n => evalSequence w n depth scope (s :: behind) last st₁) r := by
      intro last
      refine .of_succ (hpart.map fun n hn => ?_)
      rw [evalSequence, hn, Result.andThen_of_not_goesOn hstops]
    refine .of_succ ((hbefore.sequence (.bool false) hstatement).map fun n hn => ?_)
    simp only [eval]
    exact hn

/-- The same through constructs inside each other. -/
theorem evaluates_of_descends {outer inner : Node × State}
    (h : Relation.ReflTransGen (Descends w depth scope) outer inner)
    (hinner : Evaluates w depth scope inner.1 inner.2 ⟨.value (.returned v), S⟩) :
    Evaluates w depth scope outer.1 outer.2 ⟨.value (.returned v), S⟩ := by
  -- From the innermost construct outwards.
  induction h using Relation.ReflTransGen.head_induction_on with
  | refl => exact hinner
  | head hstep _ ih => exact hstep.evaluates ih rfl

/-! ## The call and the run take off the mark -/

/-- A call ends as its body does. If that is with a return, the call has the value
    inside. -/
theorem Enters.evaluates {call : Node × State} {function : Function} {inner : ScopeId}
    {entered : State} (h : Enters w depth scope call function inner entered)
    (hbody : Evaluates w (depth + 1) inner (.block function.body) entered r) :
    Evaluates w depth scope call.1 call.2 (r.map Value.ofBody) := by
  suffices hsettles : Settles (fun n => eval w n depth scope call.1 call.2)
      (r.map Value.ofBody) from
    hsettles.evaluates fun hstarved => hbody.ends (Result.map_starved.mp hstarved)
  cases h with
  | @call callee arguments identity home _ vs st st₁ st₂ hcallee harguments hcheck hdepth =>
    -- The application takes the mark off what the body ends with.
    have happly : Settles (fun n => apply w n depth (.closure identity function home) vs st₂)
        (r.map Value.ofBody) := by
      refine .of_succ (hbody.settles.of_block.map fun n hn => ?_)
      have hroom : (decide (0 < w.maxCallDepth) && decide (w.maxCallDepth ≤ depth)) = false := by
        simpa using hdepth
      simp only [apply, State.check, hcheck, hroom]
      exact congrArg (Result.map Value.ofBody) hn
    have hlast := harguments.apply (f := .closure identity function home) happly
    refine .of_succ (hcallee.1.settles.map₂ hlast fun n hfirst hn => ?_)
    simp only [eval, hfirst, hcallee.andThen, hn]

/-- The report on a run whose statements end with a return. -/
theorem Interpreter.report_returned (hv : v.isReturned = false) (i : Interpreter) (o : Occasion)
    (count : Nat) :
    i.report o count ⟨.value (.returned v), S⟩ =
      { outcome := .value v
        output := S.written.reverse.flatten
        log := i.logged o count (.value v)
        interpreter := { i with scopes := S.scopes, identities := S.identities } } := by
  have houtcome : ((Result.map Value.unwrap ⟨.value (.returned v), S⟩).map Value.unwrap).outcome =
      .value v := by
    show Outcome.value v.unwrap = .value v
    rw [Value.unwrap_eq_self hv]
  simp only [report, houtcome]
  rfl

end Unwinding

/-- A return unwinds through every construct, and nothing behind it runs. Where
    evaluation comes, through constructs inside each other, to a tree that ends
    with a return of `v` in the state `S`, the outermost construct ends so too; if
    that is the body of a function, then the call ends with `v` itself in that
    state, and if these are the statements of a script, then so does its run. -/
theorem return_unwinds {w : Setting} {v : Value} (hv : v.isReturned = false) (S : State) :
    (∀ depth scope outer inner, Relation.ReflTransGen (Descends w depth scope) outer inner →
      Evaluates w depth scope inner.1 inner.2 ⟨.value (.returned v), S⟩ →
      ∀ r, Evaluates w depth scope outer.1 outer.2 r ↔ r = ⟨.value (.returned v), S⟩) ∧
    (∀ depth scope call function home st inner, Enters w depth scope call function home st →
      Relation.ReflTransGen (Descends w (depth + 1) home) (.block function.body, st) inner →
      Evaluates w (depth + 1) home inner.1 inner.2 ⟨.value (.returned v), S⟩ →
      ∀ r, Evaluates w depth scope call.1 call.2 r ↔ r = ⟨.value v, S⟩) ∧
    ∀ (i : Interpreter) o source p j inner, i.parse source = (.ok p, j) → j.setting o = w →
      Relation.ReflTransGen (Descends w 0 Interpreter.globalScope)
        (.block (.mk p.statements false), j.initial) inner →
      Evaluates w 0 Interpreter.globalScope inner.1 inner.2 ⟨.value (.returned v), S⟩ →
      ∀ x, i.Ends o source x ↔ x =
        { outcome := .value v
          output := S.written.reverse.flatten
          log := j.logged o p.statements.length (.value v)
          interpreter := { j with scopes := S.scopes, identities := S.identities } } := by
  have hunique : ∀ {depth scope node st} {r r' : Result}, Evaluates w depth scope node st r →
      (Evaluates w depth scope node st r' ↔ r' = r) := by
    intro depth scope node st r r' h
    exact ⟨fun h' => h'.unique h, fun heq => heq ▸ h⟩
  refine ⟨?_, ?_, ?_⟩
  · intro depth scope outer inner hpath hinner r
    exact hunique (evaluates_of_descends hpath hinner)
  · intro depth scope call function home st inner henters hpath hinner r
    exact hunique (henters.evaluates (evaluates_of_descends hpath hinner))
  · intro i o source p j inner hparse hsetting hpath hinner x
    subst hsetting
    -- The statements of the script stand in a block of their own.
    have hblock := evaluates_of_descends hpath hinner
    have hconcludes : ∀ r, j.Concludes o p.statements r ↔ r = ⟨.value (.returned v), S⟩ := by
      intro r
      exact evaluates_block_iff.symm.trans (hunique hblock)
    rw [Interpreter.ends_iff_of_parse hparse]
    simp only [hconcludes, exists_eq_left, Interpreter.report_returned hv]

/-- A return in the condition of an `elif` in the first round of a loop ends the
    call, and one in an argument ends the run, before anything is printed. -/
theorem return_unwinds_elif_and_argument :
    let i := Interpreter.ofRegistry .initial
    let w := i.setting (.plain .bare)
    let print (n : Int64) : Node := .call (.ident (text "Out")) [.int n]
    let choice : Node := .branch (.bool false) (.mk [print 1] true)
      (.elif (.binary .add (.int 1) (.ret (.ident (text "x")))) (.mk [print 2] true) .none)
    let f : Function := ⟨text "f", [text "x"], .mk [.loop (.bool true) (.mk [choice] false)] false⟩
    let declared := (i.initial.declare Interpreter.globalScope f).state
    (∃ S, Evaluates w 0 Interpreter.globalScope (.call (.ident (text "f")) [.int 7]) declared
        ⟨.value (.int 7), S⟩ ∧ S.written = []) ∧
    ∃ x, i.Ends (.plain .bare) (text "Out(1 + (return 7))\nOut(8)") x ∧
      x.outcome = .value (.int 7) ∧ x.output = [] := by
  intro i w print choice f declared
  constructor
  · -- Through the choice, the body of the loop and that of the function.
    let called := { declared with checks := declared.checks + 1 }
    let entered := called.enter f Interpreter.globalScope [.int 7] 1
    let round := { entered.2 with checks := entered.2.checks + 1 }.note .looped
    have hbody : Relation.ReflTransGen (Descends w 1 entered.1) (.block f.body, entered.2)
        (.ret (.ident (text "x")), round) :=
      .head (.statement .nil) <|
      .head (.loopBody .none rfl ⟨⟨1, by with_unfolding_all rfl, nofun⟩, rfl⟩ rfl) <|
      .head (.statement .nil) <|
      .head (.tail ⟨⟨1, by with_unfolding_all rfl, nofun⟩, rfl⟩ rfl .condition) <|
      .head (.right ⟨⟨1, by with_unfolding_all rfl, nofun⟩, rfl⟩ rfl) .refl
    have hcall : Enters w 0 Interpreter.globalScope
        (.call (.ident (text "f")) [.int 7], declared) f entered.1 entered.2 :=
      .call ⟨⟨1, by with_unfolding_all rfl, nofun⟩, rfl⟩
        (.cons ⟨⟨1, by with_unfolding_all rfl, nofun⟩, rfl⟩ .nil) rfl (by decide)
    exact ⟨round, ((return_unwinds rfl round).2.1 _ _ _ _ _ _ _ hcall hbody
      ⟨2, by with_unfolding_all rfl, nofun⟩ _).mpr rfl, by with_unfolding_all rfl⟩
  · let sum : Node := .binary .add (.int 1) (.ret (.int 7))
    let tokens : List Token :=
      [⟨.word (text "Out"), ⟨1, 1⟩⟩, ⟨.punctuation (text "("), ⟨1, 4⟩⟩,
        ⟨.integer (text "1") 1, ⟨1, 5⟩⟩, ⟨.operator (text "+"), ⟨1, 7⟩⟩,
        ⟨.punctuation (text "("), ⟨1, 9⟩⟩, ⟨.word (text "return"), ⟨1, 10⟩⟩,
        ⟨.integer (text "7") 7, ⟨1, 17⟩⟩, ⟨.punctuation (text ")"), ⟨1, 18⟩⟩,
        ⟨.punctuation (text ")"), ⟨1, 19⟩⟩, ⟨.separator, ⟨1, 20⟩⟩,
        ⟨.word (text "Out"), ⟨2, 1⟩⟩, ⟨.punctuation (text "("), ⟨2, 4⟩⟩,
        ⟨.integer (text "8") 8, ⟨2, 5⟩⟩, ⟨.punctuation (text ")"), ⟨2, 6⟩⟩, ⟨.separator, ⟨2, 7⟩⟩]
    have htokens : tokenize (text "Out(1 + (return 7))\nOut(8)") = .ok tokens :=
      tokenize_eq_ok_iff.mpr (Prod.ext (by decide +kernel)
        (Option.isNone_iff_eq_none.mp (by decide +kernel)))
    have hparse : i.parse (text "Out(1 + (return 7))\nOut(8)") =
        (.ok ⟨[.call (.ident (text "Out")) [sum], print 8]⟩, i) := by
      rw [Interpreter.parse_uncached rfl, parse_of_tokenize htokens]
      rfl
    have hpath : Relation.ReflTransGen (Descends w 0 Interpreter.globalScope)
        (.block (.mk [.call (.ident (text "Out")) [sum], print 8] false), i.initial)
        (.ret (.int 7), i.initial) :=
      .head (.statement .nil) <|
      .head (.argument ⟨⟨1, by with_unfolding_all rfl, nofun⟩, by with_unfolding_all rfl⟩ .nil) <|
      .head (.right ⟨⟨1, by with_unfolding_all rfl, nofun⟩, rfl⟩ rfl) .refl
    refine ⟨_, ((return_unwinds rfl i.initial).2.2 _ _ _ _ _ _ hparse rfl hpath
      ⟨2, by with_unfolding_all rfl, nofun⟩ _).mpr rfl, rfl, ?_⟩
    with_unfolding_all rfl

end Scriptlet
