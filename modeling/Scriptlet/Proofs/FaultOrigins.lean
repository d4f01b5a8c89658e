/-
  Scriptlet.Proofs.FaultOrigins

  Where the faults of a run come from.

  A site is a node on the point of being evaluated. Evaluation goes from one site to
  another: to a part of the node, to a statement of a program, or to the body of a
  function that a call enters (`Site.Goes`). Every fault has an origin among the
  sites that are reached in this way (`traced`): one where the evaluator
  raises it, after all the parts that it needs have ended with values
  (`Site.Raises`), or one where a function of the host is called and gives a fault
  back (`Site.GivesBack`). On the way out nothing is done to it.

  So the code of a fault of the evaluator is read off the rule that raises it, and a
  fault of the host comes out as it is, or wrapped once if it has no code.
-/
import Scriptlet.Proofs.Visits
import Scriptlet.Proofs.SharedCache
import Scriptlet.Proofs.Grammar.Faults

namespace Scriptlet

/-! ## Sites -/

/-- A node on the point of being evaluated in a scope, inside `depth` calls. -/
structure Site where
  depth : Nat
  scope : ScopeId
  node : Node
  state : State

namespace Site

variable (w : Setting)

/-- Evaluating the first site comes to evaluate the second one. -/
inductive Goes : Site → Site → Prop where
  | part {depth scope node inner st st₁} (h : Descends w depth scope (node, st) (inner, st₁)) :
      Goes ⟨depth, scope, node, st⟩ ⟨depth, scope, inner, st₁⟩
  | statement {depth scope s before behind vs st st₁}
      (h : YieldsAll w depth scope before st vs st₁) :
      Goes ⟨depth, scope, .program (before ++ s :: behind), st⟩ ⟨depth, scope, s, st₁⟩
  | body {depth scope call function home st entered}
      (h : Enters w depth scope (call, st) function home entered) :
      Goes ⟨depth, scope, call, st⟩ ⟨depth + 1, home, .block function.body, entered⟩

/-- The evaluator itself raises the fault at the site: the parts of the node that it
    has to evaluate before are evaluated, and it cannot go on. -/
inductive Raises : Site → Fault → Prop where
  | unbound {depth scope name st} (h : st.scopes.lookup? scope name = none) :
      Raises ⟨depth, scope, .ident name, st⟩ (.eval (.unbound name))
  | unassigned {depth scope name value v st st₁} (hvalue : Yields w depth scope value st v st₁)
      (h : st₁.scopes.target? scope name = none) :
      Raises ⟨depth, scope, .assign (.ident name) value, st⟩ (.eval (.unbound name))
  | notAssignable {depth scope target value st} (h : ∀ name, target ≠ .ident name) :
      Raises ⟨depth, scope, .assign target value, st⟩ (.eval (.notAssignable target))
  | unary {depth scope op operand v problem st st₁}
      (hoperand : Yields w depth scope operand st v st₁)
      (h : op.apply v = .error problem) :
      Raises ⟨depth, scope, .unary op operand, st⟩ (.eval problem)
  | binary {depth scope op left right l r problem st st₁ st₂}
      (hleft : Yields w depth scope left st l st₁) (hright : Yields w depth scope right st₁ r st₂)
      (h : op.apply l r = .error problem) :
      Raises ⟨depth, scope, .binary op left right, st⟩ (.eval problem)
  | strayElse {depth scope body st} : Raises ⟨depth, scope, .otherwise body, st⟩ (.eval .strayElse)
  | missingNode {depth scope st} : Raises ⟨depth, scope, .absent, st⟩ (.eval .missingNode)
  | round {depth scope condition body st st₁ f}
      (hrounds : Rounds w depth scope condition body st st₁)
      (h : w.verdict (.round depth st₁) = some f) :
      Raises ⟨depth, scope, .loop condition body, st⟩ f
  | refused {depth scope callee arguments v vs st st₁ st₂ f}
      (hcallee : Yields w depth scope callee st v st₁)
      (harguments : YieldsAll w depth scope arguments st₁ vs st₂)
      (h : w.verdict (.application depth v vs st₂) = some f) :
      Raises ⟨depth, scope, .call callee arguments, st⟩ f
  | notCallable {depth scope callee arguments v vs st st₁ st₂}
      (hcallee : Yields w depth scope callee st v st₁)
      (harguments : YieldsAll w depth scope arguments st₁ vs st₂)
      (hgoes : w.verdict (.application depth v vs st₂) = none)
      (hclosure : ∀ identity function home, v ≠ .closure identity function home)
      (hbuiltin : ∀ identity name function, v ≠ .builtin identity name function) :
      Raises ⟨depth, scope, .call callee arguments, st⟩ (.eval (.notCallable v))

/-- A function of the host is called at the site, under this name, and gives a fault
    back. -/
inductive GivesBack : Site → Name → Fault → Prop where
  | call {depth scope callee arguments identity name function vs st st₁ st₂ g}
      (hcallee : Yields w depth scope callee st (.builtin identity name function) st₁)
      (harguments : YieldsAll w depth scope arguments st₁ vs st₂)
      (hgoes : w.verdict (.application depth (.builtin identity name function) vs st₂) = none)
      (h : (w.host.call function w.sink vs).result = .error g) :
      GivesBack ⟨depth, scope, .call callee arguments, st⟩ name g

/-- The fault arises at the site. -/
def Arises (s : Site) (f : Fault) : Prop :=
  s.Raises w f ∨ ∃ name g, s.GivesBack w name g ∧ f = g.raisedBy name

/-- The fault arises at a site that is reached from this one. -/
def Origin (s : Site) (f : Fault) : Prop :=
  ∃ s', Relation.ReflTransGen (Goes w) s s' ∧ s'.Arises w f

end Site

/-! ## Origins through the constructs -/

section Origins

variable {w : Setting} {depth : Nat} {scope : ScopeId} {st st₁ : State} {f : Fault} {v : Value}

theorem Site.Raises.origin {s : Site} (h : s.Raises w f) : s.Origin w f := ⟨s, .refl, .inl h⟩

/-- An origin of a later site is one of every site that leads there. -/
theorem Site.Origin.back {s s' : Site} (h : s'.Origin w f) (hgoes : Site.Goes w s s') :
    s.Origin w f := by
  obtain ⟨last, hreach, harises⟩ := h
  exact ⟨last, .head hgoes hreach, harises⟩

/-- The origin lies in one of the nodes, which are evaluated one after another. -/
def OriginEach (w : Setting) (depth : Nat) (scope : ScopeId) (nodes : List Node) (st : State)
    (f : Fault) : Prop :=
  ∃ before s behind vs st₁, nodes = before ++ s :: behind ∧
    YieldsAll w depth scope before st vs st₁ ∧ (⟨depth, scope, s, st₁⟩ : Site).Origin w f

/-- The origin lies in the rest of a conditional. -/
def OriginTail (w : Setting) (depth : Nat) (scope : ScopeId) (tail : Tail) (st : State)
    (f : Fault) : Prop :=
  ∃ inner st₁, TailDescends w depth scope tail st (inner, st₁) ∧
    (⟨depth, scope, inner, st₁⟩ : Site).Origin w f

/-- The origin is the application of a function, or it lies in the body: wherever a call
    comes to this application, it is an origin of the call. -/
def OriginApplication (w : Setting) (depth : Nat) (v : Value) (vs : List Value) (st : State)
    (f : Fault) : Prop :=
  ∀ {scope callee arguments st₀ st₁}, Yields w depth scope callee st₀ v st₁ →
    YieldsAll w depth scope arguments st₁ vs st →
    (⟨depth, scope, .call callee arguments, st₀⟩ : Site).Origin w f

theorem OriginEach.head {s : Node} {ss : List Node}
    (h : (⟨depth, scope, s, st⟩ : Site).Origin w f) : OriginEach w depth scope (s :: ss) st f :=
  ⟨[], s, ss, [], st, rfl, .nil, h⟩

theorem OriginEach.tail {s : Node} {ss : List Node} (hs : Yields w depth scope s st v st₁)
    (h : OriginEach w depth scope ss st₁ f) : OriginEach w depth scope (s :: ss) st f := by
  obtain ⟨before, t, behind, vs, st₂, rfl, hbefore, ht⟩ := h
  exact ⟨s :: before, t, behind, v :: vs, st₂, rfl, .cons hs hbefore, ht⟩

theorem OriginEach.program {ss : List Node} (h : OriginEach w depth scope ss st f) :
    (⟨depth, scope, .program ss, st⟩ : Site).Origin w f := by
  obtain ⟨before, s, behind, vs, st₁, rfl, hbefore, hs⟩ := h
  exact hs.back (.statement hbefore)

theorem OriginEach.block {body : Block} (h : OriginEach w depth scope body.statements st f) :
    (⟨depth, scope, .block body, st⟩ : Site).Origin w f := by
  obtain ⟨ss, inline⟩ := body
  obtain ⟨before, s, behind, vs, st₁, heq, hbefore, hs⟩ := h
  obtain rfl : ss = before ++ s :: behind := heq
  exact hs.back (.part (.statement hbefore))

/-- What arises behind a complete round arises in the whole loop. -/
theorem Site.Origin.next_round {condition : Node} {body : Block} {c : Value} {st₂ : State}
    (hstatus : w.context.status st.checks = none)
    (hcondition : Yields w depth scope condition
      ({ st with checks := st.checks + 1 }.note .looped) c st₁)
    (htrue : c.isFalse = false) (hbody : Yields w depth scope (.block body) st₁ v st₂)
    (h : (⟨depth, scope, .loop condition body, st₂⟩ : Site).Origin w f) :
    (⟨depth, scope, .loop condition body, st⟩ : Site).Origin w f := by
  have hround : ∀ {st₃}, Rounds w depth scope condition body st₂ st₃ →
      Rounds w depth scope condition body st st₃ :=
    fun hrest => .one hstatus hcondition htrue hbody hrest
  obtain ⟨last, hreach, harises⟩ := h
  -- The origin is the start of a later round, or it lies in one.
  rcases Relation.ReflTransGen.cases_head hreach with rfl | ⟨s, hgoes, hreach⟩
  · -- The only fault that a loop raises itself is the verdict at the start of a round.
    rcases harises with hraises | ⟨name, g, hcall, -⟩
    · cases hraises with
      | round hrounds hverdict => exact (Raises.round (hround hrounds) hverdict).origin
    · cases hcall
  · have horigin : s.Origin w f := ⟨last, hreach, harises⟩
    cases hgoes with
    | part hdescends =>
      cases hdescends with
      | loopCondition hrounds hcheck =>
        exact horigin.back (.part (.loopCondition (hround hrounds) hcheck))
      | loopBody hrounds hcheck hc hgoes =>
        exact horigin.back (.part (.loopBody (hround hrounds) hcheck hc hgoes))
    | body henters => cases henters

end Origins

/-! ## Every fault has an origin -/

/-- A fault is that of the first step, or of what went on behind its value. -/
theorem Result.andThen_fault {r : Result} {go : Value → State → Result} {f : Fault}
    (h : (r.andThen go).outcome = .fault f) :
    r.outcome = .fault f ∨
      ∃ v st, r = ⟨.value v, st⟩ ∧ v.isReturned = false ∧ (go v st).outcome = .fault f := by
  -- What does not go on is the whole result, so its fault is that of the first step.
  cases hr : r.goesOn with
  | false =>
    rw [Result.andThen_of_not_goesOn hr] at h
    exact .inl h
  | true =>
    obtain ⟨v, hv, hvalue⟩ := Result.exists_of_goesOn hr
    rw [hvalue, Result.andThen_value hv] at h
    exact .inr ⟨v, r.state, hvalue, hv, h⟩

theorem Result.map_fault {r : Result} {g : Value → Value} {f : Fault} :
    (r.map g).outcome = .fault f ↔ r.outcome = .fault f := by
  rcases r with ⟨_ | _ | _, st⟩ <;> simp [Result.map]

theorem State.operate_fault {st : State} {operands : List Value}
    {result : Except EvalProblem Value} {f : Fault}
    (h : (st.operate operands result).outcome = .fault f) :
    ∃ problem, result = .error problem ∧ f = .eval problem := by
  cases result with
  | ok v => cases h
  | error problem =>
    cases h
    exact ⟨problem, rfl, rfl⟩

theorem YieldsAll.concat {w : Setting} {depth : Nat} {scope : ScopeId} {nodes : List Node}
    {vs : List Value} {st st₁ st₂ : State} {a : Node} {v : Value}
    (h : YieldsAll w depth scope nodes st vs st₁) (ha : Yields w depth scope a st₁ v st₂) :
    YieldsAll w depth scope (nodes ++ [a]) st (vs ++ [v]) st₂ := by
  induction h with
  | nil => exact .cons ha .nil
  | cons hnode _ ih => exact .cons hnode (ih ha)

/-- The faults of evaluations with the fuel `n` have origins. -/
structure Traced (w : Setting) (n : Nat) : Prop where
  node : ∀ {depth scope node st f}, (eval w n depth scope node st).outcome = .fault f →
    (⟨depth, scope, node, st⟩ : Site).Origin w f
  sequence : ∀ {depth scope ss last st f},
    (evalSequence w n depth scope ss last st).outcome = .fault f → OriginEach w depth scope ss st f
  tail : ∀ {depth scope tail st f}, (evalTail w n depth scope tail st).outcome = .fault f →
    OriginTail w depth scope tail st f
  loop : ∀ {depth scope condition body last st f},
    (evalLoop w n depth scope condition body last st).outcome = .fault f →
    (⟨depth, scope, .loop condition body, st⟩ : Site).Origin w f
  call : ∀ {depth scope callee v before arguments vs st₀ st₁ st f},
    Yields w depth scope callee st₀ v st₁ → YieldsAll w depth scope before st₁ vs st →
    (evalCall w n depth scope v arguments vs.reverse st).outcome = .fault f →
    (⟨depth, scope, .call callee (before ++ arguments), st₀⟩ : Site).Origin w f
  apply : ∀ {depth v vs st f}, (Scriptlet.apply w n depth v vs st).outcome = .fault f →
    OriginApplication w depth v vs st f

namespace Traced

variable {w : Setting} {n : Nat} {depth : Nat} {scope : ScopeId} {st : State} {f : Fault}

open FollowsAll (yields yields_block)

theorem zero : Traced w 0 := by
  constructor <;> intros <;>
    simp_all [eval, evalSequence, evalTail, evalLoop, evalCall, Scriptlet.apply]

/-- A fault of an operator arises in an operand or where it is applied to both values. -/
theorem binary_succ (ih : Traced w n) {op : BinaryOp} {left right : Node}
    (h : (eval w (n + 1) depth scope (.binary op left right) st).outcome = .fault f) :
    (⟨depth, scope, .binary op left right, st⟩ : Site).Origin w f := by
  rw [eval] at h
  rcases Result.andThen_fault h with h | ⟨l, st₁, hleft, hl, h⟩
  · exact (ih.node h).back (.part .left)
  have hleft := yields hleft hl
  -- The right operand is reached if the left one does not decide.
  have hright (hgoes : op.skips l = false)
      (h : (eval w n depth scope right st₁).outcome = .fault f) :
      (⟨depth, scope, .binary op left right, st⟩ : Site).Origin w f :=
    (ih.node h).back (.part (.right hleft hgoes))
  cases op with
  | and =>
    simp only at h
    split at h
    · cases h
    · rename_i htrue
      exact hright (by simpa [BinaryOp.skips] using htrue) h
  | or =>
    simp only at h
    split at h
    · rename_i hfalse
      exact hright (by simpa [BinaryOp.skips] using hfalse) h
    · cases h
  -- All other operators look at both values.
  | _ =>
    rcases Result.andThen_fault h with h | ⟨r, st₂, hr, hreturned, h⟩
    · exact hright rfl h
    · obtain ⟨problem, hproblem, rfl⟩ := State.operate_fault h
      exact (Site.Raises.binary hleft (yields hr hreturned) hproblem).origin

/-- A fault of an assignment arises in its value or for want of a place to write to. -/
theorem assign_succ (ih : Traced w n) {target value : Node}
    (h : (eval w (n + 1) depth scope (.assign target value) st).outcome = .fault f) :
    (⟨depth, scope, .assign target value, st⟩ : Site).Origin w f := by
  cases target with
  | ident name =>
    rw [eval] at h
    rcases Result.andThen_fault h with h | ⟨v, st₁, hvalue, hv, h⟩
    · exact (ih.node h).back (.part .assigned)
    · unfold State.write at h
      split at h
      · cases h
      · rename_i hnone
        cases h
        exact (Site.Raises.unassigned (yields hvalue hv) hnone).origin
  | _ =>
    simp only [eval] at h
    cases h
    refine (Site.Raises.notAssignable ?_).origin
    rintro name ⟨⟩

theorem branch_succ (ih : Traced w n) {condition : Node} {body : Block} {tail : Tail}
    (h : (eval w (n + 1) depth scope (.branch condition body tail) st).outcome = .fault f) :
    (⟨depth, scope, .branch condition body tail, st⟩ : Site).Origin w f := by
  rw [eval] at h
  rcases Result.andThen_fault h with h | ⟨v, st₁, hcondition, hv, h⟩
  · exact (ih.node h).back (.part .condition)
  have hcondition := yields hcondition hv
  cases hfalse : v.isFalse with
  | true =>
    simp only [hfalse, if_true] at h
    obtain ⟨inner, st₂, htail, hinner⟩ := ih.tail h
    exact hinner.back (.part (.tail hcondition hfalse htail))
  | false =>
    simp only [hfalse, Bool.false_eq_true, if_false] at h
    exact (ih.sequence h).block.back (.part (.body hcondition hfalse))

/-- A fault of a construct arises in a part of it, or the construct raises it. -/
theorem node_succ (ih : Traced w n) {node : Node}
    (h : (eval w (n + 1) depth scope node st).outcome = .fault f) :
    (⟨depth, scope, node, st⟩ : Site).Origin w f := by
  cases node with
  | program statements =>
    rw [eval, Result.map_fault] at h
    exact (ih.sequence h).program
  | block body =>
    rw [eval] at h
    exact (ih.sequence h).block
  -- These never fail.
  | int | float | str | bool | func =>
    rw [eval] at h
    cases h
  | ident name =>
    rw [eval, State.read] at h
    split at h
    · cases h
    · rename_i hnone
      cases h
      exact (Site.Raises.unbound hnone).origin
  | unary op operand =>
    rw [eval] at h
    rcases Result.andThen_fault h with h | ⟨v, st₁, hoperand, hv, h⟩
    · exact (ih.node h).back (.part .operand)
    · obtain ⟨problem, hproblem, rfl⟩ := State.operate_fault h
      exact (Site.Raises.unary (yields hoperand hv) hproblem).origin
  | binary op left right => exact ih.binary_succ h
  | assign target value => exact ih.assign_succ h
  | call callee arguments =>
    rw [eval] at h
    rcases Result.andThen_fault h with h | ⟨v, st₁, hcallee, hv, h⟩
    · exact (ih.node h).back (.part .callee)
    · exact ih.call (yields hcallee hv) .nil h
  | branch condition body tail => exact ih.branch_succ h
  | loop condition body =>
    rw [eval] at h
    exact ih.loop h
  | ret value =>
    rw [eval] at h
    rcases Result.andThen_fault h with h | ⟨v, st₁, -, -, h⟩
    · exact (ih.node h).back (.part .returned)
    · cases h
  | otherwise body =>
    rw [eval] at h
    cases h
    exact Site.Raises.strayElse.origin
  | absent =>
    rw [eval] at h
    cases h
    exact Site.Raises.missingNode.origin

theorem sequence_succ (ih : Traced w n) {ss : List Node} {last : Value}
    (h : (evalSequence w (n + 1) depth scope ss last st).outcome = .fault f) :
    OriginEach w depth scope ss st f := by
  cases ss with
  | nil =>
    rw [evalSequence] at h
    cases h
  | cons s ss =>
    rw [evalSequence] at h
    rcases Result.andThen_fault h with h | ⟨v, st₁, hs, hv, h⟩
    · exact .head (ih.node h)
    · -- The first statement gave a value, so the fault is one of those behind it.
      exact .tail (yields hs hv) (ih.sequence h)

theorem tail_succ (ih : Traced w n) {tail : Tail}
    (h : (evalTail w (n + 1) depth scope tail st).outcome = .fault f) :
    OriginTail w depth scope tail st f := by
  cases tail with
  | none =>
    rw [evalTail] at h
    cases h
  | «else» body =>
    rw [evalTail] at h
    exact ⟨_, _, .otherwise, (ih.sequence h).block⟩
  | elif condition body rest =>
    rw [evalTail] at h
    rcases Result.andThen_fault h with h | ⟨v, st₁, hcondition, hv, h⟩
    · exact ⟨_, _, .condition, ih.node h⟩
    have hcondition := yields hcondition hv
    cases hfalse : v.isFalse with
    -- The condition is false, so the rest of the conditional is reached.
    | true =>
      simp only [hfalse, if_true] at h
      obtain ⟨inner, st₂, htail, hinner⟩ := ih.tail h
      exact ⟨inner, st₂, .next hcondition hfalse htail, hinner⟩
    | false =>
      simp only [hfalse, Bool.false_eq_true, if_false] at h
      exact ⟨_, _, .body hcondition hfalse, (ih.sequence h).block⟩

theorem loop_succ (ih : Traced w n) {condition : Node} {body : Block} {last : Value}
    (h : (evalLoop w (n + 1) depth scope condition body last st).outcome = .fault f) :
    (⟨depth, scope, .loop condition body, st⟩ : Site).Origin w f := by
  cases hverdict : w.verdict (.round depth st) with
  -- The round does not start: the loop itself raises the verdict.
  | some g =>
    rw [evalLoop_of_stop hverdict] at h
    cases h
    exact (Site.Raises.round .none hverdict).origin
  | none =>
    have hstatus := Setting.status_of_round hverdict
    rw [evalLoop_succ hstatus] at h
    -- The fault lies in the condition, in the body, or in a later round.
    rcases Result.andThen_fault h with h | ⟨c, st₁, hcondition, hc, h⟩
    · exact (ih.node h).back (.part (.loopCondition .none hstatus))
    have hcondition := yields hcondition hc
    cases hfalse : c.isFalse with
    | true =>
      simp only [hfalse, if_true] at h
      cases h
    | false =>
      simp only [hfalse, Bool.false_eq_true, if_false] at h
      rcases Result.andThen_fault h with h | ⟨v, st₂, hround, hv, h⟩
      · exact (ih.sequence h).block.back (.part (.loopBody .none hstatus hcondition hfalse))
      · exact (ih.loop h).next_round hstatus hcondition hfalse (yields_block hround hv)

/-- The arguments evaluated before are kept, for the fault may arise in a later one. -/
theorem call_succ (ih : Traced w n) {callee : Node} {v : Value} {before arguments : List Node}
    {vs : List Value} {st₀ st₁ : State} (hcallee : Yields w depth scope callee st₀ v st₁)
    (hbefore : YieldsAll w depth scope before st₁ vs st)
    (h : (evalCall w (n + 1) depth scope v arguments vs.reverse st).outcome = .fault f) :
    (⟨depth, scope, .call callee (before ++ arguments), st₀⟩ : Site).Origin w f := by
  cases arguments with
  | nil =>
    rw [evalCall, List.reverse_reverse] at h
    rw [List.append_nil]
    exact ih.apply h hcallee hbefore
  | cons a as =>
    rw [evalCall] at h
    rcases Result.andThen_fault h with h | ⟨u, st₂, ha, hu, h⟩
    · exact (ih.node h).back (.part (.argument hcallee hbefore))
    · -- One more argument has its value, so the call goes on behind it.
      rw [← List.reverse_concat] at h
      have hrest := ih.call hcallee (hbefore.concat (yields ha hu)) h
      rwa [List.append_assoc] at hrest

/-- An application fails in its body, by its verdict, for what it is applied to, or through the
host. -/
theorem apply_succ (ih : Traced w n) {v : Value} {vs : List Value}
    (h : (Scriptlet.apply w (n + 1) depth v vs st).outcome = .fault f) :
    OriginApplication w depth v vs st f := by
  intro scope callee arguments st₀ st₁ hcallee harguments
  cases hverdict : w.verdict (.application depth v vs st) with
  | some g =>
    rw [apply_of_stop hverdict] at h
    cases h
    exact (Site.Raises.refused hcallee harguments hverdict).origin
  | none =>
    rw [apply_of_go hverdict] at h
    cases v with
    -- A mark taken off a value changes no fault, so it is that of the body.
    | closure identity function home =>
      obtain ⟨hstatus, hroom⟩ := Setting.verdict_application_eq_none.mp hverdict
      have henters := Enters.call hcallee harguments hstatus (Setting.refusal_eq_none_iff.mp hroom)
      exact (ih.sequence (Result.map_fault.mp h)).block.back (.body henters)
    -- The host gives the fault back, and the call names the function.
    | builtin identity name function =>
      simp only [carryOut, State.invoke] at h
      split at h
      · rename_i g hreply
        cases h
        exact ⟨_, .refl, .inr ⟨name, g, .call hcallee harguments hverdict hreply, rfl⟩⟩
      · cases h
      · cases h
    | _ =>
      cases h
      refine (Site.Raises.notCallable hcallee harguments hverdict ?_ ?_).origin
      · rintro _ _ _ ⟨⟩
      · rintro _ _ _ ⟨⟩

end Traced

/-- Every fault of an evaluation has an origin. -/
theorem traced (w : Setting) (n : Nat) : Traced w n := by
  induction n with
  | zero => exact .zero
  | succ n ih =>
    exact ⟨ih.node_succ, ih.sequence_succ, ih.tail_succ, ih.loop_succ, ih.call_succ,
      ih.apply_succ⟩

/-! ## Codes -/

/-- An operator before an operand complains about types only. -/
theorem UnaryOp.code_of_error {op : UnaryOp} {v : Value} {problem : EvalProblem}
    (h : op.apply v = .error problem) : problem.code = .typing := by
  unfold UnaryOp.apply at h
  repeat' split at h
  all_goals cases h
  all_goals rfl

namespace Arithmetic

theorem code_of_integers {op : BinaryOp} {l r : Int64} {problem : EvalProblem}
    (h : integers op l r = some (.error problem)) : problem.code = .typing := by
  rcases integers_cases h with ⟨v, -, hv⟩ | ⟨hfault, -⟩
  · cases hv
  · cases hfault
    rfl

theorem code_of_doubles {op : BinaryOp} {l r : Double} {problem : EvalProblem}
    (h : doubles op l r = .error problem) : problem.code = .typing := by
  unfold doubles at h
  split at h
  all_goals cases h
  rfl

end Arithmetic

/-- Operators between operands complain about types, or about a division by zero. -/
theorem BinaryOp.code_of_error {op : BinaryOp} {l r : Value} {problem : EvalProblem}
    (h : op.apply l r = .error problem) :
    problem.code = .typing ∨ problem.code = .arithmetic := by
  unfold BinaryOp.apply at h
  split at h
  · cases h
  · cases h
  split at h
  · cases h
    exact .inl rfl
  split at h
  · cases h
    exact .inl rfl
  split at h
  · cases h
    -- A zero on the right of a division.
    exact .inr rfl
  split at h
  · exact .inl (Arithmetic.code_of_integers (Option.eq_some_iff_get_eq.mpr ⟨_, h⟩))
  · exact .inl (Arithmetic.code_of_doubles h)

/-- What stops an evaluation at a point has the code of an interruption or of the limit on
calls. -/
theorem Setting.code_of_verdict {w : Setting} {p : Point} {f : Fault} (h : w.verdict p = some f) :
    f.code? = some .canceled ∨ f.code? = some .timeout ∨ f.code? = some .callDepth := by
  have hinterrupt : ∀ i, (Fault.interrupted i).code? = some .canceled ∨
      (Fault.interrupted i).code? = some .timeout := by
    rintro (_ | _)
    · exact .inl rfl
    · exact .inr rfl
  cases p with
  | round depth st =>
    obtain ⟨i, -, rfl⟩ := Option.map_eq_some_iff.mp h
    exact (hinterrupt i).imp_right .inl
  | application depth v vs st =>
    simp only [verdict] at h
    split at h
    · cases h
      exact (hinterrupt _).imp_right .inl
    · cases v with
      | closure identity function home =>
        simp only [refusal] at h
        split at h
        · cases h
          exact .inr (.inr rfl)
        · cases h
      | _ => cases h

/-- The codes of faults that the evaluator raises. Only an assignment to what is no
    name is an error of syntax. -/
theorem Site.Raises.code {w : Setting} {s : Site} {f : Fault} (h : s.Raises w f) :
    ∃ code, f.code? = some code ∧
      (code ∈ [.naming, .typing, .arithmetic, .callDepth, .timeout, .canceled] ∨
        code = .parsing ∧ ∃ target value, s.node = .assign target value ∧
          ∀ name, target ≠ .ident name) := by
  cases h with
  | unbound | unassigned => exact ⟨.naming, rfl, .inl (by decide)⟩
  | notAssignable htarget => exact ⟨.parsing, rfl, .inr ⟨rfl, _, _, rfl, htarget⟩⟩
  | unary _ hproblem =>
    exact ⟨.typing, congrArg some (UnaryOp.code_of_error hproblem), .inl (by decide)⟩
  | binary _ _ hproblem =>
    rcases BinaryOp.code_of_error hproblem with hcode | hcode
    · exact ⟨.typing, congrArg some hcode, .inl (by decide)⟩
    · exact ⟨.arithmetic, congrArg some hcode, .inl (by decide)⟩
  | strayElse | missingNode | notCallable => exact ⟨.typing, rfl, .inl (by decide)⟩
  | round _ hverdict | refused _ _ hverdict =>
    rcases Setting.code_of_verdict hverdict with hcode | hcode | hcode
    · exact ⟨.canceled, hcode, .inl (by decide)⟩
    · exact ⟨.timeout, hcode, .inl (by decide)⟩
    · exact ⟨.callDepth, hcode, .inl (by decide)⟩

/-- A fault of a host function comes out as it is, or wrapped if it has no code. -/
theorem Fault.raisedBy_cases (name : Name) (g : Fault) :
    (∃ code, g.code? = some code) ∧ g.raisedBy name = g ∨
      g.code? = none ∧ g.raisedBy name = .hostFailed name g := by
  unfold raisedBy
  cases hcode : g.code? with
  | some code => exact .inl ⟨⟨code, rfl⟩, rfl⟩
  | none => exact .inr ⟨rfl, rfl⟩

/-- Whatever the reader finds wrong has a code. -/
theorem code_of_parse {source : Bytes} {f : Fault} (h : parse source = .error f) :
    ∃ code, f.code? = some code := by
  -- The tokens end in a fault, or a token is not what it should be.
  cases (blames_of_parse h).1 with
  | ending hend =>
    obtain ⟨problem, hproblem⟩ := (Cursor.fault_position hend).1
    rw [hproblem]
    exact ⟨.lexing, rfl⟩
  | token => exact ⟨.parsing, rfl⟩
  | final => exact ⟨.parsing, rfl⟩

/-! ## Runs -/

namespace Interpreter

variable {i j : Interpreter} {o : Occasion} {source : Bytes} {p : Program} {f : Fault}

/-- The site at which a run starts. -/
def startSite (i : Interpreter) (p : Program) : Site :=
  ⟨0, globalScope, .program p.statements, i.initial⟩

/-- Reading a source changes the cache at most. -/
theorem withoutCache_parse (i : Interpreter) (source : Bytes) :
    (i.parse source).2.withoutCache = i.withoutCache := by
  unfold Interpreter.parse
  split
  · rfl
  · split
    · rfl
    · split <;> rfl

/-- Reading a source fails only if it does not parse. -/
theorem parse_of_error (h : (i.parse source).1 = .error f) : Scriptlet.parse source = .error f := by
  unfold Interpreter.parse at h
  split at h
  · exact h
  · split at h
    · cases h
    · split at h
      · cases h
      · rename_i hparse
        cases h
        exact hparse

/-- What the cache of the interpreter, if it has one, answers for the source is its
    parse. -/
def CacheHolds (i : Interpreter) (source : Bytes) : Prop :=
  ∀ c p, i.cache = some c → (c.get source).1 = some p → Scriptlet.parse source = .ok p

/-- Then reading the source is parsing it. -/
theorem CacheHolds.parse (h : i.CacheHolds source) :
    (i.parse source).1 = Scriptlet.parse source := by
  cases hc : i.cache with
  | none => rw [parse_uncached hc]
  | some c =>
    obtain ⟨c', hread, -⟩ := parse_shown (i := i) fun p => h c p hc
    have hshown : i.shown c = i := by rw [shown, ← hc]
    rw [hshown] at hread
    rw [hread]

/-- The fault of a run that has read a program has an origin. Behind the reading the run
    does not look at the cache. -/
theorem origin_of_run (hread : (i.parse source).1 = .ok p)
    (h : (i.run o source).outcome = .fault f) : (i.startSite p).Origin (i.setting o) f := by
  have hsame := withoutCache_parse i source
  rcases hparse : i.parse source with ⟨x, j⟩
  rw [hparse] at hread hsame
  obtain rfl : x = .ok p := hread
  rw [run_eq_reportOn hparse] at h
  -- The mark that a run takes off a value changes no fault.
  have horigin : (j.withoutCache.startSite p).Origin (j.withoutCache.setting o) f :=
    (traced (j.setting o) o.fuel).node (Result.map_fault.mp h)
  rw [show j.withoutCache = i.withoutCache from hsame] at horigin
  exact horigin

/-- A run that cannot read its source reports the fault and leaves all as it was. -/
theorem run_of_error (hread : (i.parse source).1 = .error f) :
    (i.run o source).outcome = .fault f ∧ (i.run o source).output = [] ∧
      (i.run o source).interpreter.withoutCache = i.withoutCache := by
  have hsame := withoutCache_parse i source
  rcases hparse : i.parse source with ⟨x, j⟩
  rw [hparse] at hread hsame
  obtain rfl : x = .error f := hread
  rw [run_eq_reportOn hparse]
  exact ⟨rfl, rfl, hsame⟩

/-- No fault of a run is without a code. -/
theorem code_of_run (h : (i.run o source).outcome = .fault f) : ∃ code, f.code? = some code := by
  -- The source is not read, or the evaluation fails.
  cases hread : (i.parse source).1 with
  | error g =>
    cases h.symm.trans (run_of_error hread).1
    exact code_of_parse (parse_of_error hread)
  | ok p =>
    obtain ⟨s, -, hraises | ⟨name, g, -, rfl⟩⟩ := origin_of_run hread h
    · obtain ⟨code, hcode, -⟩ := hraises.code
      exact ⟨code, hcode⟩
    · rcases Fault.raisedBy_cases name g with ⟨⟨code, hcode⟩, hsame⟩ | ⟨-, hwrapped⟩
      · exact ⟨code, by rw [hsame, hcode]⟩
      · exact ⟨.host, by rw [hwrapped]; rfl⟩

/-- The faults of runs by their codes. Every fault has one. Every fault of a program that
    was read arises at a site that its evaluation reaches: the evaluator raises it there,
    and then it is no lexical fault, none of the registry and none of the host, and one of
    syntax only where a value is assigned to what is no name; or a host function gives it
    back there, and then it comes out as it is, or wrapped once as a fault of the host if
    it had no code. If the cache holds parses, a source that does not parse fails with the
    fault of the parser, and nothing is written or bound. -/
theorem run_fault_origins (i : Interpreter) (o : Occasion) (source : Bytes) :
    (∀ f, (i.run o source).outcome = .fault f → ∃ code, f.code? = some code) ∧
    (∀ p f, (i.parse source).1 = .ok p → (i.run o source).outcome = .fault f →
      ∃ s, Relation.ReflTransGen (Site.Goes (i.setting o)) (i.startSite p) s ∧
        ((s.Raises (i.setting o) f ∧ f.code? ≠ some .lexing ∧ f.code? ≠ some .registry ∧
            f.code? ≠ some .host ∧
            (f.code? = some .parsing → ∃ target value, s.node = .assign target value ∧
              ∀ name, target ≠ .ident name)) ∨
          ∃ name g, s.GivesBack (i.setting o) name g ∧
            ((∃ code, g.code? = some code) ∧ f = g ∨
              g.code? = none ∧ f = .hostFailed name g))) ∧
    (i.CacheHolds source → (i.parse source).1 = Scriptlet.parse source ∧
      ∀ f, Scriptlet.parse source = .error f →
        (i.run o source).outcome = .fault f ∧ (i.run o source).output = [] ∧
          (i.run o source).interpreter.withoutCache = i.withoutCache) := by
  refine ⟨fun f hf => code_of_run hf, fun p f hread hf => ?_, fun hcache => ?_⟩
  · obtain ⟨s, hreach, hraises | ⟨name, g, hback, rfl⟩⟩ := origin_of_run hread hf
    · refine ⟨s, hreach, .inl ⟨hraises, ?_⟩⟩
      obtain ⟨code, hcode, hown | ⟨rfl, hassign⟩⟩ := hraises.code
      · rw [hcode]
        -- None of the other codes is one that the evaluator raises.
        refine ⟨?_, ?_, ?_, ?_⟩ <;> rintro ⟨⟩ <;> exact absurd hown (by decide)
      · rw [hcode]
        exact ⟨by decide, by decide, by decide, fun _ => hassign⟩
    · exact ⟨s, hreach, .inr ⟨name, g, hback, Fault.raisedBy_cases name g⟩⟩
  · exact ⟨hcache.parse, fun f hparse => run_of_error (hcache.parse.trans hparse)⟩

/-- A function of a script prints to a sink that is broken, and the plain fault of
    printing is wrapped once. A source that does not parse fails as it does not parse. -/
theorem run_fault_origins_broken :
    let i : Interpreter := { ofRegistry .initial with sink := .broken (text "disk full") }
    let o : Occasion := { Occasion.plain .bare with fuel := 20 }
    let script := text "func f() Out(1)\nf()"
    let p : Program := ⟨[
      .func (text "f") [] (.mk [.ret (.call (.ident (text "Out")) [.int 1])] true),
      .call (.ident (text "f")) []]⟩
    let f : Fault := .hostFailed (text "Out") (.plain (text "disk full"))
    let e : Fault := .parse (.unexpectedToken .separator) ⟨1, 4⟩ false
    i.CacheHolds script ∧ Scriptlet.parse script = .ok p ∧ (i.run o script).outcome = .fault f ∧
      (∃ s name g, Relation.ReflTransGen (Site.Goes (i.setting o)) (i.startSite p) s ∧
        s.GivesBack (i.setting o) name g ∧
        ((∃ code, g.code? = some code) ∧ f = g ∨ g.code? = none ∧ f = .hostFailed name g)) ∧
      Scriptlet.parse (text "1 +") = .error e ∧ (i.run o (text "1 +")).outcome = .fault e := by
  have hp : Scriptlet.parse (text "func f() Out(1)\nf()") =
      .ok ⟨[.func (text "f") [] (.mk [.ret (.call (.ident (text "Out")) [.int 1])] true),
        .call (.ident (text "f")) []]⟩ := by
    with_unfolding_all rfl
  have he : Scriptlet.parse (text "1 +") =
      .error (.parse (.unexpectedToken .separator) ⟨1, 4⟩ false) := by
    with_unfolding_all rfl
  intro i o script p f e
  have hcache : ∀ source, i.CacheHolds source := by
    intro source c p hc
    cases hc
  have hread : i.parse script = (.ok p, i) := by rw [parse_uncached rfl, hp]
  have hrun : (i.run o script).outcome = .fault f := by
    rw [run_eq_reportOn hread]
    with_unfolding_all rfl
  refine ⟨hcache script, hp, hrun, ?_, he, ?_⟩
  · obtain ⟨-, horigins, hreads⟩ := run_fault_origins i o script
    obtain ⟨s, hreach, ⟨-, -, -, hhost, -⟩ | ⟨name, g, hback, hg⟩⟩ :=
      horigins p f ((hreads (hcache script)).1.trans hp) hrun
    · exact absurd rfl hhost
    · exact ⟨s, name, g, hreach, hback, hg⟩
  · exact (((run_fault_origins i o (text "1 +")).2.2 (hcache _)).2 e he).1

end Interpreter

end Scriptlet
