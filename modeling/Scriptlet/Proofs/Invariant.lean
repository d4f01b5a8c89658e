/-
  Scriptlet.Proofs.Invariant

  What every evaluation keeps. An evaluation changes its state in a few ways
  only: it counts a check, notes an event, declares a function, assigns to a
  name, enters a function or calls one of the host. An `Invariant` is a property
  of states, of the scopes that are evaluated in and of the values that are
  handed on, with the proof that each of these steps keeps it.

  `Invariant.kept` is the one induction over evaluations: whatever is an
  invariant holds after every evaluation, with a value, with a fault or out of
  fuel, and the heap of scopes only grows (`Upheld`).
-/
import Scriptlet.Proofs.Evaluation
import Scriptlet.Proofs.Scope

namespace Scriptlet

/-! ## Values without references -/

/-- Numbers, booleans and strings: the values that refer to nothing. -/
def Value.isAtom : Value → Bool
  | .int _ | .float _ | .bool _ | .str _ => true
  | _ => false

/-- A value that is no return on its way out carries no mark. -/
theorem Value.unwrap_eq_self {v : Value} (h : v.isReturned = false) : v.unwrap = v := by
  cases v with
  | returned u => cases h
  | _ => rfl

theorem UnaryOp.isAtom_apply {op : UnaryOp} {v u : Value} (h : op.apply v = .ok u) :
    u.isAtom = true := by
  cases op with
  | not =>
    cases h
    rfl
  | negate => cases v <;> cases h <;> rfl
  | unknown symbol => cases h

namespace Arithmetic

theorem isAtom_promote (wrong : Bool) (word : Int64) (otherwise : Double) :
    (promote wrong word otherwise).isAtom = true := by
  unfold promote
  split <;> rfl

/-- What words give is an atom, unless the operator is none between numbers. -/
theorem integers_cases {op : BinaryOp} {l r : Int64} {x : Except EvalProblem Value}
    (h : integers op l r = some x) :
    (∃ v : Value, v.isAtom = true ∧ x = .ok v) ∨ x = .error (.inapplicable op) ∧
      (op = .or ∨ op = .and ∨ op = .equal ∨ op = .notEqual ∨ ∃ symbol, op = .unknown symbol) := by
  cases op with
  | add | sub =>
    cases h
    exact .inl ⟨_, isAtom_promote _ _ _, rfl⟩
  -- A factor of zero is not divided by; any other product is tested and may be promoted.
  | mul =>
    simp only [integers] at h
    split at h
    · cases h
      exact .inl ⟨_, rfl, rfl⟩
    · obtain ⟨_, -, rfl⟩ := Option.map_eq_some_iff.mp h
      exact .inl ⟨_, isAtom_promote _ _ _, rfl⟩
  | div =>
    simp only [integers] at h
    split at h
    · cases h
      exact .inl ⟨_, rfl, rfl⟩
    · obtain ⟨_, -, hx⟩ := Option.bind_eq_some_iff.mp h
      split at hx
      · obtain ⟨_, -, rfl⟩ := Option.map_eq_some_iff.mp hx
        exact .inl ⟨_, rfl, rfl⟩
      · cases hx
        exact .inl ⟨_, rfl, rfl⟩
  | rem =>
    obtain ⟨_, -, rfl⟩ := Option.map_eq_some_iff.mp h
    exact .inl ⟨_, rfl, rfl⟩
  | less | greater | lessEq | greaterEq =>
    cases h
    exact .inl ⟨_, rfl, rfl⟩
  | or | and | equal | notEqual | unknown =>
    cases h
    exact .inr ⟨rfl, by simp⟩

/-- What an operator makes of two words is an atom. -/
theorem isAtom_integers {op : BinaryOp} {l r : Int64} {u : Value}
    (h : integers op l r = some (.ok u)) : u.isAtom = true := by
  rcases integers_cases h with ⟨v, hv, hu⟩ | ⟨hfault, -⟩
  · cases hu
    exact hv
  · cases hfault

theorem isAtom_doubles {op : BinaryOp} {l r : Double} {u : Value} (h : doubles op l r = .ok u) :
    u.isAtom = true := by
  cases op <;> cases h <;> rfl

end Arithmetic

/-- Operators make atoms of whatever they are applied to. -/
theorem BinaryOp.isAtom_apply {op : BinaryOp} {l r u : Value} (h : op.apply l r = .ok u) :
    u.isAtom = true := by
  unfold BinaryOp.apply at h
  split at h
  · cases h
    rfl
  · cases h
    rfl
  · split at h
    · cases h
    split at h
    · cases h
    split at h
    · cases h
    split at h
    · -- Behind the guards there are only numbers.
      exact Arithmetic.isAtom_integers (Option.eq_some_iff_get_eq.mpr ⟨_, h⟩)
    · exact Arithmetic.isAtom_doubles h

/-! ## Calls of the host -/

/-- A host function gives back what its behaviour does; printing gives back no
    more than an atom. -/
theorem Host.call_value {h : Host} {f : HostFunction} {sink : Sink} {arguments : List Value}
    {v : Value} (hv : (h.call f sink arguments).result = .ok (some v)) :
    v.isAtom = true ∨ ∃ key, (h.behave key sink arguments).result = .ok (some v) := by
  cases f with
  | out =>
    cases sink with
    | «open» =>
      cases hv
      exact .inl rfl
    | broken reason => cases hv
  | custom key => exact .inr ⟨key, hv⟩

section Invoke

variable {w : Setting} {st : State} {name : Name} {f : HostFunction} {arguments : List Value}

/-- A call of the host changes what was written and what was done. -/
theorem State.invoke_state :
    (st.invoke w name f arguments).state =
      { st.note (.invoked f arguments) with
        written := (w.host.call f w.sink arguments).written :: st.written } := by
  unfold invoke
  cases h : (w.host.call f w.sink arguments).result with
  | error fault =>
    simp only [h]
    rfl
  | ok v? => cases v? <;> simp only [h] <;> rfl

/-- A call of the host gives the value of its reply, or else false. -/
theorem State.invoke_value {v : Value} (h : (st.invoke w name f arguments).outcome = .value v) :
    v = .bool false ∨ (w.host.call f w.sink arguments).result = .ok (some v) := by
  unfold invoke at h
  cases hresult : (w.host.call f w.sink arguments).result with
  | error fault =>
    simp only [hresult] at h
    cases h
  | ok v? =>
    cases v? with
    | none =>
      simp only [hresult] at h
      cases h
      exact .inl rfl
    | some u =>
      simp only [hresult] at h
      cases h
      exact .inr rfl

end Invoke

/-! ## Invariants -/

/-- A property that every step of an evaluation keeps. `state` is about the
    states of the evaluation, `scope` about the scopes that it evaluates in, and
    `value` about the values that it hands on, the last two as seen from the heap
    at that time. -/
structure Invariant (w : Setting) where
  state : State → Prop
  scope : Scopes → ScopeId → Prop
  value : Scopes → Value → Prop
  scope_mono : ∀ {st st' : State} {i : ScopeId}, state st → state st' →
    st.scopes.Extends st'.scopes → scope st.scopes i → scope st'.scopes i
  value_mono : ∀ {st st' : State} {v : Value}, state st → state st' →
    st.scopes.Extends st'.scopes → value st.scopes v → value st'.scopes v
  value_atom : ∀ (s : Scopes) {v : Value}, v.isAtom = true → value s v
  value_unwrap : ∀ {s : Scopes} {v : Value}, value s v → value s v.unwrap
  check : ∀ {st : State}, state st → state { st with checks := st.checks + 1 }
  looped : ∀ {st : State}, state st → state (st.note .looped)
  operated : ∀ {st : State} {operands : List Value}, state st →
    (∀ v ∈ operands, value st.scopes v) → state (st.note (.operated operands))
  read : ∀ {st : State} {i : ScopeId} {name : Name} {v : Value}, state st → scope st.scopes i →
    st.scopes.lookup? i name = some v → value st.scopes v
  declared : ∀ {st : State} {i : ScopeId} (f : Function), state st → scope st.scopes i →
    state (st.declare i f).state ∧
      value (st.declare i f).state.scopes (.closure st.identities f i)
  assigned : ∀ {st : State} {i o : ScopeId} {name : Name} {v : Value}, state st →
    scope st.scopes i → value st.scopes v → st.scopes.target? i name = some o →
    state ({ st with scopes := st.scopes.define o name v }.note (.assigned o name v))
  entered : ∀ {st : State} {identity home : Nat} {f : Function} {arguments : List Value}
    (depth : Nat), state st → value st.scopes (.closure identity f home) →
    (∀ a ∈ arguments, value st.scopes a) →
    state (st.enter f home arguments depth).2 ∧
      scope (st.enter f home arguments depth).2.scopes (st.enter f home arguments depth).1
  invoked : ∀ {st : State} {f : HostFunction} {arguments : List Value}, state st →
    (∀ a ∈ arguments, value st.scopes a) →
    state { st.note (.invoked f arguments) with
      written := (w.host.call f w.sink arguments).written :: st.written } ∧
      ∀ v, (w.host.call f w.sink arguments).result = .ok (some v) → value st.scopes v.unwrap

namespace Invariant

variable {w : Setting} (I : Invariant w)

/-- The result of an evaluation from `st` keeps the invariant, and its heap grew
    out of that of `st`. A return on its way out is judged by its value. -/
structure Upheld (st : State) (r : Result) : Prop where
  grows : st.scopes.Extends r.state.scopes
  state : I.state r.state
  value : ∀ v, r.outcome = .value v → I.value r.state.scopes v.unwrap

namespace Upheld

variable {I} {st : State} {r : Result}

theorem of_value {v : Value} (hst : I.state st) (hv : I.value st.scopes v) :
    I.Upheld st ⟨.value v, st⟩ where
  grows := .refl _
  state := hst
  value u hu := by
    cases hu
    exact I.value_unwrap hv

/-- A fault hands on no value, so the state is all that counts. -/
theorem of_fault (hst : I.state st) (f : Fault) : I.Upheld st ⟨.fault f, st⟩ where
  grows := .refl _
  state := hst
  value _ hv := by cases hv

/-- A starved result leaves the state where it was. -/
theorem of_starved (hst : I.state st) : I.Upheld st ⟨.starved, st⟩ where
  grows := .refl _
  state := hst
  value _ hv := by cases hv

/-- A result from a state that grew out of another is one from that other. -/
theorem trans {st' : State} (h : I.Upheld st' r) (hgrows : st.scopes.Extends st'.scopes) :
    I.Upheld st r :=
  ⟨hgrows.trans h.grows, h.state, h.value⟩

/-- Two steps keep the invariant if each of them does. -/
theorem andThen {go : Value → State → Result} (h : I.Upheld st r)
    (hgo : ∀ v (st' : State), st.scopes.Extends st'.scopes → I.state st' →
      I.value st'.scopes v → I.Upheld st' (go v st')) :
    I.Upheld st (r.andThen go) := by
  obtain ⟨outcome, st'⟩ := r
  cases outcome with
  | fault f => exact ⟨h.grows, h.state, fun _ hv => by cases hv⟩
  | starved => exact ⟨h.grows, h.state, fun _ hv => by cases hv⟩
  | value v =>
    cases hv : v.isReturned with
    -- A return on its way out ends the construct with what the first step left.
    | true =>
      rw [Result.andThen_returned hv]
      exact h
    | false =>
      have hvalue : I.value st'.scopes v := by
        have hunwrapped := h.value v rfl
        rwa [Value.unwrap_eq_self hv] at hunwrapped
      rw [Result.andThen_value hv]
      exact (hgo v st' h.grows h.state hvalue).trans h.grows

/-- A change of the value keeps the invariant if the new value has it. -/
theorem map {f : Value → Value} (h : I.Upheld st r)
    (hf : ∀ (s : Scopes) v, I.value s v.unwrap → I.value s (f v)) : I.Upheld st (r.map f) := by
  obtain ⟨outcome, st'⟩ := r
  cases outcome with
  | fault g => exact ⟨h.grows, h.state, fun _ hv => by cases hv⟩
  | starved => exact ⟨h.grows, h.state, fun _ hv => by cases hv⟩
  | value v =>
    refine ⟨h.grows, h.state, fun u hu => ?_⟩
    cases hu
    exact I.value_unwrap (hf _ v (h.value v rfl))

/-- A check is counted, and then it stops the evaluation or lets it go on. -/
theorem check {go : State → Result} (hst : I.state st)
    (hgo : ∀ st' : State, st'.scopes = st.scopes → I.state st' → I.Upheld st' (go st')) :
    I.Upheld st (st.check w go) := by
  have hcounted := I.check hst
  unfold State.check
  cases w.context.status st.checks with
  | some i =>
    have hstopped := of_fault hcounted (.interrupted i)
    exact ⟨hstopped.grows, hstopped.state, hstopped.value⟩
  | none =>
    have hgoes := hgo { st with checks := st.checks + 1 } rfl hcounted
    exact ⟨hgoes.grows, hgoes.state, hgoes.value⟩

/-- Operators make atoms, which every invariant admits. -/
theorem operate {operands : List Value} {result : Except EvalProblem Value} (hst : I.state st)
    (hoperands : ∀ v ∈ operands, I.value st.scopes v)
    (hresult : ∀ v, result = .ok v → v.isAtom = true) :
    I.Upheld st (st.operate operands result) := by
  have hnoted := I.operated hst hoperands
  cases result with
  | error problem =>
    have hfailed := of_fault hnoted (.eval problem)
    exact ⟨hfailed.grows, hfailed.state, hfailed.value⟩
  | ok v =>
    have hdone := of_value hnoted (I.value_atom _ (hresult v rfl))
    exact ⟨hdone.grows, hdone.state, hdone.value⟩

/-- What is read in a scope of the invariant is a value of it. -/
theorem read {i : ScopeId} (hst : I.state st) (hi : I.scope st.scopes i) (name : Name) :
    I.Upheld st (st.read i name) := by
  unfold State.read
  cases hv : st.scopes.lookup? i name with
  | none => exact of_fault hst _
  | some v => exact of_value hst (I.read hst hi hv)

/-- A declaration binds its name to the new closure, which it hands on. -/
theorem declare {i : ScopeId} (hst : I.state st) (hi : I.scope st.scopes i) (f : Function) :
    I.Upheld st (st.declare i f) where
  grows := .define _ _ _ _
  state := (I.declared f hst hi).1
  value v hv := by
    cases hv
    exact (I.declared f hst hi).2

/-- An assignment binds the name in its target and hands on the value. -/
theorem write {i : ScopeId} {v : Value} (hst : I.state st) (hi : I.scope st.scopes i)
    (hv : I.value st.scopes v) (name : Name) : I.Upheld st (st.write i name v) := by
  unfold State.write
  cases ho : st.scopes.target? i name with
  | none => exact of_fault hst _
  | some o =>
    have hassigned := I.assigned hst hi hv ho
    have hgrows := Scopes.Extends.define st.scopes o name v
    exact (of_value hassigned (I.value_mono hst hassigned hgrows hv)).trans hgrows

/-- A call of the host leaves the scopes alone, and its reply is admitted. -/
theorem invoke {arguments : List Value} (hst : I.state st)
    (harguments : ∀ a ∈ arguments, I.value st.scopes a) (name : Name) (f : HostFunction) :
    I.Upheld st (st.invoke w name f arguments) := by
  obtain ⟨hstate, hreply⟩ := I.invoked (f := f) hst harguments
  refine ⟨?_, ?_, ?_⟩
  · rw [State.invoke_state]
    exact .refl _
  · rw [State.invoke_state]
    exact hstate
  · intro v hv
    rw [State.invoke_state]
    -- A function without a reply gives false.
    rcases State.invoke_value hv with rfl | hresult
    · exact I.value_atom _ rfl
    · exact hreply v hresult

end Upheld

/-! ## One step of the fuel -/

/-- Evaluations with the fuel `n` keep the invariant. -/
structure Kept (n : Nat) : Prop where
  node : ∀ depth i node (st : State), I.state st → I.scope st.scopes i →
    I.Upheld st (eval w n depth i node st)
  sequence : ∀ depth i ss last (st : State), I.state st → I.scope st.scopes i →
    I.value st.scopes last → I.Upheld st (evalSequence w n depth i ss last st)
  tail : ∀ depth i tail (st : State), I.state st → I.scope st.scopes i →
    I.Upheld st (evalTail w n depth i tail st)
  loop : ∀ depth i condition body last (st : State), I.state st → I.scope st.scopes i →
    I.value st.scopes last → I.Upheld st (evalLoop w n depth i condition body last st)
  call : ∀ depth i f arguments done (st : State), I.state st → I.scope st.scopes i →
    I.value st.scopes f → (∀ a ∈ done, I.value st.scopes a) →
    I.Upheld st (evalCall w n depth i f arguments done st)
  apply : ∀ depth f arguments (st : State), I.state st → I.value st.scopes f →
    (∀ a ∈ arguments, I.value st.scopes a) →
    I.Upheld st (Scriptlet.apply w n depth f arguments st)

namespace Kept

variable {I} {n : Nat}

/-- Without fuel nothing happens. -/
theorem zero : I.Kept 0 := by
  refine ⟨?_, ?_, ?_, ?_, ?_, ?_⟩
  · intro depth i node st hst hi
    rw [eval]
    exact .of_starved hst
  · intro depth i ss last st hst hi hlast
    rw [evalSequence]
    exact .of_starved hst
  · intro depth i tail st hst hi
    rw [evalTail]
    exact .of_starved hst
  · intro depth i condition body last st hst hi hlast
    rw [evalLoop]
    exact .of_starved hst
  · intro depth i f arguments done st hst hi hf hdone
    rw [evalCall]
    exact .of_starved hst
  · intro depth f arguments st hst hf harguments
    rw [Scriptlet.apply]
    exact .of_starved hst

/-- A sequence of statements starts without a value, which is false. -/
theorem statements (h : I.Kept n) (depth : Nat) {i : ScopeId} (ss : List Node) {st : State}
    (hst : I.state st) (hi : I.scope st.scopes i) :
    I.Upheld st (evalSequence w n depth i ss (.bool false) st) :=
  h.sequence depth i ss _ st hst hi (I.value_atom _ rfl)

/-- The right operand is evaluated in the state that the left one leaves. -/
theorem binary_succ (ih : I.Kept n) (depth : Nat) (i : ScopeId) (op : BinaryOp)
    (left right : Node) (st : State) (hst : I.state st) (hi : I.scope st.scopes i) :
    I.Upheld st (eval w (n + 1) depth i (.binary op left right) st) := by
  rw [eval]
  refine (ih.node depth i left st hst hi).andThen fun l st₁ hgrows hst₁ hl => ?_
  have hi₁ := I.scope_mono hst hst₁ hgrows hi
  have hright := ih.node depth i right st₁ hst₁ hi₁
  cases op with
  | and =>
    show I.Upheld st₁ (if l.isFalse then _ else _)
    split
    · exact .of_value hst₁ (I.value_atom _ rfl)
    · exact hright
  -- `or` may hand on the value of the left operand itself.
  | or =>
    show I.Upheld st₁ (if l.isFalse then _ else _)
    split
    · exact hright
    · exact .of_value hst₁ hl
  | _ =>
    refine hright.andThen fun r st₂ hgrows₂ hst₂ hr => ?_
    -- The left operand still counts in the later heap, which has only grown.
    have hl₂ := I.value_mono hst₁ hst₂ hgrows₂ hl
    refine .operate hst₂ ?_ fun v hv => BinaryOp.isAtom_apply hv
    simp [hl₂, hr]

/-- A construct keeps the invariant if its parts do, one case for each construct. -/
theorem node_succ (ih : I.Kept n) (depth : Nat) (i : ScopeId) (node : Node) (st : State)
    (hst : I.state st) (hi : I.scope st.scopes i) :
    I.Upheld st (eval w (n + 1) depth i node st) := by
  cases node with
  | program statements =>
    rw [eval]
    exact (ih.statements depth statements hst hi).map fun _ _ hv => hv
  | block body =>
    rw [eval]
    exact ih.statements depth body.statements hst hi
  | int | float | str | bool =>
    rw [eval]
    exact .of_value hst (I.value_atom _ rfl)
  | ident name =>
    rw [eval]
    exact .read hst hi name
  | unary op operand =>
    rw [eval]
    refine (ih.node depth i operand st hst hi).andThen fun v st₁ _ hst₁ hv => ?_
    refine .operate hst₁ ?_ fun u hu => UnaryOp.isAtom_apply hu
    simpa using hv
  | binary op left right => exact ih.binary_succ depth i op left right st hst hi
  | assign target value =>
    cases target with
    | ident name =>
      rw [eval]
      refine (ih.node depth i value st hst hi).andThen fun v st₁ hgrows hst₁ hv => ?_
      exact .write hst₁ (I.scope_mono hst hst₁ hgrows hi) hv name
    | _ =>
      simp only [eval]
      exact .of_fault hst _
  | call callee arguments =>
    rw [eval]
    refine (ih.node depth i callee st hst hi).andThen fun f st₁ hgrows hst₁ hf => ?_
    have hi₁ := I.scope_mono hst hst₁ hgrows hi
    exact ih.call depth i f arguments [] st₁ hst₁ hi₁ hf fun _ ha => by cases ha
  | func name parameters body =>
    rw [eval]
    exact .declare hst hi _
  | branch condition body tail =>
    rw [eval]
    refine (ih.node depth i condition st hst hi).andThen fun c st₁ hgrows hst₁ _ => ?_
    have hi₁ := I.scope_mono hst hst₁ hgrows hi
    cases c.isFalse with
    | true => exact ih.tail depth i tail st₁ hst₁ hi₁
    | false => exact ih.statements depth body.statements hst₁ hi₁
  | otherwise | absent =>
    rw [eval]
    exact .of_fault hst _
  | loop condition body =>
    rw [eval]
    exact ih.loop depth i condition body _ st hst hi (I.value_atom _ rfl)
  | ret value =>
    rw [eval]
    refine (ih.node depth i value st hst hi).andThen fun v st₁ _ hst₁ hv => ?_
    -- The mark is new, so what it stands around is the value itself.
    refine ⟨.refl _, hst₁, fun u hu => ?_⟩
    cases hu
    exact hv

/-- Each statement runs in the state that the one before it left. -/
theorem sequence_succ (ih : I.Kept n) (depth : Nat) (i : ScopeId) (ss : List Node) (last : Value)
    (st : State) (hst : I.state st) (hi : I.scope st.scopes i) (hlast : I.value st.scopes last) :
    I.Upheld st (evalSequence w (n + 1) depth i ss last st) := by
  cases ss with
  | nil =>
    rw [evalSequence]
    exact .of_value hst hlast
  | cons s ss =>
    rw [evalSequence]
    refine (ih.node depth i s st hst hi).andThen fun v st₁ hgrows hst₁ hv => ?_
    exact ih.sequence depth i ss v st₁ hst₁ (I.scope_mono hst hst₁ hgrows hi) hv

/-- The rest of a conditional is evaluated behind its conditions. -/
theorem tail_succ (ih : I.Kept n) (depth : Nat) (i : ScopeId) (tail : Tail) (st : State)
    (hst : I.state st) (hi : I.scope st.scopes i) :
    I.Upheld st (evalTail w (n + 1) depth i tail st) := by
  cases tail with
  | none =>
    rw [evalTail]
    exact .of_value hst (I.value_atom _ rfl)
  | «else» body =>
    rw [evalTail]
    exact ih.statements depth body.statements hst hi
  | elif condition body rest =>
    rw [evalTail]
    refine (ih.node depth i condition st hst hi).andThen fun c st₁ hgrows hst₁ _ => ?_
    have hi₁ := I.scope_mono hst hst₁ hgrows hi
    cases c.isFalse with
    | true => exact ih.tail depth i rest st₁ hst₁ hi₁
    | false => exact ih.statements depth body.statements hst₁ hi₁

/-- A round keeps the invariant, and the rounds behind it do by induction. -/
theorem loop_succ (ih : I.Kept n) (depth : Nat) (i : ScopeId) (condition : Node) (body : Block)
    (last : Value) (st : State) (hst : I.state st) (hi : I.scope st.scopes i)
    (hlast : I.value st.scopes last) :
    I.Upheld st (evalLoop w (n + 1) depth i condition body last st) := by
  rw [evalLoop]
  refine .check hst fun st₁ hsame hst₁ => ?_
  -- The check leaves the scopes as they were, so scope and value count as before.
  rw [← hsame] at hi hlast
  have hround := ih.node depth i condition (st₁.note .looped) (I.looped hst₁) hi
  refine (hround.andThen fun c st₂ hgrows hst₂ _ => ?_).trans (.refl st₁.scopes)
  have hi₂ := I.scope_mono hst₁ hst₂ hgrows hi
  cases c.isFalse with
  | true => exact .of_value hst₂ (I.value_mono hst₁ hst₂ hgrows hlast)
  | false =>
    refine (ih.statements depth body.statements hst₂ hi₂).andThen fun v st₃ hgrows₃ hst₃ hv => ?_
    exact ih.loop depth i condition body v st₃ hst₃ (I.scope_mono hst₂ hst₃ hgrows₃ hi₂) hv

/-- The values of the arguments stay admitted while the later ones are evaluated. -/
theorem call_succ (ih : I.Kept n) (depth : Nat) (i : ScopeId) (f : Value)
    (arguments : List Node) (done : List Value) (st : State) (hst : I.state st)
    (hi : I.scope st.scopes i) (hf : I.value st.scopes f)
    (hdone : ∀ a ∈ done, I.value st.scopes a) :
    I.Upheld st (evalCall w (n + 1) depth i f arguments done st) := by
  cases arguments with
  | nil =>
    rw [evalCall]
    refine ih.apply depth f done.reverse st hst hf fun a ha => hdone a (List.mem_reverse.mp ha)
  | cons a as =>
    rw [evalCall]
    refine (ih.node depth i a st hst hi).andThen fun v st₁ hgrows hst₁ hv => ?_
    refine ih.call depth i f as (v :: done) st₁ hst₁ (I.scope_mono hst hst₁ hgrows hi)
      (I.value_mono hst hst₁ hgrows hf) fun b hb => ?_
    -- The new value was given in this heap, the older ones in one that it grew out of.
    rcases List.mem_cons.mp hb with rfl | hmem
    · exact hv
    · exact I.value_mono hst hst₁ hgrows (hdone b hmem)

/-- The body of a function runs in the scope that was made for the call. -/
theorem apply_succ (ih : I.Kept n) (depth : Nat) (f : Value) (arguments : List Value) (st : State)
    (hst : I.state st) (hf : I.value st.scopes f)
    (harguments : ∀ a ∈ arguments, I.value st.scopes a) :
    I.Upheld st (Scriptlet.apply w (n + 1) depth f arguments st) := by
  rw [Scriptlet.apply]
  refine .check hst fun st₁ hsame hst₁ => ?_
  rw [← hsame] at hf harguments
  cases f with
  | closure identity function home =>
    show I.Upheld st₁ (if 0 < w.maxCallDepth && w.maxCallDepth ≤ depth then _ else _)
    split
    · exact .of_fault hst₁ _
    · -- The closure counts, so the scope that is made under its home does.
      obtain ⟨hentered, hscope⟩ := I.entered (depth + 1) hst₁ hf harguments
      have hbody := ih.statements (depth + 1) function.body.statements hentered hscope
      refine (hbody.map ?_).trans (.enter _ _ _ _)
      intro s v hv
      -- The body hands on the value of a `return`, and false otherwise.
      cases v with
      | returned u => exact hv
      | _ => exact I.value_atom s rfl
  | builtin identity name function => exact .invoke hst₁ harguments name function
  | _ => exact .of_fault hst₁ _

end Kept

/-- Every evaluation keeps an invariant. -/
theorem kept (n : Nat) : I.Kept n := by
  induction n with
  | zero => exact .zero
  | succ n ih =>
    exact ⟨ih.node_succ, ih.sequence_succ, ih.tail_succ, ih.loop_succ, ih.call_succ,
      ih.apply_succ⟩

end Invariant

end Scriptlet
