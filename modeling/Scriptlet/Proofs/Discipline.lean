/-
  Scriptlet.Proofs.Discipline

  What evaluations of certain trees can fail with.

  A fault comes from a few places only: from a node that cannot be evaluated, from
  an operator, from a name, from a value that is called, from the limits, and from
  the host. Which nodes and operators an evaluation comes to depends on the tree,
  and also on the functions that it finds in the heap and gets from the host, for
  their bodies are trees as well. A `Discipline` says which trees, values and faults
  are admitted, with the proof that each of these places keeps to it.

  `Discipline.followed` is the one induction: an evaluation of an admitted tree
  in a heap of admitted values leaves such a heap, and ends with an admitted value or
  an admitted fault.
-/
import Scriptlet.Proofs.Invariant
import Scriptlet.Proofs.Render.Proper

namespace Scriptlet

/-! ## Parts that an evaluation comes to -/

/-- The second part is one that an evaluation of the first comes to. The body of a
    function is not: it is evaluated where the function is called. -/
inductive Part.Child : Part → Part → Prop where
  | program {ss} : Child (.node (.program ss)) (.each ss)
  | block {b} : Child (.node (.block b)) (.each b.statements)
  | operand {op x} : Child (.node (.unary op x)) (.node x)
  | left {op l r} : Child (.node (.binary op l r)) (.node l)
  | right {op l r} : Child (.node (.binary op l r)) (.node r)
  | assigned {target x} : Child (.node (.assign target x)) (.node x)
  | callee {c as} : Child (.node (.call c as)) (.node c)
  | arguments {c as} : Child (.node (.call c as)) (.each as)
  | condition {c b t} : Child (.node (.branch c b t)) (.node c)
  | consequence {c b t} : Child (.node (.branch c b t)) (.each b.statements)
  | alternative {c b t} : Child (.node (.branch c b t)) (.tail t)
  | loopCondition {c b} : Child (.node (.loop c b)) (.node c)
  | loopBody {c b} : Child (.node (.loop c b)) (.each b.statements)
  | returned {x} : Child (.node (.ret x)) (.node x)
  | elifCondition {c b t} : Child (.tail (.elif c b t)) (.node c)
  | elifBody {c b t} : Child (.tail (.elif c b t)) (.each b.statements)
  | elifRest {c b t} : Child (.tail (.elif c b t)) (.tail t)
  | elseBody {b} : Child (.tail (.else b)) (.each b.statements)
  | head {x xs} : Child (.each (x :: xs)) (.node x)
  | rest {x xs} : Child (.each (x :: xs)) (.each xs)

/-! ## Disciplines -/

/-- Trees, values and faults that an evaluation keeps to. -/
structure Discipline (w : Setting) where
  tree : Part → Prop
  value : Value → Prop
  fault : Fault → Prop
  -- What is admitted is closed under the ways in which trees and values arise.
  child : ∀ {p q : Part}, tree p → p.Child q → tree q
  atom : ∀ {v : Value}, v.isAtom = true → value v
  returned : ∀ {v : Value}, value (.returned v) ↔ value v
  declared : ∀ {name parameters body} (identity : Nat) (home : ScopeId),
    tree (.node (.func name parameters body)) →
    value (.closure identity ⟨name, parameters, body⟩ home)
  entered : ∀ {identity function home}, value (.closure identity function home) →
    tree (.each function.body.statements)
  -- A fault is admitted at every place that raises it.
  unary : ∀ {op x v problem}, tree (.node (.unary op x)) → op.apply v = .error problem →
    fault (.eval problem)
  binary : ∀ {op x y l r problem}, tree (.node (.binary op x y)) → op ≠ .and → op ≠ .or →
    op.apply l r = .error problem → fault (.eval problem)
  unassignable : ∀ {target x}, tree (.node (.assign target x)) → (∀ name, target ≠ .ident name) →
    fault (.eval (.notAssignable target))
  otherwise : ∀ {b}, tree (.node (.otherwise b)) → fault (.eval .strayElse)
  absent : tree (.node .absent) → fault (.eval .missingNode)
  unbound : ∀ name, fault (.eval (.unbound name))
  notCallable : ∀ v, fault (.eval (.notCallable v))
  tooDeep : ∀ limit name, fault (.eval (.tooDeep limit name))
  interrupted : ∀ i, fault (.interrupted i)
  -- What the host gives for admitted arguments is admitted.
  replied : ∀ {f arguments v}, (∀ a ∈ arguments, value a) →
    (w.host.call f w.sink arguments).result = .ok (some v) → value v
  raised : ∀ {f arguments name g}, (∀ a ∈ arguments, value a) →
    (w.host.call f w.sink arguments).result = .error g → fault (g.raisedBy name)

namespace Discipline

variable {w : Setting} (D : Discipline w)

/-- Every name is bound to an admitted value. -/
def Heap (s : Scopes) : Prop := s.Every fun _ v => D.value v

/-- A result that keeps to the discipline. -/
structure Obeyed (r : Result) : Prop where
  heap : D.Heap r.state.scopes
  value : ∀ v, r.outcome = .value v → D.value v
  fault : ∀ f, r.outcome = .fault f → D.fault f

namespace Obeyed

variable {D} {st : State} {r : Result} {v : Value}

theorem of_value (hst : D.Heap st.scopes) (hv : D.value v) : D.Obeyed ⟨.value v, st⟩ where
  heap := hst
  value u hu := by
    cases hu
    exact hv
  fault := nofun

theorem of_fault (hst : D.Heap st.scopes) {f : Fault} (hf : D.fault f) :
    D.Obeyed ⟨.fault f, st⟩ where
  heap := hst
  value := nofun
  fault g hg := by
    cases hg
    exact hf

/-- A starved result ends with nothing that would have to be admitted. -/
theorem of_starved (hst : D.Heap st.scopes) : D.Obeyed ⟨.starved, st⟩ where
  heap := hst
  value := nofun
  fault := nofun

theorem andThen {go : Value → State → Result} (h : D.Obeyed r)
    (hgo : ∀ v (st : State), D.Heap st.scopes → D.value v → D.Obeyed (go v st)) :
    D.Obeyed (r.andThen go) := by
  obtain ⟨outcome, st⟩ := r
  cases outcome with
  | fault f => exact h
  | starved => exact h
  | value v =>
    cases hv : v.isReturned with
    -- A return on its way out skips the second step.
    | true =>
      rw [Result.andThen_returned hv]
      exact h
    | false =>
      rw [Result.andThen_value hv]
      exact hgo v st h.heap (h.value v rfl)

/-- A change of the value keeps to the discipline if the new value is admitted. -/
theorem map {f : Value → Value} (h : D.Obeyed r) (hf : ∀ v, D.value v → D.value (f v)) :
    D.Obeyed (r.map f) := by
  obtain ⟨outcome, st⟩ := r
  cases outcome with
  | fault g => exact h
  | starved => exact h
  | value v => exact of_value h.heap (hf v (h.value v rfl))

/-- An interruption is always admitted. -/
theorem check {go : State → Result} (hst : D.Heap st.scopes)
    (hgo : ∀ st' : State, D.Heap st'.scopes → D.Obeyed (go st')) :
    D.Obeyed (st.check w go) := by
  unfold State.check
  cases w.context.status st.checks with
  | some i =>
    refine of_fault ?_ (D.interrupted i)
    exact hst
  | none => exact hgo _ hst

/-- Operators make atoms; what they fail with is asked for. -/
theorem operate {operands : List Value} {result : Except EvalProblem Value}
    (hst : D.Heap st.scopes) (hvalue : ∀ v, result = .ok v → v.isAtom = true)
    (hfault : ∀ problem, result = .error problem → D.fault (.eval problem)) :
    D.Obeyed (st.operate operands result) := by
  -- An event that is noted leaves the heap as it was.
  have hnoted : D.Heap (st.note (.operated operands)).scopes := hst
  cases result with
  | error problem => exact of_fault hnoted (hfault problem rfl)
  | ok v => exact of_value hnoted (D.atom (hvalue v rfl))

/-- A name gives the value stored for it or the fault of an unbound name. -/
theorem read (hst : D.Heap st.scopes) (i : ScopeId) (name : Name) : D.Obeyed (st.read i name) := by
  unfold State.read
  cases hv : st.scopes.lookup? i name with
  | none => exact of_fault hst (D.unbound name)
  | some v =>
    obtain ⟨_, -, hstored⟩ := Scopes.Every.lookup? hst hv
    exact of_value hst hstored

/-- An assignment stores the value or fails for want of a scope to store it in. -/
theorem write (hst : D.Heap st.scopes) (i : ScopeId) (name : Name) (hv : D.value v) :
    D.Obeyed (st.write i name v) := by
  unfold State.write
  cases st.scopes.target? i name with
  | none => exact of_fault hst (D.unbound name)
  | some o => exact of_value (Scopes.Every.define hst o name hv) hv

/-- A function of an admitted tree becomes an admitted closure. -/
theorem declare (hst : D.Heap st.scopes) (i : ScopeId) {name : Name} {parameters : List Name}
    {body : Block} (h : D.tree (.node (.func name parameters body))) :
    D.Obeyed (st.declare i ⟨name, parameters, body⟩) :=
  have hclosure := D.declared st.identities i h
  of_value (Scopes.Every.define hst i name hclosure) hclosure

/-- The reply of the host is admitted, and so is a fault that it raises. -/
theorem invoke (hst : D.Heap st.scopes) {arguments : List Value}
    (harguments : ∀ a ∈ arguments, D.value a) (name : Name) (f : HostFunction) :
    D.Obeyed (st.invoke w name f arguments) := by
  unfold State.invoke
  cases hreply : (w.host.call f w.sink arguments).result with
  | error g =>
    simp only [hreply]
    refine of_fault ?_ (D.raised harguments hreply)
    exact hst
  | ok v? =>
    cases v? with
    -- A function without a reply gives false.
    | none =>
      simp only [hreply]
      exact of_value hst (D.atom rfl)
    | some v =>
      simp only [hreply]
      exact of_value hst (D.replied harguments hreply)

end Obeyed

/-- The mark of a return makes no difference to a discipline. -/
theorem value_unwrap {v : Value} (h : D.value v) : D.value v.unwrap := by
  cases v with
  | returned u => exact D.returned.mp h
  | _ => exact h

/-- What a body hands on is the value of a `return`, or false. -/
theorem value_ofBody {v : Value} (h : D.value v) : D.value v.ofBody := by
  cases v with
  | returned u => exact D.returned.mp h
  | _ => exact D.atom rfl

/-! ## One step of the fuel -/

/-- Evaluations with the fuel `n` keep to the discipline. -/
structure Followed (n : Nat) : Prop where
  node : ∀ depth i node (st : State), D.tree (.node node) → D.Heap st.scopes →
    D.Obeyed (eval w n depth i node st)
  sequence : ∀ depth i ss last (st : State), D.tree (.each ss) → D.value last →
    D.Heap st.scopes → D.Obeyed (evalSequence w n depth i ss last st)
  tail : ∀ depth i tail (st : State), D.tree (.tail tail) → D.Heap st.scopes →
    D.Obeyed (evalTail w n depth i tail st)
  loop : ∀ depth i condition body last (st : State), D.tree (.node (.loop condition body)) →
    D.value last → D.Heap st.scopes →
    D.Obeyed (evalLoop w n depth i condition body last st)
  call : ∀ depth i f arguments done (st : State), D.tree (.each arguments) → D.value f →
    (∀ a ∈ done, D.value a) → D.Heap st.scopes →
    D.Obeyed (evalCall w n depth i f arguments done st)
  apply : ∀ depth f arguments (st : State), D.value f → (∀ a ∈ arguments, D.value a) →
    D.Heap st.scopes → D.Obeyed (Scriptlet.apply w n depth f arguments st)

namespace Followed

variable {D} {n : Nat}

theorem zero : D.Followed 0 := by
  refine ⟨?_, ?_, ?_, ?_, ?_, ?_⟩
  · intro depth i node st htree hst
    rw [eval]
    exact .of_starved hst
  · intro depth i ss last st htree hlast hst
    rw [evalSequence]
    exact .of_starved hst
  · intro depth i tail st htree hst
    rw [evalTail]
    exact .of_starved hst
  · intro depth i condition body last st htree hlast hst
    rw [evalLoop]
    exact .of_starved hst
  · intro depth i f arguments done st htree hf hdone hst
    rw [evalCall]
    exact .of_starved hst
  · intro depth f arguments st hf harguments hst
    rw [Scriptlet.apply]
    exact .of_starved hst

/-- A sequence of statements starts without a value, which is false. -/
theorem statements (h : D.Followed n) (depth : Nat) (i : ScopeId) {ss : List Node} {st : State}
    (htree : D.tree (.each ss)) (hst : D.Heap st.scopes) :
    D.Obeyed (evalSequence w n depth i ss (.bool false) st) :=
  h.sequence depth i ss _ st htree (D.atom rfl) hst

/-- Both operands are parts of the tree; only other operators than `and` and `or` can fail. -/
theorem binary_succ (ih : D.Followed n) (depth : Nat) (i : ScopeId) (op : BinaryOp)
    (left right : Node) (st : State) (htree : D.tree (.node (.binary op left right)))
    (hst : D.Heap st.scopes) : D.Obeyed (eval w (n + 1) depth i (.binary op left right) st) := by
  rw [eval]
  have hleft := ih.node depth i left st (D.child htree .left) hst
  refine hleft.andThen fun l st₁ hst₁ hl => ?_
  have hright := ih.node depth i right st₁ (D.child htree .right) hst₁
  cases op with
  | and =>
    show D.Obeyed (if l.isFalse then _ else _)
    split
    · exact .of_value hst₁ (D.atom rfl)
    · exact hright
  | or =>
    show D.Obeyed (if l.isFalse then _ else _)
    split
    · exact hright
    · exact .of_value hst₁ hl
  | _ =>
    refine hright.andThen fun r st₂ hst₂ _ => ?_
    refine .operate hst₂ (fun v hv => BinaryOp.isAtom_apply hv) fun problem hproblem => ?_
    exact D.binary htree (by simp) (by simp) hproblem

/-- A construct keeps to the discipline if its parts do, one case for each construct. -/
theorem node_succ (ih : D.Followed n) (depth : Nat) (i : ScopeId) (node : Node) (st : State)
    (htree : D.tree (.node node)) (hst : D.Heap st.scopes) :
    D.Obeyed (eval w (n + 1) depth i node st) := by
  cases node with
  | program statements =>
    rw [eval]
    exact (ih.statements depth i (D.child htree .program) hst).map fun _ hv => D.value_unwrap hv
  | block body =>
    rw [eval]
    exact ih.statements depth i (D.child htree .block) hst
  | int | float | str | bool =>
    rw [eval]
    exact .of_value hst (D.atom rfl)
  | ident name =>
    rw [eval]
    exact .read hst i name
  | unary op operand =>
    rw [eval]
    refine (ih.node depth i operand st (D.child htree .operand) hst).andThen fun v st₁ hst₁ _ => ?_
    exact .operate hst₁ (fun u hu => UnaryOp.isAtom_apply hu) fun _ hproblem =>
      D.unary htree hproblem
  | binary op left right => exact ih.binary_succ depth i op left right st htree hst
  | assign target value =>
    cases target with
    | ident name =>
      rw [eval]
      have hvalue := ih.node depth i value st (D.child htree .assigned) hst
      refine hvalue.andThen fun v st₁ hst₁ hv => ?_
      exact .write hst₁ i name hv
    | _ =>
      simp only [eval]
      -- Nothing but a name can be assigned to.
      exact .of_fault hst (D.unassignable htree (by simp))
  | call callee arguments =>
    rw [eval]
    refine (ih.node depth i callee st (D.child htree .callee) hst).andThen fun f st₁ hst₁ hf => ?_
    exact ih.call depth i f arguments [] st₁ (D.child htree .arguments) hf (by simp) hst₁
  | func name parameters body =>
    rw [eval]
    exact .declare hst i htree
  | branch condition body tail =>
    rw [eval]
    refine (ih.node depth i condition st (D.child htree .condition) hst).andThen
      fun c st₁ hst₁ _ => ?_
    cases c.isFalse with
    | true => exact ih.tail depth i tail st₁ (D.child htree .alternative) hst₁
    | false => exact ih.statements depth i (D.child htree .consequence) hst₁
  | otherwise body =>
    rw [eval]
    exact .of_fault hst (D.otherwise htree)
  | absent =>
    rw [eval]
    exact .of_fault hst (D.absent htree)
  | loop condition body =>
    rw [eval]
    exact ih.loop depth i condition body _ st htree (D.atom rfl) hst
  | ret value =>
    rw [eval]
    refine (ih.node depth i value st (D.child htree .returned) hst).andThen fun v st₁ hst₁ hv => ?_
    exact .of_value hst₁ (D.returned.mpr hv)

/-- The statements behind the first are a part of the sequence. -/
theorem sequence_succ (ih : D.Followed n) (depth : Nat) (i : ScopeId) (ss : List Node)
    (last : Value) (st : State) (htree : D.tree (.each ss)) (hlast : D.value last)
    (hst : D.Heap st.scopes) : D.Obeyed (evalSequence w (n + 1) depth i ss last st) := by
  cases ss with
  | nil =>
    rw [evalSequence]
    exact .of_value hst hlast
  | cons s ss =>
    rw [evalSequence]
    refine (ih.node depth i s st (D.child htree .head) hst).andThen fun v st₁ hst₁ hv => ?_
    exact ih.sequence depth i ss v st₁ (D.child htree .rest) hv hst₁

/-- Conditions and bodies are parts of the rest of a conditional. -/
theorem tail_succ (ih : D.Followed n) (depth : Nat) (i : ScopeId) (tail : Tail) (st : State)
    (htree : D.tree (.tail tail)) (hst : D.Heap st.scopes) :
    D.Obeyed (evalTail w (n + 1) depth i tail st) := by
  cases tail with
  | none =>
    rw [evalTail]
    exact .of_value hst (D.atom rfl)
  | «else» body =>
    rw [evalTail]
    exact ih.statements depth i (D.child htree .elseBody) hst
  | elif condition body rest =>
    rw [evalTail]
    refine (ih.node depth i condition st (D.child htree .elifCondition) hst).andThen
      fun c st₁ hst₁ _ => ?_
    cases c.isFalse with
    | true => exact ih.tail depth i rest st₁ (D.child htree .elifRest) hst₁
    | false => exact ih.statements depth i (D.child htree .elifBody) hst₁

/-- Condition and body are evaluated again in each round, from the same tree. -/
theorem loop_succ (ih : D.Followed n) (depth : Nat) (i : ScopeId) (condition : Node) (body : Block)
    (last : Value) (st : State) (htree : D.tree (.node (.loop condition body)))
    (hlast : D.value last) (hst : D.Heap st.scopes) :
    D.Obeyed (evalLoop w (n + 1) depth i condition body last st) := by
  rw [evalLoop]
  refine .check hst fun st₁ hst₁ => ?_
  have hround := ih.node depth i condition (st₁.note .looped) (D.child htree .loopCondition) hst₁
  refine hround.andThen fun c st₂ hst₂ _ => ?_
  cases c.isFalse with
  | true => exact .of_value hst₂ hlast
  | false =>
    refine (ih.statements depth i (D.child htree .loopBody) hst₂).andThen fun v st₃ hst₃ hv => ?_
    exact ih.loop depth i condition body v st₃ htree hv hst₃

/-- The values of the arguments are collected until the function is applied to them. -/
theorem call_succ (ih : D.Followed n) (depth : Nat) (i : ScopeId) (f : Value)
    (arguments : List Node) (done : List Value) (st : State) (htree : D.tree (.each arguments))
    (hf : D.value f) (hdone : ∀ a ∈ done, D.value a) (hst : D.Heap st.scopes) :
    D.Obeyed (evalCall w (n + 1) depth i f arguments done st) := by
  cases arguments with
  | nil =>
    rw [evalCall]
    exact ih.apply depth f done.reverse st hf (fun a ha => hdone a (List.mem_reverse.mp ha)) hst
  | cons a as =>
    rw [evalCall]
    refine (ih.node depth i a st (D.child htree .head) hst).andThen fun v st₁ hst₁ hv => ?_
    exact ih.call depth i f as (v :: done) st₁ (D.child htree .rest) hf
      (List.forall_mem_cons.mpr ⟨hv, hdone⟩) hst₁

/-- The body of a closure is admitted because the closure is, wherever it comes from. -/
theorem apply_succ (ih : D.Followed n) (depth : Nat) (f : Value) (arguments : List Value)
    (st : State) (hf : D.value f) (harguments : ∀ a ∈ arguments, D.value a)
    (hst : D.Heap st.scopes) : D.Obeyed (Scriptlet.apply w (n + 1) depth f arguments st) := by
  rw [Scriptlet.apply]
  refine .check hst fun st₁ hst₁ => ?_
  cases f with
  | closure identity function home =>
    show D.Obeyed (if 0 < w.maxCallDepth && w.maxCallDepth ≤ depth then _ else _)
    split
    · exact .of_fault hst₁ (D.tooDeep _ _)
    · -- Parameters without an argument are bound to false, which is an atom.
      have hentered : D.Heap (st₁.enter function home arguments (depth + 1)).2.scopes :=
        Scopes.Every.enter hst₁ home (D.atom rfl) function.parameters harguments
      have hbody := ih.statements (depth + 1)
        (st₁.enter function home arguments (depth + 1)).1 (D.entered hf) hentered
      exact hbody.map fun _ hv => D.value_ofBody hv
  | builtin identity name function => exact .invoke hst₁ harguments name function
  | _ => exact .of_fault hst₁ (D.notCallable _)

end Followed

/-- Every evaluation keeps to a discipline. -/
theorem followed (n : Nat) : D.Followed n := by
  induction n with
  | zero => exact .zero
  | succ n ih =>
    exact ⟨ih.node_succ, ih.sequence_succ, ih.tail_succ, ih.loop_succ, ih.call_succ,
      ih.apply_succ⟩

end Discipline

end Scriptlet
