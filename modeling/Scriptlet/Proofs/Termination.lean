/-
  Scriptlet.Proofs.Termination

  With a limit on the depth of calls only loops can go on forever. A tree without
  loops is gone through once, but the functions that it calls come out of the
  heap and out of the host, and may be stored, passed on and called again. So
  what has to be kept is that no loop is in reach: every value that is handed on
  or stored there is `Tame`, that is, its body has no loop and the scope of its
  declaration is in reach as well.

  Then the evaluation ends, by two inductions. Inside a number of calls where
  every application ends, every part of a tree without loops ends
  (`LoopFree.ends`); and applications end because the limit leaves room for fewer
  and fewer calls (`applications_end`).
-/
import Scriptlet.Proofs.Render.Proper
import Scriptlet.Proofs.Scope.WellFormed
import Scriptlet.Proofs.Visits

namespace Scriptlet

/-! ## Trees without loops -/

/-- There is no loop anywhere in a part of a tree, the bodies of its functions
    included. -/
inductive LoopFree : Part → Prop where
  | program {ss} (hss : LoopFree (.each ss)) : LoopFree (.node (.program ss))
  | body {b} (hb : LoopFree (.block b)) : LoopFree (.node (.block b))
  | int {n} : LoopFree (.node (.int n))
  | float {d} : LoopFree (.node (.float d))
  | str {s} : LoopFree (.node (.str s))
  | bool {b} : LoopFree (.node (.bool b))
  | ident {name} : LoopFree (.node (.ident name))
  | unary {op x} (hx : LoopFree (.node x)) : LoopFree (.node (.unary op x))
  | binary {op x y} (hx : LoopFree (.node x)) (hy : LoopFree (.node y)) :
      LoopFree (.node (.binary op x y))
  | assign {target x} (htarget : LoopFree (.node target)) (hx : LoopFree (.node x)) :
      LoopFree (.node (.assign target x))
  | call {callee xs} (hcallee : LoopFree (.node callee)) (hxs : LoopFree (.each xs)) :
      LoopFree (.node (.call callee xs))
  | func {name parameters b} (hb : LoopFree (.block b)) :
      LoopFree (.node (.func name parameters b))
  | branch {c b t} (hc : LoopFree (.node c)) (hb : LoopFree (.block b)) (ht : LoopFree (.tail t)) :
      LoopFree (.node (.branch c b t))
  | otherwise {b} (hb : LoopFree (.block b)) : LoopFree (.node (.otherwise b))
  | ret {x} (hx : LoopFree (.node x)) : LoopFree (.node (.ret x))
  | absent : LoopFree (.node .absent)
  | block {ss inline} (hss : LoopFree (.each ss)) : LoopFree (.block (.mk ss inline))
  | none : LoopFree (.tail .none)
  | elif {c b t} (hc : LoopFree (.node c)) (hb : LoopFree (.block b)) (ht : LoopFree (.tail t)) :
      LoopFree (.tail (.elif c b t))
  | else {b} (hb : LoopFree (.block b)) : LoopFree (.tail (.else b))
  | nil : LoopFree (.each [])
  | cons {x xs} (hx : LoopFree (.node x)) (hxs : LoopFree (.each xs)) : LoopFree (.each (x :: xs))

/-! ## Functions in reach -/

/-- The function that a value is, a return on its way out included. -/
def Value.function? : Value → Option Function
  | .closure _ function _ => some function
  | .returned v => v.function?
  | _ => none

/-- The scopes that an evaluation in the scope `i` can come to, if the host holds
    functions of the scopes `held`: those in use, and those made on the way. -/
def Scopes.InReach (s : Scopes) (i : ScopeId) (held : ScopeId → Prop) (j : ScopeId) : Prop :=
  s.size ≤ j ∨ ∃ k, (k = i ∨ held k) ∧ s.InUse k j

section Tame

variable (R : ScopeId → Prop)

/-- Calling the value does no more than it may: if it is a function, then its body
    has no loop and its scope is one of `R`. -/
structure Value.Tame (v : Value) : Prop where
  body : ∀ function, v.function? = some function → LoopFree (.block function.body)
  home : ∀ i, v.home? = some i → R i

/-- The scopes of `R` are closed and hold tame values, and every new scope will be
    one of them. -/
structure Scopes.Tame (s : Scopes) : Prop where
  fresh : ∀ i, s.size ≤ i → R i
  outer : ∀ i o, R i → s.outer? i = some o → R o
  stored : s.Every fun i v => R i → v.Tame R

/-- From tame arguments the functions of the host give back tame values. -/
def Host.Tame (h : Host) : Prop :=
  ∀ key sink arguments v, (∀ a ∈ arguments, Value.Tame R a) →
    (h.behave key sink arguments).result = .ok (some v) → v.Tame R

/-- A value or a fault, with a tame heap, and the value tame as well. -/
structure Result.Tame (r : Result) : Prop where
  ends : r.outcome ≠ .starved
  heap : r.state.scopes.Tame R
  value : ∀ v, r.outcome = .value v → v.Tame R

end Tame

variable {w : Setting} {R : ScopeId → Prop} {s : Scopes} {st : State} {i home : ScopeId}
  {name : Name} {v : Value} {r : Result}

namespace Value

/-- Atoms are no functions and refer to no scope, so they are tame. -/
theorem tame_atom (h : v.isAtom = true) : v.Tame R := by
  refine ⟨fun function hf => ?_, fun i hi => ?_⟩
  · cases v with
    | int | float | bool | str => cases hf
    | closure | builtin | returned => cases h
  · rw [Value.home?_atom h] at hi
    cases hi

/-- A closure is tame if its body has no loop and its scope is one of `R`. -/
theorem tame_closure {identity : Nat} {function : Function}
    (hbody : LoopFree (.block function.body)) (hhome : R home) :
    (Value.closure identity function home).Tame R := by
  refine ⟨fun f hf => ?_, fun i hi => ?_⟩
  · cases hf
    exact hbody
  · cases hi
    exact hhome

theorem Tame.returned (h : v.Tame R) : (Value.returned v).Tame R := ⟨h.body, h.home⟩

theorem Tame.unwrap (h : v.Tame R) : v.unwrap.Tame R := by
  cases v with
  | returned u => exact ⟨h.body, h.home⟩
  | _ => exact h

/-- What a call hands on is as tame as what its body gave. -/
theorem Tame.ofBody (h : v.Tame R) : (Value.ofBody v).Tame R := by
  cases v with
  | returned u => exact h.unwrap
  | _ => exact tame_atom rfl

end Value

/-! ## Operations on tame heaps -/

namespace Scopes.Tame

/-- A tame value can be stored in any scope. -/
theorem define (h : s.Tame R) (i : ScopeId) (name : Name) (hv : v.Tame R) :
    (s.define i name v).Tame R where
  fresh j hj := by
    rw [size_define] at hj
    exact h.fresh j hj
  outer j o hj houter := by
    rw [outer?_define] at houter
    exact h.outer j o hj houter
  stored := h.stored.define i name fun _ => hv

/-- A call in a scope of `R` with tame arguments leaves a tame heap. -/
theorem enter (h : s.Tame R) (hhome : R home) (ps : List Name) {as : List Value}
    (has : ∀ a ∈ as, Value.Tame R a) : (s.enter home ps as).2.Tame R where
  fresh j hj := by
    rw [size_enter] at hj
    -- The new scope was fresh before, so it is one of `R` already.
    exact h.fresh j (by omega)
  outer j o hj houter := by
    have hlt := lt_size_of_outer? houter
    rw [size_enter] at hlt
    rcases Nat.lt_succ_iff_lt_or_eq.mp hlt with hold | rfl
    · rw [outer?_enter_of_lt s home ps as hold] at houter
      exact h.outer j o hj houter
    · -- The new scope stands inside that of the function.
      rw [outer?_enter_size, Option.some.injEq] at houter
      rw [← houter]
      exact hhome
  stored := h.stored.enter home (fun _ => Value.tame_atom rfl) ps fun a ha _ => has a ha

/-- With a scope all scopes around it are in `R`. -/
theorem of_mem_chainFrom (h : s.Tame R) {n : Nat} {o : ScopeId} (hi : R i)
    (ho : o ∈ s.chainFrom n i) : R o := by
  induction n generalizing i with
  | zero => cases ho
  | succ n ih =>
    cases hscope : s.get? i with
    | none =>
      simp only [chainFrom, hscope] at ho
      cases ho
    | some scope =>
      cases houter : scope.outer with
      | none =>
        simp only [chainFrom, hscope, houter, List.mem_singleton] at ho
        rw [ho]
        exact hi
      | some o' =>
        simp only [chainFrom, hscope, houter, List.mem_cons] at ho
        rcases ho with rfl | hrest
        · exact hi
        · refine ih (h.outer i o' hi ?_) hrest
          simp [outer?, hscope, houter]

/-- What is read in a scope of `R` is tame. -/
theorem lookup? (h : s.Tame R) (hi : R i) (hv : s.lookup? i name = some v) : v.Tame R := by
  obtain ⟨o, ho, hstored⟩ := h.stored.lookup? hv
  exact hstored (h.of_mem_chainFrom hi ho)

end Scopes.Tame

/-- What a function of the host gives back is tame. -/
theorem Host.Tame.call {h : Host} (hhost : h.Tame R) {f : HostFunction} {sink : Sink}
    {arguments : List Value} (harguments : ∀ a ∈ arguments, Value.Tame R a)
    (hv : (h.call f sink arguments).result = .ok (some v)) : v.Tame R := by
  -- The functions that come with the interpreter give back atoms.
  rcases Host.call_value hv with hatom | ⟨key, hkey⟩
  · exact Value.tame_atom hatom
  · exact hhost key sink arguments v harguments hkey

namespace Result.Tame

theorem of_value (hst : st.scopes.Tame R) (hv : v.Tame R) : Result.Tame R ⟨.value v, st⟩ where
  ends := nofun
  heap := hst
  value u hu := by
    cases hu
    exact hv

theorem of_fault (hst : st.scopes.Tame R) (f : Fault) : Result.Tame R ⟨.fault f, st⟩ where
  ends := nofun
  heap := hst
  value := nofun

/-- A name of a scope in reach gives a tame value or a fault. -/
theorem read (hst : st.scopes.Tame R) (hi : R i) (name : Name) :
    (st.read i name).Tame R := by
  unfold State.read
  cases hv : st.scopes.lookup? i name with
  | none => exact of_fault hst _
  | some v => exact of_value hst (hst.lookup? hi hv)

theorem write (hst : st.scopes.Tame R) (hv : v.Tame R) (i : ScopeId) (name : Name) :
    (st.write i name v).Tame R := by
  unfold State.write
  cases st.scopes.target? i name with
  | none => exact of_fault hst _
  | some o => exact of_value (hst.define o name hv) hv

/-- A function without loops becomes a tame closure. -/
theorem declare (hst : st.scopes.Tame R) (hi : R i) {function : Function}
    (hbody : LoopFree (.block function.body)) : (st.declare i function).Tame R :=
  have hclosure := Value.tame_closure hbody hi
  of_value (hst.define i function.name hclosure) hclosure

theorem operate (hst : st.scopes.Tame R) (operands : List Value)
    {result : Except EvalProblem Value} (hresult : ∀ v, result = .ok v → v.isAtom = true) :
    (st.operate operands result).Tame R := by
  have hnoted : (st.note (.operated operands)).scopes.Tame R := hst
  cases result with
  | error problem => exact of_fault hnoted _
  | ok v => exact of_value hnoted (Value.tame_atom (hresult v rfl))

/-- A call of the host ends at once, with a tame value or a fault. -/
theorem invoke (hhost : w.host.Tame R) (hst : st.scopes.Tame R) {arguments : List Value}
    (harguments : ∀ a ∈ arguments, Value.Tame R a) (name : Name) (f : HostFunction) :
    (st.invoke w name f arguments).Tame R where
  ends := by
    unfold State.invoke
    cases h : (w.host.call f w.sink arguments).result with
    | error fault => simp only [h]; nofun
    | ok v? => cases v? <;> simp only [h] <;> nofun
  heap := by
    rw [State.invoke_state]
    exact hst
  value v hv := by
    rcases State.invoke_value hv with rfl | hresult
    · exact Value.tame_atom rfl
    · exact hhost.call harguments hresult

end Result.Tame

/-! ## Computations that end -/

/-- From some amount of fuel on, the computation gives one tame result. -/
def Ends (R : ScopeId → Prop) (run : Nat → Result) : Prop := ∃ r, Settles run r ∧ r.Tame R

namespace Ends

variable {run : Nat → Result}

theorem of_tame (h : r.Tame R) : Ends R fun _ => r := ⟨r, ⟨0, fun _ _ => rfl⟩, h⟩

/-- One unit of fuel goes to the construct. -/
theorem of_succ (h : Ends R fun n => run (n + 1)) : Ends R run := by
  obtain ⟨r, hsettles, htame⟩ := h
  exact ⟨r, hsettles.of_succ, htame⟩

/-- Two computations end one after the other. -/
theorem andThen {go : Nat → Value → State → Result} (h : Ends R run)
    (hgo : ∀ v st, v.Tame R → st.scopes.Tame R → Ends R fun n => go n v st) :
    Ends R fun n => (run n).andThen (go n) := by
  obtain ⟨r, hsettles, htame⟩ := h
  cases hr : r.goesOn with
  | false =>
    refine ⟨r, hsettles.map fun n hn => ?_, htame⟩
    rw [hn, Result.andThen_of_not_goesOn hr]
  -- Fuel for both is enough for the whole.
  | true =>
    obtain ⟨v, hv, hvalue⟩ := Result.exists_of_goesOn hr
    have hvtame : v.Tame R := htame.value v (by rw [hvalue])
    obtain ⟨r', hrest, htame'⟩ := hgo v r.state hvtame htame.heap
    refine ⟨r', hsettles.map₂ hrest fun n hn hn' => ?_, htame'⟩
    rw [hn, hvalue, Result.andThen_value hv, hn']

theorem map {f : Value → Value} (h : Ends R run) (hf : ∀ {v}, Value.Tame R v → (f v).Tame R) :
    Ends R fun n => (run n).map f := by
  obtain ⟨r, hsettles, htame⟩ := h
  refine ⟨r.map f, hsettles.map fun n hn => by rw [hn], ?_⟩
  obtain ⟨outcome, st⟩ := r
  cases outcome with
  | value v => exact .of_value htame.heap (hf (htame.value v rfl))
  | fault g => exact .of_fault htame.heap g
  | starved => exact absurd rfl htame.ends

end Ends

/-- Inside `depth` calls, every application of a tame function ends. -/
def Applies (w : Setting) (R : ScopeId → Prop) (depth : Nat) : Prop :=
  ∀ f arguments st, Value.Tame R f → (∀ a ∈ arguments, Value.Tame R a) → st.scopes.Tame R →
    Ends R fun n => apply w n depth f arguments st

/-- Inside `depth` calls, evaluating a part of a tree ends. Nodes in a row may be
    statements or the arguments of a call. -/
def Part.Ends (w : Setting) (R : ScopeId → Prop) (depth : Nat) : Part → Prop
  | .node x => ∀ i st, R i → st.scopes.Tame R → Scriptlet.Ends R fun n => eval w n depth i x st
  | .block b => ∀ i st, R i → st.scopes.Tame R →
      Scriptlet.Ends R fun n => evalSequence w n depth i b.statements (.bool false) st
  | .tail t => ∀ i st, R i → st.scopes.Tame R → Scriptlet.Ends R fun n => evalTail w n depth i t st
  | .each xs =>
      (∀ i last st, R i → last.Tame R → st.scopes.Tame R →
        Scriptlet.Ends R fun n => evalSequence w n depth i xs last st) ∧
      ∀ i f done st, R i → f.Tame R → (∀ a ∈ done, Value.Tame R a) → st.scopes.Tame R →
        Scriptlet.Ends R fun n => evalCall w n depth i f xs done st

/-! ## Trees without loops end -/

section Parts

variable {depth : Nat}

/-- One unit of fuel goes to a node, the rest to its parts. -/
theorem Part.ends_node {x : Node} (h : ∀ i st, R i → st.scopes.Tame R →
    Scriptlet.Ends R fun n => eval w (n + 1) depth i x st) : Part.Ends w R depth (.node x) :=
  fun i st hi hst => .of_succ (h i st hi hst)

theorem Part.ends_tail {t : Tail} (h : ∀ i st, R i → st.scopes.Tame R →
    Scriptlet.Ends R fun n => evalTail w (n + 1) depth i t st) : Part.Ends w R depth (.tail t) :=
  fun i st hi hst => .of_succ (h i st hi hst)

theorem ends_unary {op : UnaryOp} {x : Node} (hx : Part.Ends w R depth (.node x)) :
    Part.Ends w R depth (.node (.unary op x)) := by
  refine Part.ends_node fun i st hi hst => ?_
  simp only [eval]
  refine (hx i st hi hst).andThen fun v st₁ hv hst₁ => ?_
  exact .of_tame (.operate hst₁ _ fun u hu => UnaryOp.isAtom_apply hu)

/-- The second operand may not be evaluated, and then the value of the first decides. -/
theorem ends_binary {op : BinaryOp} {x y : Node} (hx : Part.Ends w R depth (.node x))
    (hy : Part.Ends w R depth (.node y)) : Part.Ends w R depth (.node (.binary op x y)) := by
  refine Part.ends_node fun i st hi hst => ?_
  cases op with
  | and =>
    simp only [eval]
    refine (hx i st hi hst).andThen fun l st₁ hl hst₁ => ?_
    cases l.isFalse with
    | true => exact .of_tame (.of_value hst₁ (Value.tame_atom rfl))
    | false => exact hy i st₁ hi hst₁
  | or =>
    simp only [eval]
    refine (hx i st hi hst).andThen fun l st₁ hl hst₁ => ?_
    cases l.isFalse with
    | true => exact hy i st₁ hi hst₁
    | false => exact .of_tame (.of_value hst₁ hl)
  | _ =>
    simp only [eval]
    refine (hx i st hi hst).andThen fun l st₁ hl hst₁ => ?_
    refine (hy i st₁ hi hst₁).andThen fun r st₂ hr hst₂ => ?_
    exact .of_tame (.operate hst₂ _ fun u hu => BinaryOp.isAtom_apply hu)

theorem ends_assign {target x : Node} (hx : Part.Ends w R depth (.node x)) :
    Part.Ends w R depth (.node (.assign target x)) := by
  refine Part.ends_node fun i st hi hst => ?_
  cases target with
  | ident name =>
    simp only [eval]
    refine (hx i st hi hst).andThen fun v st₁ hv hst₁ => ?_
    exact .of_tame (.write hst₁ hv i name)
  | _ =>
    simp only [eval]
    exact .of_tame (.of_fault hst _)

/-- The callee comes first, then the arguments with the application behind them. -/
theorem ends_call {callee : Node} {xs : List Node} (hcallee : Part.Ends w R depth (.node callee))
    (hxs : Part.Ends w R depth (.each xs)) : Part.Ends w R depth (.node (.call callee xs)) := by
  refine Part.ends_node fun i st hi hst => ?_
  simp only [eval]
  refine (hcallee i st hi hst).andThen fun f st₁ hf hst₁ => ?_
  exact hxs.2 i f [] st₁ hi hf (List.forall_mem_nil _) hst₁

/-- A condition, and then the body or what stands behind it. -/
theorem ends_chosen {c : Node} {b : Block} {t : Tail} (hc : Part.Ends w R depth (.node c))
    (hb : Part.Ends w R depth (.block b)) (ht : Part.Ends w R depth (.tail t)) {i : ScopeId}
    (hi : R i) (hst : st.scopes.Tame R) :
    Ends R fun n => (eval w n depth i c st).andThen fun v st₁ =>
      if v.isFalse then evalTail w n depth i t st₁
      else evalSequence w n depth i b.statements (.bool false) st₁ := by
  refine (hc i st hi hst).andThen fun v st₁ hv hst₁ => ?_
  cases v.isFalse with
  | true => exact ht i st₁ hi hst₁
  | false => exact hb i st₁ hi hst₁

theorem ends_branch {c : Node} {b : Block} {t : Tail} (hc : Part.Ends w R depth (.node c))
    (hb : Part.Ends w R depth (.block b)) (ht : Part.Ends w R depth (.tail t)) :
    Part.Ends w R depth (.node (.branch c b t)) := by
  refine Part.ends_node fun i st hi hst => ?_
  simp only [eval]
  exact ends_chosen hc hb ht hi hst

theorem ends_elif {c : Node} {b : Block} {t : Tail} (hc : Part.Ends w R depth (.node c))
    (hb : Part.Ends w R depth (.block b)) (ht : Part.Ends w R depth (.tail t)) :
    Part.Ends w R depth (.tail (.elif c b t)) := by
  refine Part.ends_tail fun i st hi hst => ?_
  simp only [evalTail]
  exact ends_chosen hc hb ht hi hst

/-- A return marks the value, which stays tame. -/
theorem ends_ret {x : Node} (hx : Part.Ends w R depth (.node x)) :
    Part.Ends w R depth (.node (.ret x)) := by
  refine Part.ends_node fun i st hi hst => ?_
  simp only [eval]
  refine (hx i st hi hst).andThen fun v st₁ hv hst₁ => ?_
  exact .of_tame (.of_value hst₁ hv.returned)

/-- No node is left: the statements are done, or the function is applied. -/
theorem ends_nil (happly : Applies w R depth) : Part.Ends w R depth (.each []) := by
  refine ⟨fun i last st hi hlast hst => ?_, fun i f done st hi hf hdone hst => ?_⟩
  · refine .of_succ ?_
    simp only [evalSequence]
    exact .of_tame (.of_value hst hlast)
  · refine .of_succ ?_
    simp only [evalCall]
    exact happly f done.reverse st hf (fun a ha => hdone a (List.mem_reverse.mp ha)) hst

/-- Nodes in a row as statements, and as the arguments of a call. -/
theorem ends_cons {x : Node} {xs : List Node} (hx : Part.Ends w R depth (.node x))
    (hxs : Part.Ends w R depth (.each xs)) : Part.Ends w R depth (.each (x :: xs)) := by
  refine ⟨fun i last st hi hlast hst => ?_, fun i f done st hi hf hdone hst => ?_⟩
  · refine .of_succ ?_
    simp only [evalSequence]
    exact (hx i st hi hst).andThen fun v st₁ hv hst₁ => hxs.1 i v st₁ hi hv hst₁
  · refine .of_succ ?_
    simp only [evalCall]
    refine (hx i st hi hst).andThen fun v st₁ hv hst₁ => ?_
    exact hxs.2 i f (v :: done) st₁ hi hf (List.forall_mem_cons.mpr ⟨hv, hdone⟩) hst₁

/-- Inside a number of calls where every application ends, every part of a tree
    without loops ends. -/
theorem LoopFree.ends {p : Part} (h : LoopFree p) (happly : Applies w R depth) :
    p.Ends w R depth := by
  -- One case for each construct; there is none for loops.
  induction h with
  | program _ ih =>
    refine Part.ends_node fun i st hi hst => ?_
    simp only [eval]
    exact (ih.1 i _ st hi (Value.tame_atom rfl) hst).map Value.Tame.unwrap
  | body _ ih =>
    refine Part.ends_node fun i st hi hst => ?_
    simp only [eval]
    exact ih i st hi hst
  | int | float | str | bool =>
    refine Part.ends_node fun i st hi hst => ?_
    simp only [eval]
    exact .of_tame (.of_value hst (Value.tame_atom rfl))
  | otherwise | absent =>
    refine Part.ends_node fun i st hi hst => ?_
    simp only [eval]
    exact .of_tame (.of_fault hst _)
  | @ident name =>
    refine Part.ends_node fun i st hi hst => ?_
    simp only [eval]
    exact .of_tame (.read hst hi name)
  | unary _ ih => exact ends_unary ih
  | binary _ _ ihx ihy => exact ends_binary ihx ihy
  | assign _ _ _ ih => exact ends_assign ih
  | call _ _ ihcallee ihxs => exact ends_call ihcallee ihxs
  -- Declaring a function does not evaluate its body.
  | func hb _ =>
    refine Part.ends_node fun i st hi hst => ?_
    simp only [eval]
    exact .of_tame (.declare hst hi hb)
  | branch _ _ _ ihc ihb iht => exact ends_branch ihc ihb iht
  | ret _ ih => exact ends_ret ih
  | block _ ih =>
    intro i st hi hst
    exact ih.1 i _ st hi (Value.tame_atom rfl) hst
  | none =>
    refine Part.ends_tail fun i st hi hst => ?_
    simp only [evalTail]
    exact .of_tame (.of_value hst (Value.tame_atom rfl))
  | elif _ _ _ ihc ihb iht => exact ends_elif ihc ihb iht
  | «else» _ ih =>
    refine Part.ends_tail fun i st hi hst => ?_
    simp only [evalTail]
    exact ih i st hi hst
  | nil => exact ends_nil happly
  | cons _ _ ihx ihxs => exact ends_cons ihx ihxs

end Parts

/-! ## Applications end -/

/-- Applications inside `depth` calls end if those inside one more do, or if the
    limit does not leave room for one more. -/
theorem applies_of_room (hhost : w.host.Tame R) {depth : Nat}
    (hdeeper : ¬ (0 < w.maxCallDepth ∧ w.maxCallDepth ≤ depth) → Applies w R (depth + 1)) :
    Applies w R depth := by
  intro f arguments st hf harguments hst
  let checked : State := { st with checks := st.checks + 1 }
  have hchecked : checked.scopes.Tame R := hst
  refine .of_succ ?_
  -- The limit or the context stops the call, or there is room for it.
  cases hverdict : w.verdict (.application depth f arguments st) with
  | some g =>
    simp only [apply_of_stop hverdict]
    exact .of_tame (.of_fault hchecked g)
  | none =>
    simp only [apply_of_go hverdict]
    cases f with
    | closure identity function home =>
      have hroom := (Setting.verdict_application_eq_none.mp hverdict).2
      rw [Setting.refusal_eq_none_iff] at hroom
      let called := checked.enter function home arguments (depth + 1)
      have hscope : R called.1 := hst.fresh _ (Nat.le_refl _)
      have hentered : called.2.scopes.Tame R :=
        hst.enter (hf.home home rfl) function.parameters harguments
      -- The body is a tree without loops, one call deeper.
      have hbody : LoopFree (.block function.body) := hf.body function rfl
      have hends := hbody.ends (hdeeper hroom) called.1 called.2 hscope hentered
      exact hends.map Value.Tame.ofBody
    | builtin identity name function =>
      exact .of_tame (.invoke hhost hchecked harguments name function)
    | _ => exact .of_tame (.of_fault hchecked _)

/-- With a limit on calls, every application of a tame function ends. -/
theorem applications_end (hlimit : 0 < w.maxCallDepth) (hhost : w.host.Tame R) (depth : Nat) :
    Applies w R depth := by
  -- The induction is on the number of calls that there is still room for.
  induction hroom : (w.maxCallDepth - depth).toNat generalizing depth with
  | zero => exact applies_of_room hhost fun hfree => by omega
  | succ room ih => exact applies_of_room hhost fun hfree => ih (depth + 1) (by omega)

/-! ## Only loops go on forever -/

/-- What is in reach is closed, so it is enough that the functions stored there
    have no loop. -/
theorem Scopes.tame_inReach {held : ScopeId → Prop}
    (hstored : s.Every fun j v => s.InReach i held j →
      ∀ function, v.function? = some function → LoopFree (.block function.body)) :
    s.Tame (s.InReach i held) where
  fresh j hj := .inl hj
  outer j o hj houter := by
    rcases hj with hnew | ⟨k, hk, huse⟩
    · exact absurd (lt_size_of_outer? houter) (Nat.not_lt_of_le hnew)
    · exact .inr ⟨k, hk, huse.outer houter⟩
  stored j scope hscope b hb hj := by
    refine ⟨hstored j scope hscope b hb hj, fun home hhome => ?_⟩
    rcases hj with hnew | ⟨k, hk, huse⟩
    · exact absurd (lt_size_of_get? hscope) (Nat.not_lt_of_le hnew)
    · exact .inr ⟨k, hk, huse.stored hscope hb hhome⟩

/-- With a limit on the depth of calls, every tree without loops is evaluated to a
    value or a fault if no function in reach has a loop either, neither one that
    is stored in a scope nor one that the host gives back. There is an amount of
    fuel that is enough, and more of it makes no difference. -/
theorem loopFree_ends (hlimit : 0 < w.maxCallDepth) {node : Node} (hnode : LoopFree (.node node))
    {held : ScopeId → Prop}
    (hstored : st.scopes.Every fun j v => st.scopes.InReach i held j →
      ∀ function, v.function? = some function → LoopFree (.block function.body))
    (hhost : w.host.Tame (st.scopes.InReach i held)) (depth : Nat) :
    ∃ r bound, (∀ fuel, bound ≤ fuel → eval w fuel depth i node st = r) ∧
      ((∃ v, r.outcome = .value v) ∨ ∃ f, r.outcome = .fault f) := by
  have happly := applications_end hlimit hhost depth
  have hscope : st.scopes.InReach i held i := .inr ⟨i, .inl rfl, .self⟩
  -- What is in reach of the scope `i` stays tame.
  obtain ⟨r, ⟨bound, hbound⟩, htame⟩ :=
    hnode.ends happly i st hscope (Scopes.tame_inReach hstored)
  refine ⟨r, bound, hbound, ?_⟩
  cases hr : r.outcome with
  | value v => exact .inl ⟨v, rfl⟩
  | fault f => exact .inr ⟨f, rfl⟩
  | starved => exact absurd hr htame.ends

/-- A function that gets itself back from the host and calls it, again and again,
    is stopped by the limit. -/
theorem loopFree_ends_again :
    let host : Host := ⟨fun _ _ arguments => ⟨[], .ok arguments.head?⟩, .steady⟩
    let w : Setting := ⟨host, .open, .background, 2⟩
    let same : Value := .builtin 0 (text "same") (.custom (text "same"))
    let again : Node := .func (text "again") []
      (.mk [.call (.call (.ident (text "same")) [.ident (text "again")]) []] true)
    let node : Node := .program [again, .call (.ident (text "again")) []]
    let st : State := ⟨(Scopes.empty.push none).2.define 0 (text "same") same, 1, 0, [], []⟩
    ∃ bound, ∀ fuel, bound ≤ fuel → (eval w fuel 0 0 node st).outcome =
      .fault (.eval (.tooDeep 2 (text "again"))) := by
  intro host w same again node st
  have hnode : LoopFree (.node node) :=
    .program (.cons (.func (.block (.cons (.call (.call .ident (.cons .ident .nil)) .nil) .nil)))
      (.cons (.call .ident .nil) .nil))
  have hstored : st.scopes.Every fun j v => st.scopes.InReach 0 (fun _ => False) j →
      ∀ function, v.function? = some function → LoopFree (.block function.body) :=
    Scopes.every_root.define 0 (text "same") fun _ _ hf => by cases hf
  have hhost : w.host.Tame (st.scopes.InReach 0 fun _ => False) := by
    intro key sink arguments v harguments hv
    have hfirst : arguments.head? = some v := Except.ok.inj hv
    exact harguments v (List.mem_of_head? hfirst)
  have hlimit : 0 < w.maxCallDepth := by decide
  obtain ⟨r, bound, hbound, -⟩ := loopFree_ends hlimit hnode hstored hhost 0
  refine ⟨bound, fun fuel hle => ?_⟩
  have hfault : (eval w 30 0 0 node st).outcome = .fault (.eval (.tooDeep 2 (text "again"))) := by
    with_unfolding_all rfl
  have hends : (eval w 30 0 0 node st).outcome ≠ .starved := by simp [hfault]
  -- Fuel for both, so that the results are the same one.
  have hsame : eval w (max bound 30) 0 0 node st = eval w 30 0 0 node st :=
    eval_of_le (Nat.le_max_right bound 30) rfl hends
  rw [hbound fuel hle, ← hbound (max bound 30) (Nat.le_max_left bound 30), hsame, hfault]

end Scriptlet
