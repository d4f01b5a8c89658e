/-
  Scriptlet.Proofs.Interruption

  Evaluations whose context is done before they start. Every check finds the
  interruption, so no function is entered or called and no round of a loop
  starts: an evaluation only goes through its tree (`Idles`), and fuel for the
  size of the tree is enough for it. It stops with the interruption at the first
  point where it arrives, and if there is none, then the context makes no
  difference (`doneContext_stops`).
-/
import Scriptlet.Proofs.Visits

namespace Scriptlet

/-! ## Contexts that are done -/

/-- Every check finds the interruption. -/
def Context.Done (c : Context) (k : Interrupt) : Prop := ∀ n, c.status n = some k

/-- A timeout does not replace an interruption that is there already. -/
theorem Context.Done.withTimeout {c : Context} {k : Interrupt} (h : c.Done k) (clock : Clock)
    (timeout : Int) : (c.withTimeout clock timeout).Done k := by
  intro n
  unfold Context.withTimeout
  split
  · exact h n
  · simp only [h n]

/-- In a context that is done every point is one where the evaluation stops. -/
theorem Setting.verdict_of_done {w : Setting} {k : Interrupt} (hdone : w.context.Done k)
    (p : Point) : w.verdict p = some (.interrupted k) := by
  cases p with
  | round depth st =>
    show (w.context.status st.checks).map Fault.interrupted = some (.interrupted k)
    rw [hdone st.checks]
    rfl
  | application depth f arguments st => simp only [verdict, hdone st.checks]

/-! ## Sizes of trees -/

mutual

/-- The number of constructs in a tree, with one for the end of every list. -/
def Node.size : Node → Nat
  | .program statements => 1 + sizeEach statements
  | .block body => 1 + body.size
  | .unary _ operand => 1 + operand.size
  | .binary _ left right => 1 + left.size + right.size
  | .assign target value => 1 + target.size + value.size
  | .call callee arguments => 1 + callee.size + sizeEach arguments
  | .func _ _ body => 1 + body.size
  | .branch condition body tail => 1 + condition.size + body.size + tail.size
  | .otherwise body => 1 + body.size
  | .loop condition body => 1 + condition.size + body.size
  | .ret value => 1 + value.size
  | .int _ | .float _ | .str _ | .bool _ | .ident _ | .absent => 1

def Block.size : Block → Nat
  | .mk statements _ => 1 + sizeEach statements

def Tail.size : Tail → Nat
  | .none => 1
  | .elif condition body tail => 1 + condition.size + body.size + tail.size
  | .else body => 1 + body.size

def sizeEach : List Node → Nat
  | [] => 1
  | node :: nodes => 1 + node.size + sizeEach nodes

end

theorem Node.size_pos (node : Node) : 0 < node.size := by
  cases node <;> rw [Node.size] <;> omega

theorem Tail.size_pos (tail : Tail) : 0 < tail.size := by
  cases tail <;> rw [Tail.size] <;> omega

/-- The statements of a block are less than the block, so fuel for it is enough for them. -/
theorem Block.sizeEach_statements_lt (body : Block) : sizeEach body.statements < body.size := by
  obtain ⟨ss, inline⟩ := body
  show sizeEach ss < Block.size (.mk ss inline)
  rw [Block.size]
  omega

theorem sizeEach_pos (nodes : List Node) : 0 < sizeEach nodes := by
  cases nodes <;> rw [sizeEach] <;> omega

/-! ## Evaluations that only go through their tree -/

/-- Whether an event is neither the entry into a function nor a call of the host
    nor a round of a loop. -/
def Event.isIdle : Event → Bool
  | .declared _ _ | .assigned _ _ _ | .operated _ => true
  | .entered _ _ _ _ | .invoked _ _ | .looped => false

/-- `r` is a result from the state `st` on, and on the way to it nothing was
    written, entered, called or repeated. -/
structure Idle (st : State) (r : Result) : Prop where
  ends : r.outcome ≠ .starved
  written : r.state.written = st.written
  events : ∃ new, r.state.events = new ++ st.events ∧ ∀ e ∈ new, e.isIdle = true

namespace Idle

variable {st : State} {r : Result}

theorem of_value (v : Value) : Idle st ⟨.value v, st⟩ := ⟨nofun, rfl, [], rfl, nofun⟩

theorem of_fault (f : Fault) : Idle st ⟨.fault f, st⟩ := ⟨nofun, rfl, [], rfl, nofun⟩

theorem of_note {e : Event} (he : e.isIdle = true) (hends : r.outcome ≠ .starved)
    (hwritten : r.state.written = st.written) (hevents : r.state.events = e :: st.events) :
    Idle st r :=
  ⟨hends, hwritten, [e], hevents, fun e' he' => by rwa [List.mem_singleton.mp he']⟩

/-- Idle steps follow each other: the events of the second stand in front of those of the first.
-/
theorem trans {st' : State} (h : Idle st' r) (hwritten : st'.written = st.written)
    (hevents : ∃ new, st'.events = new ++ st.events ∧ ∀ e ∈ new, e.isIdle = true) :
    Idle st r := by
  obtain ⟨first, hfirst, hidle⟩ := hevents
  obtain ⟨second, hsecond, hidle'⟩ := h.events
  refine ⟨h.ends, h.written.trans hwritten, second ++ first, ?_, ?_⟩
  · rw [hsecond, hfirst, List.append_assoc]
  · intro e he
    rcases List.mem_append.mp he with hlate | hearly
    · exact hidle' e hlate
    · exact hidle e hearly

/-- Two steps are idle if the first is, and the second from wherever it starts. -/
theorem andThen {go : Value → State → Result} (h : Idle st r)
    (hgo : ∀ v st', Idle st' (go v st')) : Idle st (r.andThen go) := by
  cases hr : r.goesOn with
  -- What does not go on is the result of the whole.
  | false =>
    rw [Result.andThen_of_not_goesOn hr]
    exact h
  | true =>
    obtain ⟨v, hv, hvalue⟩ := Result.exists_of_goesOn hr
    rw [hvalue, Result.andThen_value hv]
    exact (hgo v r.state).trans h.written h.events

theorem map {f : Value → Value} (h : Idle st r) : Idle st (r.map f) where
  ends hstarved := h.ends (Result.map_starved.mp hstarved)
  written := by rw [Result.map_state, h.written]
  events := by
    rw [Result.map_state]
    exact h.events

theorem operate (operands : List Value) (result : Except EvalProblem Value) :
    Idle st (st.operate operands result) := by
  cases result <;> exact .of_note (e := .operated operands) rfl nofun rfl rfl

theorem read (scope : ScopeId) (name : Name) : Idle st (st.read scope name) := by
  unfold State.read
  cases st.scopes.lookup? scope name with
  | none => exact .of_fault _
  | some v => exact .of_value v

theorem write (scope : ScopeId) (name : Name) (v : Value) : Idle st (st.write scope name v) := by
  unfold State.write
  cases st.scopes.target? scope name with
  | none => exact .of_fault _
  | some o => exact .of_note (e := .assigned o name v) rfl nofun rfl rfl

theorem declare (scope : ScopeId) (f : Function) : Idle st (st.declare scope f) :=
  .of_note (e := .declared scope f) rfl nofun rfl rfl

end Idle

/-- Evaluations with fuel for the size of their tree only go through it. -/
structure Idles (w : Setting) (n : Nat) : Prop where
  node : ∀ depth scope node st, node.size ≤ n → Idle st (eval w n depth scope node st)
  sequence : ∀ depth scope ss last st, sizeEach ss ≤ n →
    Idle st (evalSequence w n depth scope ss last st)
  tail : ∀ depth scope tail st, tail.size ≤ n →
    Idle st (evalTail w n depth scope tail st)
  loop : ∀ depth scope condition body last st, 0 < n →
    Idle st (evalLoop w n depth scope condition body last st)
  call : ∀ depth scope f arguments done st, sizeEach arguments < n →
    Idle st (evalCall w n depth scope f arguments done st)
  apply : ∀ depth f arguments st, 0 < n → Idle st (Scriptlet.apply w n depth f arguments st)

namespace Idles

variable {w : Setting} {k : Interrupt} {n : Nat}

/-- Every size is positive, so without fuel there is nothing to show. -/
theorem zero : Idles w 0 := by
  refine ⟨?_, ?_, ?_, ?_, ?_, ?_⟩
  · intro depth scope node st hsize
    have hpos := node.size_pos
    omega
  · intro depth scope ss last st hsize
    have hpos := sizeEach_pos ss
    omega
  · intro depth scope tail st hsize
    have hpos := tail.size_pos
    omega
  · intro depth scope condition body last st hpos
    omega
  · intro depth scope f arguments done st hsize
    omega
  · intro depth f arguments st hpos
    omega

theorem block (ih : Idles w n) (depth : Nat) (scope : ScopeId) {body : Block} (st : State)
    (hsize : body.size ≤ n) :
    Idle st (evalSequence w n depth scope body.statements (.bool false) st) := by
  have hlt := body.sizeEach_statements_lt
  exact ih.sequence depth scope body.statements _ st (by omega)

theorem binary_succ (ih : Idles w n) (depth : Nat) (scope : ScopeId) (op : BinaryOp)
    (left right : Node) (st : State) (hsize : (Node.binary op left right).size ≤ n + 1) :
    Idle st (eval w (n + 1) depth scope (.binary op left right) st) := by
  rw [Node.size] at hsize
  rw [eval]
  refine (ih.node depth scope left st (by omega)).andThen fun l st₁ => ?_
  have hright := ih.node depth scope right st₁ (by omega)
  cases op with
  | and =>
    show Idle st₁ (if l.isFalse then _ else _)
    split
    · exact .of_value _
    · exact hright
  | or =>
    show Idle st₁ (if l.isFalse then _ else _)
    split
    · exact hright
    · exact .of_value _
  | _ => exact hright.andThen fun r st₂ => .operate _ _

/-- A node of the size of the fuel leaves enough fuel for each of its parts. -/
theorem node_succ (ih : Idles w n) (depth : Nat) (scope : ScopeId) (node : Node) (st : State)
    (hsize : node.size ≤ n + 1) : Idle st (eval w (n + 1) depth scope node st) := by
  cases node with
  | program statements =>
    rw [Node.size] at hsize
    rw [eval]
    exact (ih.sequence depth scope statements _ st (by omega)).map
  | block body =>
    rw [Node.size] at hsize
    rw [eval]
    exact ih.block depth scope st (by omega)
  | int | float | str | bool =>
    rw [eval]
    exact .of_value _
  | otherwise | absent =>
    rw [eval]
    exact .of_fault _
  | ident name =>
    rw [eval]
    exact .read scope name
  | unary op operand =>
    rw [Node.size] at hsize
    rw [eval]
    exact (ih.node depth scope operand st (by omega)).andThen fun v st₁ => .operate _ _
  | binary op left right => exact ih.binary_succ depth scope op left right st hsize
  | assign target value =>
    rw [Node.size] at hsize
    cases target with
    | ident name =>
      rw [eval]
      exact (ih.node depth scope value st (by omega)).andThen fun v st₁ => .write scope name v
    | _ =>
      simp only [eval]
      exact .of_fault _
  | call callee arguments =>
    rw [Node.size] at hsize
    have hpos := callee.size_pos
    rw [eval]
    refine (ih.node depth scope callee st (by omega)).andThen fun f st₁ => ?_
    exact ih.call depth scope f arguments [] st₁ (by omega)
  | func name parameters body =>
    rw [eval]
    -- The body of a function is not evaluated where it is declared.
    exact .declare scope _
  | branch condition body tail =>
    rw [Node.size] at hsize
    rw [eval]
    refine (ih.node depth scope condition st (by omega)).andThen fun c st₁ => ?_
    cases c.isFalse with
    | true => exact ih.tail depth scope tail st₁ (by omega)
    | false => exact ih.block depth scope st₁ (by omega)
  | loop condition body =>
    rw [Node.size] at hsize
    have hpos := condition.size_pos
    rw [eval]
    -- A loop needs one unit of fuel, for the check that stops it.
    exact ih.loop depth scope condition body _ st (by omega)
  | ret value =>
    rw [Node.size] at hsize
    rw [eval]
    exact (ih.node depth scope value st (by omega)).andThen fun v st₁ => .of_value _

theorem sequence_succ (ih : Idles w n) (depth : Nat) (scope : ScopeId) (ss : List Node)
    (last : Value) (st : State) (hsize : sizeEach ss ≤ n + 1) :
    Idle st (evalSequence w (n + 1) depth scope ss last st) := by
  cases ss with
  | nil =>
    rw [evalSequence]
    exact .of_value last
  | cons s ss =>
    rw [sizeEach] at hsize
    rw [evalSequence]
    refine (ih.node depth scope s st (by omega)).andThen fun v st₁ => ?_
    exact ih.sequence depth scope ss v st₁ (by omega)

theorem tail_succ (ih : Idles w n) (depth : Nat) (scope : ScopeId) (tail : Tail) (st : State)
    (hsize : tail.size ≤ n + 1) : Idle st (evalTail w (n + 1) depth scope tail st) := by
  cases tail with
  | none =>
    rw [evalTail]
    exact .of_value _
  | «else» body =>
    rw [Tail.size] at hsize
    rw [evalTail]
    exact ih.block depth scope st (by omega)
  | elif condition body rest =>
    rw [Tail.size] at hsize
    rw [evalTail]
    refine (ih.node depth scope condition st (by omega)).andThen fun c st₁ => ?_
    cases c.isFalse with
    | true => exact ih.tail depth scope rest st₁ (by omega)
    | false => exact ih.block depth scope st₁ (by omega)

/-- A loop is stopped before its first round. -/
theorem loop_succ (hdone : w.context.Done k) (depth : Nat) (scope : ScopeId) (condition : Node)
    (body : Block) (last : Value) (st : State) :
    Idle st (evalLoop w (n + 1) depth scope condition body last st) := by
  rw [evalLoop_of_stop (Setting.verdict_of_done hdone _) n condition body last]
  exact ⟨nofun, rfl, [], rfl, nofun⟩

/-- The arguments are gone through before the application is stopped. -/
theorem call_succ (ih : Idles w n) (depth : Nat) (scope : ScopeId) (f : Value)
    (arguments : List Node) (done : List Value) (st : State) (hsize : sizeEach arguments < n + 1) :
    Idle st (evalCall w (n + 1) depth scope f arguments done st) := by
  cases arguments with
  | nil =>
    rw [sizeEach] at hsize
    rw [evalCall]
    -- One unit of fuel is left for the check of the application.
    exact ih.apply depth f done.reverse st (by omega)
  | cons a as =>
    rw [sizeEach] at hsize
    rw [evalCall]
    have hpos := a.size_pos
    refine (ih.node depth scope a st (by omega)).andThen fun v st₁ => ?_
    exact ih.call depth scope f as (v :: done) st₁ (by omega)

/-- No function is entered or called, as its application is stopped. -/
theorem apply_succ (hdone : w.context.Done k) (depth : Nat) (f : Value) (arguments : List Value)
    (st : State) : Idle st (Scriptlet.apply w (n + 1) depth f arguments st) := by
  rw [apply_of_stop (Setting.verdict_of_done hdone _) n]
  exact ⟨nofun, rfl, [], rfl, nofun⟩

end Idles

/-- In a context that is done, fuel for the size of a tree is enough to go through it. -/
theorem idles_of_done {w : Setting} {k : Interrupt} (hdone : w.context.Done k) (n : Nat) :
    Idles w n := by
  induction n with
  | zero => exact .zero
  | succ n ih =>
    exact ⟨ih.node_succ, ih.sequence_succ, ih.tail_succ,
      fun depth scope condition body last st _ => Idles.loop_succ hdone depth scope condition body
        last st,
      ih.call_succ, fun depth f arguments st _ => Idles.apply_succ hdone depth f arguments st⟩

/-! ## Runs in a context that is done -/

/-- An evaluation in a context that was cancelled or had its deadline before goes
    through its tree and no further. With fuel for the size of the tree it ends,
    always in the same way; it writes nothing, enters no function, calls none of
    the host and starts no round of a loop. If it arrives at a loop, or at a call
    whose callee and arguments have values, then it stops with the code of the
    interruption, and otherwise it is what it is in any other context. A timeout
    of its own does not change that the context is done. -/
theorem doneContext_stops {w : Setting} {k : Interrupt} (hdone : w.context.Done k) (depth : Nat)
    (scope : ScopeId) (node : Node) (st : State) :
    ∃ r, (∀ fuel, node.size ≤ fuel → eval w fuel depth scope node st = r) ∧
      r.outcome ≠ .starved ∧ r.state.written = st.written ∧
      (∃ new, r.state.events = new ++ st.events ∧ ∀ e ∈ new, e.isIdle = true) ∧
      ((∃ p, Visits w depth scope (node, st) p) → r.outcome = .fault (.interrupted k) ∧
        (Fault.interrupted k).code? =
          some (match k with | .canceled => .canceled | .expired => .timeout)) ∧
      ((¬ ∃ p, Visits w depth scope (node, st) p) → ∀ c fuel, node.size ≤ fuel →
        eval { w with context := c } fuel depth scope node st = r) ∧
      ∀ clock timeout, (w.context.withTimeout clock timeout).Done k := by
  -- The evaluation with fuel for exactly the size of the tree.
  let r := eval w node.size depth scope node st
  have hidle : Idle st r := (idles_of_done hdone _).node depth scope node st (Nat.le_refl _)
  have hsame : ∀ fuel, node.size ≤ fuel → eval w fuel depth scope node st = r :=
    fun fuel hle => eval_of_le hle rfl hidle.ends
  refine ⟨r, hsame, hidle.ends, hidle.written, hidle.events, ?_, ?_, hdone.withTimeout⟩
  · rintro ⟨p, hp⟩
    -- The evaluation stops at the point, and it ends in one way only.
    have hstopped := hp.evaluates (Setting.verdict_of_done hdone p)
    have heq : r = ⟨.fault (.interrupted k), p.checked⟩ :=
      Evaluates.unique ⟨node.size, rfl, hidle.ends⟩ hstopped
    refine ⟨by rw [heq], ?_⟩
    cases k <;> rfl
  · intro hnone c fuel hle
    -- With no point to stop at, the verdicts of the contexts never differ.
    have hfollows := (follows w c w.maxCallDepth fuel).node depth scope node st
    rcases hfollows.same with heq | ⟨p, hp, -⟩
    · rw [← hsame fuel hle]
      exact heq
    · exact absurd ⟨p, hp⟩ hnone

/-- Cancelled before it starts, a script binds its variable and does not print
    it. -/
theorem doneContext_stops_print :
    let i := Interpreter.ofRegistry .initial
    let w : Setting := ⟨.bare, .open, .canceled, 0⟩
    let bind : Node := .assign (.ident (text "x")) (.int 7)
    let print : Node := .call (.ident (text "Out")) [.ident (text "x")]
    let script : Node := .program [bind, print]
    let st : State := ⟨i.scopes, i.identities, 0, [], []⟩
    w.context.Done .canceled ∧
    (∃ r, (∀ fuel, script.size ≤ fuel → eval w fuel 0 0 script st = r) ∧
      r.outcome = .fault (.interrupted .canceled) ∧ r.state.written = []) ∧
    ∀ fuel, bind.size ≤ fuel →
      eval { w with context := .background } fuel 0 0 bind st = eval w fuel 0 0 bind st := by
  intro i w bind print script st
  have hdone : w.context.Done .canceled := fun _ => rfl
  refine ⟨hdone, ?_, ?_⟩
  · obtain ⟨r, hr, -, hwritten, -, hstops, -⟩ := doneContext_stops hdone 0 0 script st
    let bound := (eval w 3 0 0 bind st).state
    have hbind : Yields w 0 0 bind st (.int 7) bound := ⟨⟨3, by with_unfolding_all rfl, nofun⟩, rfl⟩
    have hvisits : Visits w 0 0 (script, st) (.application 0 _ [.int 7] bound) :=
      .statement (.cons hbind .nil) <|
      .application ⟨⟨1, by with_unfolding_all rfl, nofun⟩, by with_unfolding_all rfl⟩
        (.cons ⟨⟨1, by with_unfolding_all rfl, nofun⟩, rfl⟩ .nil)
    exact ⟨r, hr, (hstops ⟨_, hvisits⟩).1, hwritten⟩
  · obtain ⟨r, hr, -, -, -, hstops, hsame, -⟩ := doneContext_stops hdone 0 0 bind st
    have hvalue : (eval w bind.size 0 0 bind st).outcome = .value (.int 7) := by
      with_unfolding_all rfl
    -- A visited point would have ended the assignment with a fault.
    have hnone : ¬ ∃ p, Visits w 0 0 (bind, st) p := by
      intro hvisited
      have hfault := (hstops hvisited).1
      rw [← hr bind.size (Nat.le_refl _), hvalue] at hfault
      cases hfault
    intro fuel hle
    rw [hsame hnone .background fuel hle, hr fuel hle]

end Scriptlet
