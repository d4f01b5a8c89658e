/-
  Scriptlet.Proofs.Marker

  A return on its way out is a value with a mark around it, and nothing but the
  constructs that pass it on ever handles that mark. No name is bound to it, no
  function and no operator gets it, no mark stands around another, and a run or an
  evaluation of an interpreter takes it off (`unmarked_after`).

  A value is always present: only the reply of a host function may lack one, and
  the call makes it false.
-/
import Scriptlet.Proofs.Run
import Scriptlet.Proofs.Invariant

namespace Scriptlet

/-! ## States without marks -/

/-- The values that an event hands on: to a function, to an operator, or to a
    name. A declared function is bound to a closure, which is no return. -/
def Event.values : Event → List Value
  | .entered _ _ arguments _ => arguments
  | .declared _ _ => []
  | .assigned _ _ v => [v]
  | .invoked _ arguments => arguments
  | .operated operands => operands
  | .looped => []

/-- No name is bound to a return on its way out. -/
def Scopes.Unmarked (s : Scopes) : Prop := s.Every fun _ v => v.isReturned = false

/-- No name is bound to a return on its way out, and none was handed on so
    far. -/
structure State.Unmarked (st : State) : Prop where
  scopes : st.scopes.Unmarked
  events : ∀ e ∈ st.events, ∀ v ∈ e.values, v.isReturned = false

/-- Given values without a mark, the functions of the host give back no value,
    a value without a mark, or one with a single mark around it. -/
def Host.Unnested (h : Host) : Prop :=
  ∀ key sink arguments v, (∀ a ∈ arguments, Value.isReturned a = false) →
    (h.behave key sink arguments).result = .ok (some v) → v.unwrap.isReturned = false

theorem Value.isReturned_atom {v : Value} (h : v.isAtom = true) : v.isReturned = false := by
  cases v with
  | returned u => cases h
  | _ => rfl

theorem Host.Unnested.call {h : Host} (hhost : h.Unnested) {f : HostFunction} {sink : Sink}
    {arguments : List Value} (harguments : ∀ a ∈ arguments, a.isReturned = false) {v : Value}
    (hv : (h.call f sink arguments).result = .ok (some v)) : v.unwrap.isReturned = false := by
  rcases Host.call_value hv with hatom | ⟨key, hkey⟩
  · -- A builtin of the interpreter gives an atom, and no atom is a mark.
    have hunmarked := Value.isReturned_atom hatom
    rwa [Value.unwrap_eq_self hunmarked]
  · exact hhost key sink arguments v harguments hkey

theorem State.Unmarked.note {st : State} (h : st.Unmarked) {e : Event}
    (he : ∀ v ∈ e.values, v.isReturned = false) : (st.note e).Unmarked where
  scopes := h.scopes
  events e' he' v hv := by
    rcases List.mem_cons.mp he' with rfl | hold
    · exact he v hv
    · exact h.events e' hold v hv

/-! ## Evaluations -/

/-- Evaluations bind and hand on values without a mark. -/
def markInvariant (w : Setting) (hhost : w.host.Unnested) : Invariant w where
  state := State.Unmarked
  scope _ _ := True
  value _ v := v.isReturned = false
  scope_mono _ _ _ _ := trivial
  value_mono _ _ _ hv := hv
  value_atom _ _ hv := Value.isReturned_atom hv
  -- A value of the invariant is no return, so taking a mark off leaves it alone.
  value_unwrap hv := by rwa [Value.unwrap_eq_self hv]
  check hst := ⟨hst.scopes, hst.events⟩
  looped hst := hst.note fun _ hv => by cases hv
  operated hst hoperands := hst.note hoperands
  read hst _ hv := by
    -- What is read was stored in some scope of the chain.
    obtain ⟨_, -, hunmarked⟩ := hst.scopes.lookup? hv
    exact hunmarked
  declared {st i} f hst _ := by
    have hnoted := hst.note (e := .declared i f) fun _ hv => by cases hv
    exact ⟨⟨hst.scopes.define i f.name rfl, hnoted.events⟩, rfl⟩
  assigned {st i o name v} hst _ hv _ := by
    have hnoted := hst.note (e := .assigned o name v) fun u hu => by
      rw [List.mem_singleton.mp hu]
      exact hv
    exact ⟨hst.scopes.define o name hv, hnoted.events⟩
  entered {st identity home f arguments} depth hst _ harguments := by
    have hnoted := hst.note (e := .entered st.scopes.size f arguments depth) harguments
    exact ⟨⟨hst.scopes.enter home rfl f.parameters harguments, hnoted.events⟩, trivial⟩
  invoked {st f arguments} hst harguments := by
    have hnoted := hst.note (e := .invoked f arguments) harguments
    exact ⟨⟨hst.scopes, hnoted.events⟩, fun _ hv => hhost.call harguments hv⟩

/-- An evaluation in a state without marks leaves one, and its value has at most
    one mark. -/
theorem eval_unmarked {w : Setting} (hhost : w.host.Unnested) (fuel depth : Nat) (i : ScopeId)
    (node : Node) {st : State} (hst : st.Unmarked) {r : Result}
    (hr : eval w fuel depth i node st = r) :
    r.state.Unmarked ∧ ∀ v, r.outcome = .value v → v.unwrap.isReturned = false := by
  subst hr
  have hkept := ((markInvariant w hhost).kept fuel).node depth i node st hst trivial
  exact ⟨hkept.state, hkept.value⟩

/-! ## New interpreters -/

theorem Registry.unmarked_bindAll {s : Scopes} (h : s.Unmarked) (i : ScopeId) (identity : Nat)
    (table : List (Name × HostFunction)) : (bindAll s i identity table).1.Unmarked := by
  induction table generalizing s identity with
  | nil => exact h
  | cons entry entries ih =>
    apply ih
    exact h.define i entry.1 rfl

namespace Interpreter

/-- A new interpreter binds builtins only. -/
theorem unmarked_ofRegistry (r : Registry) : (ofRegistry r).scopes.Unmarked :=
  Registry.unmarked_bindAll Scopes.every_root globalScope 0 r.table

/-! ## Sequences of runs and evaluations -/

/-- One use of an interpreter: the run of a source or the evaluation of a
    tree. -/
inductive Job where
  | run (o : Occasion) (source : Bytes)
  | evaluate (o : Occasion) (node : Node)

def Job.occasion : Job → Occasion
  | .run o _ => o
  | .evaluate o _ => o

/-- The report on a job. -/
def perform (i : Interpreter) : Job → Report
  | .run o source => i.run o source
  | .evaluate o node => i.evaluate o node

/-- The evaluation that a job consists of, before a return is taken off. There is
    none for a source that does not parse. -/
def evaluation? (i : Interpreter) : Job → Option Result
  | .evaluate o node => some (i.start o node)
  | .run o source =>
    match i.parse source with
    | (.ok p, j) => some (j.start o (.program p.statements))
    | (.error _, _) => none

/-- The interpreter after jobs in order. -/
def after (i : Interpreter) (jobs : List Job) : Interpreter :=
  jobs.foldl (fun i job => (i.perform job).interpreter) i

variable {i : Interpreter}

theorem parse_scopes (i : Interpreter) (source : Bytes) : (i.parse source).2.scopes = i.scopes := by
  unfold Interpreter.parse
  split
  · rfl
  · split
    · rfl
    · split <;> rfl

/-- A job without an evaluation fails and leaves the scopes as they were. -/
theorem perform_of_none {job : Job} (h : i.evaluation? job = none) :
    (∃ f, (i.perform job).outcome = .fault f) ∧
      (i.perform job).interpreter.scopes = i.scopes := by
  cases job with
  | evaluate o node => cases h
  | run o source =>
    have hscopes := parse_scopes i source
    -- Only a source that does not parse comes without an evaluation.
    rcases hparse : i.parse source with ⟨_ | p, j⟩
    · rename_i f
      rw [hparse] at hscopes
      exact ⟨⟨f, by simp [perform, run, hparse]⟩, by simpa [perform, run, hparse] using hscopes⟩
    · simp [evaluation?, hparse] at h

/-- A job gives the result of its evaluation, with a return taken off, and leaves
    the scopes of that evaluation. -/
theorem perform_of_some {job : Job} {r : Result} (h : i.evaluation? job = some r) :
    (i.perform job).outcome = (r.map Value.unwrap).outcome ∧
      (i.perform job).interpreter.scopes = r.state.scopes := by
  cases job with
  | evaluate o node =>
    cases h
    exact ⟨rfl, congrArg State.scopes (Result.map_state _ _)⟩
  | run o source =>
    rcases hparse : i.parse source with ⟨_ | p, j⟩
    · simp [evaluation?, hparse] at h
    · simp only [evaluation?, hparse, Option.some.injEq] at h
      subst h
      simp [perform, run, hparse, evaluate, Result.map_state]

/-- The evaluation of a job starts with the scopes of the interpreter and without
    a past. -/
theorem exists_eval_of_evaluation? {job : Job} {r : Result} (h : i.evaluation? job = some r) :
    ∃ w fuel node identities, w.host = job.occasion.host ∧
      eval w fuel 0 globalScope node ⟨i.scopes, identities, 0, [], []⟩ = r := by
  cases job with
  | evaluate o node =>
    cases h
    exact ⟨i.setting o, o.fuel, node, i.identities, rfl, rfl⟩
  -- Parsing may change the cache, but no scope.
  | run o source =>
    have hscopes := parse_scopes i source
    rcases hparse : i.parse source with ⟨_ | p, j⟩
    · simp [evaluation?, hparse] at h
    · rw [hparse] at hscopes
      simp only [evaluation?, hparse, Option.some.injEq] at h
      subst h
      exact ⟨j.setting o, o.fuel, .program p.statements, j.identities, rfl, by rw [← hscopes]; rfl⟩

/-! ## No mark is ever data -/

theorem evaluation?_unmarked (hi : i.scopes.Unmarked) {job : Job}
    (hhost : job.occasion.host.Unnested) {r : Result} (hr : i.evaluation? job = some r) :
    r.state.Unmarked ∧ ∀ v, r.outcome = .value v → v.unwrap.isReturned = false := by
  obtain ⟨w, fuel, node, identities, hw, heval⟩ := exists_eval_of_evaluation? hr
  have hstart : State.Unmarked ⟨i.scopes, identities, 0, [], []⟩ := ⟨hi, fun _ he => by cases he⟩
  exact eval_unmarked (hw ▸ hhost) fuel 0 globalScope node hstart heval

/-- One job leaves scopes without marks. -/
theorem perform_unmarked (hi : i.scopes.Unmarked) {job : Job}
    (hhost : job.occasion.host.Unnested) : (i.perform job).interpreter.scopes.Unmarked := by
  cases hr : i.evaluation? job with
  | none =>
    rw [(perform_of_none hr).2]
    exact hi
  | some r =>
    rw [(perform_of_some hr).2]
    exact (evaluation?_unmarked hi hhost hr).1.scopes

/-- So do any number of them. -/
theorem after_unmarked {jobs : List Job} (hi : i.scopes.Unmarked)
    (hhost : ∀ job ∈ jobs, job.occasion.host.Unnested) : (i.after jobs).scopes.Unmarked := by
  induction jobs generalizing i with
  | nil => exact hi
  | cons job jobs ih =>
    have hfirst := perform_unmarked hi (hhost job List.mem_cons_self)
    exact ih hfirst fun k hk => hhost k (List.mem_cons_of_mem job hk)

theorem perform_value (hi : i.scopes.Unmarked) {job : Job} (hhost : job.occasion.host.Unnested)
    {v : Value} (hv : (i.perform job).outcome = .value v) : v.isReturned = false := by
  cases hr : i.evaluation? job with
  | none =>
    obtain ⟨f, hf⟩ := (perform_of_none hr).1
    rw [hf] at hv
    cases hv
  | some r =>
    rw [(perform_of_some hr).1] at hv
    have hvalue := (evaluation?_unmarked hi hhost hr).2
    obtain ⟨outcome, st⟩ := r
    -- The interpreter takes the mark off, and there is no second one under it.
    cases outcome with
    | fault | starved => cases hv
    | value u =>
      cases hv
      exact hvalue u rfl

/-- The mark of a return on its way out never becomes data. Take an interpreter
    that binds no marked value, any sequence of runs and evaluations, and one more
    after it. Then no scope binds a marked value; none is given to a function, to
    an operator or to a name during that job, and its evaluation leaves at most
    one mark, which the interpreter takes off. The same holds of every evaluation
    inside, and a host function without a value has the value false. -/
theorem unmarked_after (hi : i.scopes.Unmarked) (jobs : List Job) (job : Job)
    (hhost : ∀ k ∈ job :: jobs, k.occasion.host.Unnested) :
    (i.after jobs).scopes.Unmarked ∧
    (∀ r, (i.after jobs).evaluation? job = some r →
      (∀ e ∈ r.state.events, ∀ v ∈ e.values, v.isReturned = false) ∧ r.state.scopes.Unmarked ∧
      ∀ v, r.outcome = .value v → v.unwrap.isReturned = false) ∧
    (∀ v, ((i.after jobs).perform job).outcome = .value v → v.isReturned = false) ∧
    (∀ w fuel depth scope node (st : State), w.host = job.occasion.host → st.Unmarked →
      (eval w fuel depth scope node st).state.Unmarked ∧
      ∀ v, (eval w fuel depth scope node st).outcome = .value v → v.unwrap.isReturned = false) ∧
    ∀ (w : Setting) (st : State) name f arguments,
      (w.host.call f w.sink arguments).result = .ok none →
      (st.invoke w name f arguments).outcome = .value (.bool false) := by
  have hjob := hhost job List.mem_cons_self
  -- The jobs before leave no mark, so the last one starts without any.
  have hbefore := after_unmarked hi fun k hk => hhost k (List.mem_cons_of_mem job hk)
  refine ⟨hbefore, ?_, fun v hv => perform_value hbefore hjob hv, ?_, ?_⟩
  · intro r hr
    obtain ⟨hstate, hvalue⟩ := evaluation?_unmarked hbefore hjob hr
    exact ⟨hstate.events, hstate.scopes, hvalue⟩
  · intro w fuel depth scope node st hw hst
    exact eval_unmarked (hw ▸ hjob) fuel depth scope node hst rfl
  · intro w st name f arguments hnone
    simp [State.invoke, hnone]

/-- A host function that gives its argument back with a mark ends an assignment:
    the evaluation has the value inside, and the name is not bound. -/
theorem unmarked_after_escape :
    let host : Host := ⟨fun _ _ arguments => ⟨[], .ok (arguments.head?.map .returned)⟩, .steady⟩
    let i := ofRegistry ⟨[(text "escape", .custom (text "escape"))], false, false⟩
    let job : Job := .evaluate { Occasion.plain host with fuel := 20 }
      (.assign (.ident (text "x")) (.call (.ident (text "escape")) [.int 5]))
    (i.perform job).outcome = .value (.int 5) ∧
      (i.after [job]).names = [text "escape"] ∧ (i.after [job]).scopes.Unmarked := by
  refine ⟨by with_unfolding_all rfl, by decide +kernel, ?_⟩
  refine (unmarked_after (unmarked_ofRegistry _) _ (.run (Occasion.plain .bare) []) ?_).1
  intro k hk
  rcases List.mem_cons.mp hk with rfl | hmem
  · intro key sink arguments v _ hv
    cases hv
  · rw [List.mem_singleton.mp hmem]
    intro key sink arguments v harguments hv
    obtain ⟨a, ha, rfl⟩ := Option.map_eq_some_iff.mp (Except.ok.inj hv)
    exact harguments a (List.mem_of_head? ha)

end Interpreter

end Scriptlet
