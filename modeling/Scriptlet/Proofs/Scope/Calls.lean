/-
  Scriptlet.Proofs.Scope.Calls

  What a call binds. Everything that runs during a call runs in a scope that
  came to the heap during it: the scope of the call itself, or that of a call
  inside. Such a scope is no root, so an assignment in it finds a name that
  exists already or fails, and a declaration binds its name in that scope.
  Hence the scopes from before the call keep exactly the names they had
  (`apply_names`), and a new scope binds what the events of the call account for:
  the parameters of the function entered in it and the functions declared in it.
-/
import Scriptlet.Proofs.Invariant

namespace Scriptlet

/-! ## Names and the events behind them -/

/-- The events `new` account for the scopes that `s` has beyond `base`: a function
    was entered in each of them, and it binds the parameters of that function and
    the functions declared in it. -/
structure Accounted (base s : Scopes) (new : List Event) : Prop where
  created : ∀ j, base.size ≤ j → j < s.size → ∃ f arguments depth,
    .entered j f arguments depth ∈ new
  entered_lt : ∀ j f arguments depth, .entered j f arguments depth ∈ new → j < s.size
  declared_lt : ∀ j g, .declared j g ∈ new → j < s.size
  names : ∀ j f arguments depth, .entered j f arguments depth ∈ new → ∀ m,
    m ∈ s.names j ↔ m ∈ f.parameters ∨ ∃ g, .declared j g ∈ new ∧ g.name = m

/-- Whether an event adds a name to a scope. -/
def Event.introduces : Event → Bool
  | .entered _ _ _ _ | .declared _ _ => true
  | _ => false

namespace Accounted

variable {base s t : Scopes} {new : List Event}

/-- A call that has done nothing has no new scopes to account for. -/
theorem refl (s : Scopes) : Accounted s s [] where
  created _ hle hlt := absurd hlt (Nat.not_lt_of_le hle)
  entered_lt _ _ _ _ h := by cases h
  declared_lt _ _ h := by cases h
  names _ _ _ _ h := by cases h

/-- An event that adds no name, and a heap with the same names. -/
theorem note (h : Accounted base s new) {e : Event} (he : e.introduces = false)
    (hsize : t.size = s.size) (hnames : ∀ j, t.names j = s.names j) :
    Accounted base t (e :: new) := by
  -- The event is none of those that an account looks at.
  have hentered : ∀ j f arguments depth,
      .entered j f arguments depth ∈ e :: new → .entered j f arguments depth ∈ new := by
    intro j f arguments depth hmem
    rcases List.mem_cons.mp hmem with rfl | hold
    · cases he
    · exact hold
  have hdeclared : ∀ j g, .declared j g ∈ e :: new ↔ .declared j g ∈ new := by
    intro j g
    refine ⟨fun hmem => ?_, List.mem_cons_of_mem e⟩
    rcases List.mem_cons.mp hmem with rfl | hold
    · cases he
    · exact hold
  refine ⟨?_, ?_, ?_, ?_⟩
  · intro j hle hlt
    obtain ⟨f, arguments, depth, hmem⟩ := h.created j hle (hsize ▸ hlt)
    exact ⟨f, arguments, depth, List.mem_cons_of_mem e hmem⟩
  · intro j f arguments depth hmem
    rw [hsize]
    exact h.entered_lt j f arguments depth (hentered j f arguments depth hmem)
  · intro j g hmem
    rw [hsize]
    exact h.declared_lt j g ((hdeclared j g).mp hmem)
  · intro j f arguments depth hmem m
    simp only [hnames, hdeclared]
    exact h.names j f arguments depth (hentered j f arguments depth hmem) m

/-- A declaration adds its name to its own scope, and to no other. -/
theorem declare (h : Accounted base s new) {i : ScopeId} (hi : i < s.size) (g : Function)
    (v : Value) : Accounted base (s.define i g.name v) (.declared i g :: new) := by
  have hentered : ∀ j f arguments depth,
      .entered j f arguments depth ∈ .declared i g :: new → .entered j f arguments depth ∈ new := by
    intro j f arguments depth hmem
    simpa using hmem
  refine ⟨?_, ?_, ?_, ?_⟩
  · intro j hle hlt
    rw [Scopes.size_define] at hlt
    obtain ⟨f, arguments, depth, hmem⟩ := h.created j hle hlt
    exact ⟨f, arguments, depth, List.mem_cons_of_mem _ hmem⟩
  · intro j f arguments depth hmem
    rw [Scopes.size_define]
    exact h.entered_lt j f arguments depth (hentered j f arguments depth hmem)
  · intro j g' hmem
    rw [Scopes.size_define]
    rcases List.mem_cons.mp hmem with heq | hold
    · cases heq
      exact hi
    · exact h.declared_lt j g' hold
  · intro j f arguments depth hmem m
    have hbefore := h.names j f arguments depth (hentered j f arguments depth hmem) m
    -- Only the scope of the declaration gains a name.
    by_cases hij : i = j
    · subst hij
      have hnow : (∃ g', .declared i g' ∈ Event.declared i g :: new ∧ g'.name = m) ↔
          m = g.name ∨ ∃ g', .declared i g' ∈ new ∧ g'.name = m := by
        simp [or_and_right, exists_or, eq_comm]
      rw [Scopes.mem_names_define hi, hbefore, hnow]
      exact or_assoc.trans (or_congr_right or_comm)
    · have hother : ∀ g', .declared j g' ∈ Event.declared i g :: new ↔ .declared j g' ∈ new := by
        intro g'
        simp [Ne.symm hij]
      simp only [Scopes.names_define_ne hij, hbefore, hother]

/-- Entering a function accounts for its scope, which binds the parameters at first. -/
theorem enter (h : Accounted base s new) (f : Function) (home : ScopeId) (arguments : List Value)
    (depth : Nat) :
    Accounted base (s.enter home f.parameters arguments).2
      (.entered s.size f arguments depth :: new) := by
  have hdeclared : ∀ j g,
      .declared j g ∈ Event.entered s.size f arguments depth :: new ↔ .declared j g ∈ new := by
    intro j g
    simp
  refine ⟨?_, ?_, ?_, ?_⟩
  · intro j hle hlt
    rw [Scopes.size_enter] at hlt
    -- A scope is new by this event or by one before it.
    rcases Nat.lt_succ_iff_lt_or_eq.mp hlt with hold | rfl
    · obtain ⟨f', arguments', depth', hmem⟩ := h.created j hle hold
      exact ⟨f', arguments', depth', List.mem_cons_of_mem _ hmem⟩
    · exact ⟨f, arguments, depth, List.mem_cons_self⟩
  · intro j f' arguments' depth' hmem
    rw [Scopes.size_enter]
    rcases List.mem_cons.mp hmem with heq | hold
    · cases heq
      exact Nat.lt_succ_self _
    · exact Nat.lt_succ_of_lt (h.entered_lt j f' arguments' depth' hold)
  · intro j g hmem
    rw [Scopes.size_enter]
    exact Nat.lt_succ_of_lt (h.declared_lt j g ((hdeclared j g).mp hmem))
  · intro j f' arguments' depth' hmem m
    simp only [hdeclared]
    rcases List.mem_cons.mp hmem with heq | hold
    · cases heq
      -- Nothing was declared in a scope before it was there.
      have hnone : ∀ g, .declared s.size g ∉ new := fun g hg =>
        Nat.lt_irrefl _ (h.declared_lt s.size g hg)
      rw [Scopes.mem_names_enter_size]
      simp [hnone]
    · have hj := h.entered_lt j f' arguments' depth' hold
      rw [Scopes.names_enter_of_lt s home f.parameters arguments hj]
      exact h.names j f' arguments' depth' hold m

end Accounted

/-! ## Calls declare nothing outside -/

/-- The heap `s` behind the events `events`, seen from a call that started with
    the heap `base` behind the events `past`. -/
structure Confined (base : Scopes) (past : List Event) (s : Scopes) (events : List Event) :
    Prop where
  size_le : base.size ≤ s.size
  names : ∀ j < base.size, s.names j = base.names j
  account : ∃ new, events = new ++ past ∧ Accounted base s new

namespace Confined

variable {base s t : Scopes} {past events : List Event}

theorem refl (s : Scopes) (past : List Event) : Confined s past s past :=
  ⟨Nat.le_refl _, fun _ _ => rfl, [], rfl, .refl s⟩

/-- What binds no new name leaves a call confined. -/
theorem note (h : Confined base past s events) {e : Event} (he : e.introduces = false)
    (hsize : t.size = s.size) (hnames : ∀ j, t.names j = s.names j) :
    Confined base past t (e :: events) := by
  obtain ⟨new, rfl, haccount⟩ := h.account
  refine ⟨hsize ▸ h.size_le, ?_, e :: new, rfl, haccount.note he hsize hnames⟩
  intro j hj
  rw [hnames, h.names j hj]

/-- A declaration in a new scope leaves the scopes from before alone. -/
theorem declare (h : Confined base past s events) {i : ScopeId} (hnew : base.size ≤ i)
    (hi : i < s.size) (g : Function) (v : Value) :
    Confined base past (s.define i g.name v) (.declared i g :: events) := by
  obtain ⟨new, rfl, haccount⟩ := h.account
  refine ⟨?_, ?_, _ :: new, rfl, haccount.declare hi g v⟩
  · rw [Scopes.size_define]
    exact h.size_le
  · intro j hj
    -- The scope of the declaration is not one from before.
    have hne : i ≠ j := Nat.ne_of_gt (Nat.lt_of_lt_of_le hj hnew)
    rw [Scopes.names_define_ne hne, h.names j hj]

/-- A call inside a call makes one more new scope and touches none from before. -/
theorem enter (h : Confined base past s events) (f : Function) (home : ScopeId)
    (arguments : List Value) (depth : Nat) :
    Confined base past (s.enter home f.parameters arguments).2
      (.entered s.size f arguments depth :: events) := by
  obtain ⟨new, rfl, haccount⟩ := h.account
  refine ⟨?_, ?_, _ :: new, rfl, haccount.enter f home arguments depth⟩
  · rw [Scopes.size_enter]
    exact Nat.le_succ_of_le h.size_le
  · intro j hj
    have hold : j < s.size := Nat.lt_of_lt_of_le hj h.size_le
    rw [Scopes.names_enter_of_lt s home f.parameters arguments hold, h.names j hj]

end Confined

/-- During a call evaluations take place in new scopes, which are inside
    others, and the scopes from before keep their names. -/
def callInvariant (w : Setting) (base : Scopes) (past : List Event) : Invariant w where
  state st := Confined base past st.scopes st.events
  scope s i := base.size ≤ i ∧ ∃ o, s.outer? i = some o
  value _ _ := True
  scope_mono {st st' i} _ _ hgrows hi := by
    obtain ⟨hnew, o, houter⟩ := hi
    exact ⟨hnew, o, by rw [hgrows.outer? i (Scopes.lt_size_of_outer? houter), houter]⟩
  value_mono _ _ _ _ := trivial
  value_atom _ _ _ := trivial
  value_unwrap _ := trivial
  check hst := hst
  looped hst := hst.note rfl rfl fun _ => rfl
  operated hst _ := hst.note rfl rfl fun _ => rfl
  read _ _ _ := trivial
  declared f hst hi := by
    obtain ⟨hnew, o, houter⟩ := hi
    exact ⟨hst.declare hnew (Scopes.lt_size_of_outer? houter) f _, trivial⟩
  assigned {st i o name v} hst hi _ htarget := by
    -- An assignment writes to a scope that binds the name already, or to a root.
    rcases Scopes.target?_cases htarget with ⟨-, hbound⟩ | ⟨-, hroot⟩
    · exact hst.note rfl Scopes.size_define (Scopes.names_define_of_mem hbound)
    · -- Only a root takes a new name, and no call runs in a root.
      obtain ⟨-, o', houter⟩ := hi
      rw [hroot] at houter
      cases houter
  entered {st identity home f arguments} depth hst _ _ :=
    ⟨hst.enter f home arguments depth, hst.size_le, home,
      Scopes.outer?_enter_size st.scopes home f.parameters arguments⟩
  invoked hst _ := ⟨hst.note rfl rfl fun _ => rfl, fun _ _ => trivial⟩

/-- A call declares nothing outside itself, however it ends: the scopes from
    before keep the scope around them and exactly their names. Each scope that is
    new was made for a function entered during the call, and it binds the
    parameters of that function and the functions declared in it during the
    call. -/
theorem apply_names (w : Setting) (fuel depth : Nat) (f : Value) (arguments : List Value)
    (st : State) :
    let r := apply w fuel depth f arguments st
    (∀ j < st.scopes.size, r.state.scopes.outer? j = st.scopes.outer? j ∧
      r.state.scopes.names j = st.scopes.names j) ∧
    ∃ new, r.state.events = new ++ st.events ∧
      ∀ j, st.scopes.size ≤ j → j < r.state.scopes.size →
        (∃ g as d, .entered j g as d ∈ new) ∧
        ∀ g as d, .entered j g as d ∈ new → ∀ name, name ∈ r.state.scopes.names j ↔
          name ∈ g.parameters ∨ ∃ h, .declared j h ∈ new ∧ h.name = name := by
  intro r
  -- The invariant starts out at the heap and the events of the call.
  let I := callInvariant w st.scopes st.events
  have hkept : I.Upheld st r :=
    (I.kept fuel).apply depth f arguments st (.refl _ _) trivial fun _ _ => trivial
  obtain ⟨-, hnames, new, hevents, haccount⟩ := hkept.state
  refine ⟨?_, new, hevents, ?_⟩
  · intro j hj
    exact ⟨hkept.grows.outer? j hj, hnames j hj⟩
  · intro j hnew hj
    exact ⟨haccount.created j hnew hj, fun g as d hg => haccount.names j g as d hg⟩

end Scriptlet
