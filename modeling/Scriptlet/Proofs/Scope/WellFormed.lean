/-
  Scriptlet.Proofs.Scope.WellFormed

  The shape of the heap of scopes over whole runs. In a well-formed heap every
  scope is younger than the one around it, closures refer to scopes that exist,
  and those that are stored in the tree of the global scope stay in that tree.

  Every evaluation keeps a heap well-formed (`eval_wellFormed`). The two steps
  that matter are binding a value of the tree (`WellFormed.define`) and entering
  a closure of the tree (`WellFormed.enter`); the rest is the induction over
  evaluations.
-/
import Scriptlet.Interpreter
import Scriptlet.Proofs.Invariant
import Mathlib.Logic.Relation

namespace Scriptlet

/-- The scope that a value refers to: that of a closure, also when it is on its
    way out of a call. -/
def Value.home? : Value → Option ScopeId
  | .closure _ _ home => some home
  | .returned v => v.home?
  | _ => none

/-- An atom refers to no scope. -/
theorem Value.home?_atom {v : Value} (h : v.isAtom = true) : v.home? = none := by
  cases v with
  | int | float | bool | str => rfl
  | closure | builtin | returned => cases h

@[simp]
theorem Value.home?_unwrap (v : Value) : v.unwrap.home? = v.home? := by
  cases v <;> rfl

namespace Scopes

variable {s t : Scopes} {g i j home : ScopeId} {name : Name} {v : Value}

/-! ## Trees of scopes -/

/-- The scope exists, and its chain ends in `g`. -/
def Within (s : Scopes) (g i : ScopeId) : Prop := i < s.size ∧ s.root? i = some g

/-- A value refers to nothing outside the tree of `g`. -/
def Owns (s : Scopes) (g : ScopeId) (v : Value) : Prop :=
  ∀ home, v.home? = some home → s.Within g home

/-- A heap in order, seen from the global scope `g`. Other trees may stand beside
    that of `g`. -/
structure WellFormed (s : Scopes) (g : ScopeId) : Prop where
  ordered : s.Ordered
  homes : s.Every fun _ v => ∀ home, v.home? = some home → home < s.size
  owned : s.Every fun i v => s.Within g i → s.Owns g v

/-- The scopes that code in the scope `i` can come to: those of its chain, those
    of the closures stored there, and so on. -/
inductive InUse (s : Scopes) (i : ScopeId) : ScopeId → Prop where
  | self : InUse s i i
  | outer {j o : ScopeId} : InUse s i j → s.outer? j = some o → InUse s i o
  | stored {j home : ScopeId} {scope : Scope} {b : Name × Value} : InUse s i j →
      s.get? j = some scope → b ∈ scope.bindings → b.2.home? = some home → InUse s i home

/-- An atom is owned by every tree. -/
theorem owns_atom (h : v.isAtom = true) : s.Owns g v := by
  intro home hhome
  rw [Value.home?_atom h] at hhome
  cases hhome

/-- A value that is on its way out of a call is owned as the value itself is. -/
theorem Owns.unwrap (h : s.Owns g v) : s.Owns g v.unwrap := by
  rwa [Owns, Value.home?_unwrap]

/-! ## Growth keeps trees -/

/-- A scope stays in its tree as the heap grows. -/
theorem Within.mono (hs : s.Ordered) (ht : t.Ordered) (hst : s.Extends t) (h : s.Within g i) :
    t.Within g i :=
  ⟨Nat.lt_of_lt_of_le h.1 hst.size_le, by rw [hs.root?_of_extends ht hst h.1, h.2]⟩

/-- A scope comes into a tree only when it is new. -/
theorem Within.of_extends (hs : s.Ordered) (ht : t.Ordered) (hst : s.Extends t) (hi : i < s.size)
    (h : t.Within g i) : s.Within g i :=
  ⟨hi, by rw [← hs.root?_of_extends ht hst hi, h.2]⟩

/-- What a tree owns it owns in every heap that grows out of this one. -/
theorem Owns.mono (hs : s.Ordered) (ht : t.Ordered) (hst : s.Extends t) (h : s.Owns g v) :
    t.Owns g v :=
  fun home hhome => (h home hhome).mono hs ht hst

namespace WellFormed

/-- Binding a value of the tree of `g`, in whatever scope. -/
theorem define (h : s.WellFormed g) (hv : s.Owns g v) : (s.define i name v).WellFormed g where
  ordered := h.ordered.define
  homes := by
    -- The scope of a closure may be any scope that exists.
    have hstored := h.homes.define i name fun home hhome => (hv home hhome).1
    simpa only [size_define] using hstored
  owned := by
    have hgrows := Extends.define s i name v
    have hstored := h.owned.define i name fun _ => hv
    -- Ownership was shown for the old heap, for scopes that were in the tree there.
    refine hstored.imp fun j u hj hu hwithin => ?_
    rw [size_define] at hj
    have hbefore := hwithin.of_extends h.ordered h.ordered.define hgrows hj
    exact (hu hbefore).mono h.ordered h.ordered.define hgrows

/-- The scope of a call stands in the tree of the function. -/
theorem within_enter (h : s.WellFormed g) (hhome : s.Within g home) (ps : List Name)
    (as : List Value) : (s.enter home ps as).2.Within g s.size := by
  have hordered := h.ordered.enter hhome.1 ps as
  have houter := outer?_enter_size s home ps as
  refine ⟨by simp, ?_⟩
  -- The new scope has the root of the scope around it, which was there before.
  rw [hordered.root?_of_outer houter]
  exact (hhome.mono h.ordered hordered (.enter s home ps as)).2

/-- Entering a function of the tree of `g` with arguments of the tree. -/
theorem enter (h : s.WellFormed g) (hhome : s.Within g home) (ps : List Name) {as : List Value}
    (has : ∀ a ∈ as, s.Owns g a) : (s.enter home ps as).2.WellFormed g := by
  have hordered := h.ordered.enter hhome.1 ps as
  have hgrows := Extends.enter s home ps as
  have hfalse : s.Owns g (.bool false) := owns_atom rfl
  refine ⟨hordered, ?_, ?_⟩
  · -- Closures refer to scopes that exist, and no scope goes away.
    have hstored := h.homes.enter home (fun k hk => (hfalse k hk).1) ps
      fun a ha k hk => (has a ha k hk).1
    refine hstored.imp fun j u _ hu k hk => ?_
    exact Nat.lt_of_lt_of_le (hu k hk) hgrows.size_le
  · -- Every value of the new scope is owned, whether that scope is in the tree or not.
    have hbefore : s.Every fun j u => s.Within g j ∨ j = s.size → s.Owns g u := by
      refine h.owned.imp fun j u hj hu hor => ?_
      rcases hor with hwithin | rfl
      · exact hu hwithin
      · exact absurd hj (Nat.lt_irrefl _)
    have hstored := hbefore.enter home (fun _ => hfalse) ps fun a ha _ => has a ha
    refine hstored.imp fun j u hj hu hwithin => ?_
    have howned : s.Owns g u := by
      apply hu
      rw [size_enter] at hj
      rcases Nat.lt_succ_iff_lt_or_eq.mp hj with hold | hnew
      · exact .inl (hwithin.of_extends h.ordered hordered hgrows hold)
      · exact .inr hnew
    exact howned.mono h.ordered hordered hgrows

/-- What is read in a tree refers to nothing outside it. -/
theorem owns_of_lookup? (h : s.WellFormed g) (hi : s.Within g i)
    (hv : s.lookup? i name = some v) : s.Owns g v := by
  obtain ⟨o, ho, howned⟩ := h.owned.lookup? hv
  obtain ⟨hlt, hroot⟩ := h.ordered.of_mem_chain hi.1 ho
  exact howned ⟨hlt, hroot.trans hi.2⟩

/-- All scopes in use from a scope of the tree are in the tree. -/
theorem within_of_inUse (h : s.WellFormed g) (hi : s.Within g i) (hj : s.InUse i j) :
    s.Within g j := by
  induction hj with
  | self => exact hi
  | @outer j o _ houter ih =>
    refine ⟨Nat.lt_trans (h.ordered j o houter) ih.1, ?_⟩
    rw [← h.ordered.root?_of_outer houter, ih.2]
  -- A stored closure of the tree is owned by the tree.
  | @stored j home scope b _ hscope hb hhome ih => exact h.owned j scope hscope b hb ih home hhome

end WellFormed

/-- `t` is in order and grew out of `s` by scopes in the tree of `g`, each of them
    inside another. -/
structure Grown (s : Scopes) (g : ScopeId) (t : Scopes) : Prop where
  grows : s.Extends t
  heap : t.WellFormed g
  created : ∀ j, s.size ≤ j → j < t.size → t.Within g j ∧ ∃ o, t.outer? j = some o

namespace Grown

theorem refl (h : s.WellFormed g) : s.Grown g s where
  grows := .refl s
  heap := h
  created _ hle hlt := absurd hlt (Nat.not_lt_of_le hle)

theorem define (h : s.Grown g t) (hv : t.Owns g v) : s.Grown g (t.define i name v) where
  grows := h.grows.trans (.define t i name v)
  heap := h.heap.define hv
  created j hle hlt := by
    rw [size_define] at hlt
    obtain ⟨hwithin, o, houter⟩ := h.created j hle hlt
    refine ⟨hwithin.mono h.heap.ordered h.heap.ordered.define (.define t i name v), o, ?_⟩
    rw [outer?_define, houter]

/-- Entering a function of the tree adds one scope, inside that of the function. -/
theorem enter (h : s.Grown g t) (hhome : t.Within g home) (ps : List Name) {as : List Value}
    (has : ∀ a ∈ as, t.Owns g a) : s.Grown g (t.enter home ps as).2 where
  grows := h.grows.trans (.enter t home ps as)
  heap := h.heap.enter hhome ps has
  created j hle hlt := by
    rw [size_enter] at hlt
    -- The scopes made before keep their links, the one made now leads to `home`.
    rcases Nat.lt_succ_iff_lt_or_eq.mp hlt with hold | rfl
    · obtain ⟨hwithin, o, houter⟩ := h.created j hle hold
      have hordered := h.heap.ordered.enter hhome.1 ps as
      refine ⟨hwithin.mono h.heap.ordered hordered (.enter t home ps as), o, ?_⟩
      rw [outer?_enter_of_lt t home ps as hold, houter]
    · exact ⟨h.heap.within_enter hhome ps as, home, outer?_enter_size t home ps as⟩

end Grown

/-! ## Links lead to older scopes -/

/-- Going outwards leads to older scopes only. -/
theorem Ordered.lt_of_transGen (h : s.Ordered)
    (hij : Relation.TransGen (fun a b => s.outer? a = some b) i j) : j < i := by
  induction hij with
  | single houter => exact h _ _ houter
  | tail _ houter ih => exact Nat.lt_trans (h _ _ houter) ih

/-- No scope is around itself. -/
theorem Ordered.acyclic (h : s.Ordered) (i : ScopeId) :
    ¬ Relation.TransGen (fun a b => s.outer? a = some b) i i :=
  fun hcycle => Nat.lt_irrefl i (h.lt_of_transGen hcycle)

end Scopes

/-! ## Evaluations keep the heap in order -/

/-- The functions of the host give back values of this interpreter only: from
    arguments in the tree of `g`, values in the tree of `g`, in every heap that
    grows out of `s`. -/
def Host.Native (h : Host) (s : Scopes) (g : ScopeId) : Prop :=
  ∀ key sink arguments v t, s.Extends t → t.WellFormed g → (∀ a ∈ arguments, t.Owns g a) →
    (h.behave key sink arguments).result = .ok (some v) → t.Owns g v

/-- What a function of the host gives back in a heap grown out of `s` is owned by the tree. -/
theorem Host.Native.call {h : Host} {s t : Scopes} {g : ScopeId} (hhost : h.Native s g)
    (hst : s.Extends t) (ht : t.WellFormed g) {sink : Sink} {f : HostFunction}
    {arguments : List Value} (harguments : ∀ a ∈ arguments, t.Owns g a) {v : Value}
    (hv : (h.call f sink arguments).result = .ok (some v)) : t.Owns g v := by
  -- The functions that come with the interpreter give back atoms.
  rcases Host.call_value hv with hatom | ⟨key, hkey⟩
  · exact Scopes.owns_atom hatom
  · exact hhost key sink arguments v t hst ht harguments hkey

/-- The heap is in order and grew out of `s`, evaluations take place in the tree
    of `g`, and every value that they hand on is owned by it. -/
def heapInvariant (w : Setting) (s : Scopes) (g : ScopeId) (hhost : w.host.Native s g) :
    Invariant w where
  state st := s.Grown g st.scopes
  scope t i := t.Within g i
  value t v := t.Owns g v
  scope_mono hst hst' hgrows hi := hi.mono hst.heap.ordered hst'.heap.ordered hgrows
  value_mono hst hst' hgrows hv := hv.mono hst.heap.ordered hst'.heap.ordered hgrows
  value_atom _ _ hv := Scopes.owns_atom hv
  value_unwrap hv := hv.unwrap
  check hst := hst
  looped hst := hst
  operated hst _ := hst
  read hst hi hv := hst.heap.owns_of_lookup? hi hv
  declared {st i} f hst hi := by
    have hclosure : st.scopes.Owns g (.closure st.identities f i) := by
      intro home hhome
      -- A new closure refers to the scope that it is declared in.
      cases hhome
      exact hi
    have hordered := hst.heap.ordered
    exact ⟨hst.define hclosure, hclosure.mono hordered hordered.define (.define _ _ _ _)⟩
  assigned hst _ hv _ := hst.define hv
  entered {st identity home f arguments} depth hst hf harguments := by
    have hhome : st.scopes.Within g home := hf home rfl
    exact ⟨hst.enter hhome f.parameters harguments,
      hst.heap.within_enter hhome f.parameters arguments⟩
  invoked hst harguments := ⟨hst, fun _ hv => (hhost.call hst.grows hst.heap harguments hv).unwrap⟩

/-! ## New interpreters -/

namespace Registry

variable {s : Scopes} {g i : ScopeId}

/-- Binding the builtins of a registry only grows the heap. -/
theorem extends_bindAll (identity : Nat) (table : List (Name × HostFunction)) :
    s.Extends (bindAll s i identity table).1 := by
  induction table generalizing s identity with
  | nil => exact .refl s
  | cons entry entries ih => exact (Scopes.Extends.define _ _ _ _).trans (ih _)

/-- Builtins can be bound in any scope of a well-formed heap. -/
theorem wellFormed_bindAll (h : s.WellFormed g) (identity : Nat)
    (table : List (Name × HostFunction)) : (bindAll s i identity table).1.WellFormed g := by
  induction table generalizing s identity with
  | nil => exact h
  | cons entry entries ih =>
    apply ih
    apply h.define
    -- A builtin refers to no scope.
    intro home hhome
    cases hhome

end Registry

/-- The heap with nothing but the global scope is well-formed. -/
theorem Scopes.wellFormed_root :
    (Scopes.empty.push none).2.WellFormed Interpreter.globalScope where
  ordered i o houter := by
    obtain ⟨scope, hscope, ho⟩ := Option.bind_eq_some_iff.mp houter
    rw [get?_root hscope] at ho
    cases ho
  homes := every_root
  owned := every_root

/-- A new interpreter has a well-formed heap, and its global scope is in it. -/
theorem Interpreter.wellFormed_ofRegistry (r : Registry) :
    (ofRegistry r).scopes.WellFormed globalScope ∧
      (ofRegistry r).scopes.Within globalScope globalScope := by
  have hroot := Scopes.wellFormed_root
  have hheap := Registry.wellFormed_bindAll (i := globalScope) hroot 0 r.table
  have hwithin : (Scopes.empty.push none).2.Within globalScope globalScope := ⟨Nat.one_pos, rfl⟩
  exact ⟨hheap, hwithin.mono hroot.ordered hheap.ordered (Registry.extends_bindAll 0 r.table)⟩

/-! ## The heap after an evaluation -/

/-- Every evaluation of a tree in a well-formed heap, with a value, with a fault
    or out of fuel, leaves a well-formed heap. The scopes that were there keep
    the scope around them and their names; a new scope is inside an older one, so
    that no chain runs in a circle or is cut off; a closure refers to a scope that
    exists; and the chains of all scopes in use end in the global scope `g`. -/
theorem eval_wellFormed {w : Setting} {g i : ScopeId} (fuel depth : Nat) (node : Node) (st : State)
    (hheap : st.scopes.WellFormed g) (hi : st.scopes.Within g i)
    (hhost : w.host.Native st.scopes g) {r : Result} (hr : eval w fuel depth i node st = r) :
    (∀ j < st.scopes.size, r.state.scopes.outer? j = st.scopes.outer? j ∧
      st.scopes.names j ⊆ r.state.scopes.names j) ∧
    (∀ j, st.scopes.size ≤ j → j < r.state.scopes.size →
      r.state.scopes.root? j = some g ∧ ∃ o < j, r.state.scopes.outer? j = some o) ∧
    (∀ j, ¬ Relation.TransGen (fun a b => r.state.scopes.outer? a = some b) j j) ∧
    (∀ j < r.state.scopes.size,
      (∀ n > j, r.state.scopes.chainFrom n j = r.state.scopes.chain j) ∧
      ∃ k, r.state.scopes.root? j = some k ∧ r.state.scopes.outer? k = none) ∧
    (∀ j scope, r.state.scopes.get? j = some scope → ∀ b ∈ scope.bindings, ∀ home,
      b.2.home? = some home → home < r.state.scopes.size) ∧
    (∀ v home, r.outcome = .value v → v.home? = some home → r.state.scopes.Within g home) ∧
    ∀ j, r.state.scopes.InUse i j → r.state.scopes.Within g j := by
  let I := heapInvariant w st.scopes g hhost
  have hkept : I.Upheld st r := by
    rw [← hr]
    exact (I.kept fuel).node depth i node st (.refl hheap) hi
  -- The rest reads the invariant at the end of the evaluation.
  obtain ⟨hgrows, hafter, hcreated⟩ := hkept.state
  have hordered := hafter.ordered
  have hi' : r.state.scopes.Within g i := hi.mono hheap.ordered hordered hgrows
  refine ⟨?_, ?_, hordered.acyclic, ?_, hafter.homes, ?_, ?_⟩
  · intro j hj
    exact ⟨hgrows.outer? j hj, hgrows.names j⟩
  · intro j hnew hj
    obtain ⟨hwithin, o, houter⟩ := hcreated j hnew hj
    exact ⟨hwithin.2, o, hordered j o houter, houter⟩
  · intro j hj
    exact ⟨fun n hn => hordered.chainFrom_eq_chain hj hn, hordered.exists_root hj⟩
  · intro v home hv hhome
    -- A value that is on its way out of a call counts as the value it carries.
    have howned : r.state.scopes.Owns g v.unwrap := hkept.value v hv
    rw [Scopes.Owns, Value.home?_unwrap] at howned
    exact howned home hhome
  · intro j hj
    exact hafter.within_of_inUse hi' hj

/-- The closure that a call made and the host handed back is stored in the global
    scope. It refers to the scope of that call, which is inside the global one. -/
theorem eval_wellFormed_returned_closure :
    let i := Interpreter.ofRegistry ⟨[(text "same", .custom (text "same"))], false, false⟩
    let host : Host := ⟨fun _ _ arguments => ⟨[], .ok arguments.head?⟩, .steady⟩
    let w : Setting := ⟨host, .open, .background, 0⟩
    let inner : Node := .func (text "inner") [] (.mk [.ident (text "x")] true)
    let outer : Node := .func (text "outer") [text "x"]
      (.mk [inner, .ret (.ident (text "inner"))] false)
    let call : Node := .call (.ident (text "same")) [.call (.ident (text "outer")) [.int 1]]
    let r := eval w 20 0 Interpreter.globalScope
      (.block (.mk [outer, .assign (.ident (text "kept")) call] false))
      ⟨i.scopes, i.identities, 0, [], []⟩
    (r.state.scopes.lookup? Interpreter.globalScope (text "kept")).bind Value.home? = some 1 ∧
      r.state.scopes.size = 2 ∧ r.state.scopes.root? 1 = some Interpreter.globalScope := by
  refine ⟨by decide +kernel, by decide +kernel, ?_⟩
  obtain ⟨hheap, hglobal⟩ := Interpreter.wellFormed_ofRegistry
    ⟨[(text "same", .custom (text "same"))], false, false⟩
  refine ((eval_wellFormed 20 0 _ ⟨_, _, 0, [], []⟩ hheap hglobal ?_ rfl).2.1 1
    (by decide +kernel) (by decide +kernel)).1
  intro key sink arguments v t _ _ harguments hv
  have hfirst : arguments.head? = some v := Except.ok.inj hv
  exact harguments v (List.mem_of_head? hfirst)

end Scriptlet
