/-
  Scriptlet.Proofs.Scope.Writing

  What a write to one scope changes for all others.

  The scope that a name is read from is the nearest one on the chain that binds it
  (`NearestOwner`), and in a heap whose links lead to older scopes the search along
  a chain finds it (`Ordered.owner?_eq_some_iff`). Binding a name in a scope moves
  no link, so a chain meets the same scopes as before, and only where it meets the
  written one first does it find the new value (`lookup?_define`). With that,
  `write_exact` says for an assignment when it fails, where it writes, and what
  every scope sees of it.
-/
import Scriptlet.Evaluation
import Scriptlet.Proofs.Scope
import Mathlib.Logic.Relation

namespace Scriptlet

namespace Scopes

variable {s : Scopes} {i j o o' : ScopeId} {name m : Name} {v : Value}

/-! ## Owners -/

/-- The scope `o` is on the chain of `i`: it is `i` itself or around it. -/
def Around (s : Scopes) (i o : ScopeId) : Prop :=
  Relation.ReflTransGen (fun i o => s.outer? i = some o) i o

/-- No scope on the chain binds the name. -/
def Unbound (s : Scopes) (name : Name) (i : ScopeId) : Prop :=
  ∀ o, s.Around i o → s.own? o name = none

/-- The scope `o` is the first on the chain that binds the name. -/
inductive NearestOwner (s : Scopes) (name : Name) : ScopeId → ScopeId → Prop where
  | self {i : ScopeId} : (s.own? i name).isSome → NearestOwner s name i i
  | outer {i j o : ScopeId} : s.own? i name = none → s.outer? i = some j →
      NearestOwner s name j o → NearestOwner s name i o

/-- A scope that binds the name is its own owner of it. -/
theorem owner?_of_own (hown : (s.own? i name).isSome) : s.owner? i name = some i := by
  obtain ⟨v, hv⟩ := Option.isSome_iff_exists.mp hown
  obtain ⟨scope, hscope, -⟩ := Option.bind_eq_some_iff.mp hv
  -- The chain starts with the scope itself, whether or not another is around it.
  cases houter : s.outer? i with
  | none =>
    rw [owner?, chain, chainFrom_of_root (lt_size_of_get? hscope) houter]
    exact List.find?_cons_of_pos hown
  | some j =>
    rw [owner?, chain, chainFrom_of_outer houter]
    exact List.find?_cons_of_pos hown

/-- A root that does not bind the name has no owner for it. -/
theorem owner?_of_root (hown : s.own? i name = none) (hroot : s.outer? i = none) :
    s.owner? i name = none := by
  rw [owner?, chain]
  cases hi : s.get? i with
  -- A scope that does not exist has an empty chain.
  | none => simp [chainFrom, hi]
  | some scope =>
    rw [chainFrom_of_root (lt_size_of_get? hi) hroot]
    simp [hown]

/-- A scope that does not bind the name leaves the search to the scope around it. -/
theorem Ordered.owner?_of_outer (h : s.Ordered) (hown : s.own? i name = none)
    (houter : s.outer? i = some j) : s.owner? i name = s.owner? j name := by
  rw [owner?, h.chain_of_outer houter, owner?]
  exact List.find?_cons_of_neg (by simp [hown])

/-- The search along the chain finds the nearest owner. -/
theorem Ordered.owner?_eq_some_iff (h : s.Ordered) :
    s.owner? i name = some o ↔ s.NearestOwner name i o := by
  constructor
  · -- Links lead to older scopes, so the induction is on the number of the scope.
    intro howner
    induction i using Nat.strongRecOn with
    | _ i ih =>
      cases hown : s.own? i name with
      | some v =>
        have hself : (s.own? i name).isSome := by rw [hown]; rfl
        rw [owner?_of_own hself, Option.some.injEq] at howner
        exact howner ▸ .self hself
      | none =>
        cases houter : s.outer? i with
        | none =>
          rw [owner?_of_root hown houter] at howner
          cases howner
        | some j =>
          rw [h.owner?_of_outer hown houter] at howner
          exact .outer hown houter (ih j (h i j houter) howner)
  · intro hnearest
    induction hnearest with
    | self hown => exact owner?_of_own hown
    | outer hown houter _ ih => rw [h.owner?_of_outer hown houter, ih]

/-- The search finds nothing just if no scope on the chain binds the name. -/
theorem Ordered.owner?_eq_none_iff (h : s.Ordered) :
    s.owner? i name = none ↔ s.Unbound name i := by
  constructor
  · intro howner o haround
    -- The search is followed outwards, up to the scope `o`.
    induction haround using Relation.ReflTransGen.head_induction_on with
    | refl =>
      cases hown : s.own? o name with
      | none => rfl
      | some v =>
        rw [owner?_of_own (by rw [hown]; rfl)] at howner
        cases howner
    | @head i j houter _ ih =>
      apply ih
      cases hown : s.own? i name with
      | none => rwa [h.owner?_of_outer hown houter] at howner
      | some v =>
        rw [owner?_of_own (by rw [hown]; rfl)] at howner
        cases howner
  · intro hunbound
    cases howner : s.owner? i name with
    | none => rfl
    | some o =>
      -- An owner would bind the name, and it is on the chain.
      have hnearest := h.owner?_eq_some_iff.mp howner
      induction hnearest with
      | @self i hown =>
        rw [hunbound i .refl] at hown
        cases hown
      | @outer i j o hown houter _ ih =>
        rw [h.owner?_of_outer hown houter] at howner
        exact ih (fun o haround => hunbound o (.head houter haround)) howner

/-! ## Binding a name -/

/-- Binding a name moves no chain. -/
theorem chainFrom_define (fuel : Nat) (j : ScopeId) :
    (s.define i name v).chainFrom fuel j = s.chainFrom fuel j := by
  induction fuel generalizing j with
  | zero => rfl
  | succ fuel ih =>
    by_cases hj : j < s.size
    · have hj' : j < (s.define i name v).size := by rwa [size_define]
      have hsame : (s.define i name v).outer? j = s.outer? j := outer?_define
      cases houter : s.outer? j with
      | none => rw [chainFrom_of_root hj houter, chainFrom_of_root hj' (hsame.trans houter)]
      | some o => rw [chainFrom_of_outer houter, chainFrom_of_outer (hsame.trans houter), ih]
    · -- A chain from a scope that does not exist is empty in both heaps.
      have hnone : s.get? j = none := get?_eq_none_iff.mpr (Nat.le_of_not_lt hj)
      have hnone' : (s.define i name v).get? j = none := by
        rw [get?_eq_none_iff, size_define]
        exact Nat.le_of_not_lt hj
      simp only [chainFrom, hnone, hnone']

/-- A search that does not stop at the one element that has come to satisfy the
    test goes as before. -/
theorem find?_eq_of_ne {p q : ScopeId → Bool} (hq : q o = true) (hsame : ∀ j, j ≠ o → q j = p j)
    {chain : List ScopeId} (h : chain.find? q ≠ some o) : chain.find? p = chain.find? q := by
  induction chain with
  | nil => rfl
  | cons j chain ih =>
    by_cases hj : j = o
    · subst hj
      -- The search would have stopped at `o`.
      exact absurd (List.find?_cons_of_pos hq) h
    · have htest := hsame j hj
      cases hp : p j with
      | true => rw [List.find?_cons_of_pos hp, List.find?_cons_of_pos (htest.trans hp)]
      | false =>
        have hp' : ¬ p j = true := by simp [hp]
        have hq' : ¬ q j = true := by simp [htest, hp]
        rw [List.find?_cons_of_neg hq'] at h
        rw [List.find?_cons_of_neg hp', List.find?_cons_of_neg hq', ih h]

/-- A name that was bound in the scope `i` has the new value where the chain comes to
    `i` first, and everything else is as before. -/
theorem lookup?_define (hi : i < s.size) (j : ScopeId) :
    (s.define i name v).lookup? j m =
      if m = name ∧ (s.define i name v).owner? j name = some i then some v else s.lookup? j m := by
  by_cases hname : m = name
  · subst hname
    by_cases howner : (s.define i m v).owner? j m = some i
    · rw [if_pos ⟨rfl, howner⟩, lookup?, howner, Option.bind_some, own?_define_self hi]
    · -- The search stops in front of `i` or does not come to it, as it did before.
      rw [if_neg fun h => howner h.2]
      have hsame : s.owner? j m = (s.define i m v).owner? j m := by
        have hself : ((s.define i m v).own? i m).isSome = true := by rw [own?_define_self hi]; rfl
        rw [owner?, owner?, chain, chain, chainFrom_define]
        rw [owner?, chain, chainFrom_define] at howner
        exact find?_eq_of_ne hself (fun o ho => by rw [own?_define_of_ne (Ne.symm ho)]) howner
      rw [lookup?, lookup?, hsame]
      cases hfound : (s.define i m v).owner? j m with
      | none => rfl
      | some o =>
        have ho : i ≠ o := fun h => howner (by rw [hfound, h])
        rw [Option.bind_some, Option.bind_some, own?_define_of_ne ho]
  · rw [if_neg fun h => hname h.1]
    -- Any other name is read as before in every scope.
    have hown : ∀ o, (s.define i name v).own? o m = s.own? o m := by
      intro o
      by_cases ho : i = o
      · exact ho ▸ own?_define_ne hname
      · exact own?_define_of_ne ho
    simp only [lookup?, owner?, chain, chainFrom_define, hown]

end Scopes

/-! ## What other scopes see -/

/-- After `name` was bound to `v` in the scope `o`, exactly the scopes for which `o` is
    now its nearest owner read `v`; whatever else is read, a fault included, is as
    before. -/
def State.Shows (before after : State) (o : ScopeId) (name : Name) (v : Value) : Prop :=
  ∀ (j : ScopeId) (m : Name),
    (m = name ∧ after.scopes.NearestOwner name j o → (after.read j m).outcome = .value v) ∧
    (¬ (m = name ∧ after.scopes.NearestOwner name j o) →
      (after.read j m).outcome = (before.read j m).outcome)

/-- Reading gives the value found along the chain, or the fault of an unbound name. -/
theorem State.outcome_read (st : State) (i : ScopeId) (name : Name) :
    (st.read i name).outcome =
      ((st.scopes.lookup? i name).elim (.fault (.eval (.unbound name))) .value) := by
  unfold read
  cases st.scopes.lookup? i name <;> rfl

/-- Binding a name in a scope shows in the scopes that reach it first and nowhere else. -/
theorem State.shows_define {st after : State} (h : st.scopes.Ordered) {o : ScopeId}
    (ho : o < st.scopes.size) {name : Name} {v : Value}
    (hafter : after.scopes = st.scopes.define o name v) : st.Shows after o name v := by
  intro j m
  rw [outcome_read, outcome_read, hafter, ← h.define.owner?_eq_some_iff, Scopes.lookup?_define ho]
  constructor
  · intro hreaches
    rw [if_pos hreaches]
    rfl
  · intro hother
    rw [if_neg hother]

theorem Scopes.NearestOwner.lt_size {s : Scopes} {name : Name} {i o : ScopeId}
    (h : s.NearestOwner name i o) : o < s.size := by
  induction h with
  | self hown =>
    obtain ⟨v, hv⟩ := Option.isSome_iff_exists.mp hown
    obtain ⟨scope, hscope, -⟩ := Option.bind_eq_some_iff.mp hv
    exact lt_size_of_get? hscope
  | outer _ _ _ ih => exact ih

/-- Where an assignment writes to. -/
theorem Scopes.Ordered.target?_eq_some_iff {s : Scopes} (h : s.Ordered) {name : Name}
    {i o : ScopeId} :
    s.target? i name = some o ↔
      s.NearestOwner name i o ∨ (s.Unbound name i ∧ s.isRoot i = true ∧ o = i) := by
  rw [← h.owner?_eq_some_iff, ← h.owner?_eq_none_iff, target?]
  cases s.owner? i name with
  | some o' => simp
  | none => simpa using fun _ => eq_comm

/-- An assignment has nowhere to write if no scope on the chain binds the name and it is made in
no root. -/
theorem Scopes.Ordered.target?_eq_none_iff {s : Scopes} (h : s.Ordered) {name : Name}
    {i : ScopeId} : s.target? i name = none ↔ s.Unbound name i ∧ s.isRoot i = false := by
  rw [← h.owner?_eq_none_iff, target?]
  cases s.owner? i name with
  | some o => simp
  | none => simp

/-- A write changes exactly what it should. Assigning to a name from the scope `i` fails
    just if no scope on the chain binds it and `i` is no root, with the fault of an
    unbound name and in the state as it was. Otherwise it writes to the nearest owner,
    or to `i` itself if there is none, and exactly the scopes that reach this one first
    see the new value; and so they do when the name is bound in `i` outright. -/
theorem State.write_exact {st : State} (htree : st.scopes.Ordered) {i : ScopeId}
    (hi : i < st.scopes.size) (name : Name) (v : Value) :
    (st.write i name v).state.scopes = (st.scopes.assign i name v).getD st.scopes ∧
    ((∃ f, (st.write i name v).outcome = .fault f ∧ f.code? = some .naming) ↔
      st.scopes.Unbound name i ∧ st.scopes.isRoot i = false) ∧
    (st.scopes.Unbound name i ∧ st.scopes.isRoot i = false → (st.write i name v).state = st) ∧
    (¬ (st.scopes.Unbound name i ∧ st.scopes.isRoot i = false) →
      (st.write i name v).outcome = .value v ∧
      ∃ o, (st.scopes.NearestOwner name i o ∨ st.scopes.Unbound name i ∧ o = i) ∧
        st.Shows (st.write i name v).state o name v) ∧
    st.Shows { st with scopes := st.scopes.define i name v } i name v := by
  have hdefine : st.Shows { st with scopes := st.scopes.define i name v } i name v :=
    shows_define htree hi rfl
  -- By the scope that the assignment writes to, if there is one.
  cases htarget : st.scopes.target? i name with
  | none =>
    have hfails := htree.target?_eq_none_iff.mp htarget
    have hwrite : st.write i name v = ⟨.fault (.eval (.unbound name)), st⟩ := by
      simp only [write, htarget]
    rw [hwrite, Scopes.assign, htarget]
    exact ⟨rfl, ⟨fun _ => hfails, fun _ => ⟨_, rfl, rfl⟩⟩, fun _ => rfl,
      fun hwrites => absurd hfails hwrites, hdefine⟩
  | some o =>
    have hsucceeds : ¬ (st.scopes.Unbound name i ∧ st.scopes.isRoot i = false) := by
      rw [← htree.target?_eq_none_iff, htarget]
      exact Option.some_ne_none o
    have hplace := htree.target?_eq_some_iff.mp htarget
    have ho : o < st.scopes.size := by
      rcases hplace with hnearest | ⟨-, -, rfl⟩
      · exact hnearest.lt_size
      · exact hi
    have hwrite : st.write i name v =
        ⟨.value v, { st with scopes := st.scopes.define o name v }.note (.assigned o name v)⟩ := by
      simp only [write, htarget]
    rw [hwrite, Scopes.assign, htarget]
    refine ⟨rfl, ⟨fun hfault => ?_, fun hfails => absurd hfails hsucceeds⟩,
      fun hfails => absurd hfails hsucceeds,
      fun _ => ⟨rfl, o, hplace.imp_right fun h => ⟨h.1, h.2.2⟩, shows_define htree ho rfl⟩,
      hdefine⟩
    -- A write with a target ends with the value, so it is no fault.
    obtain ⟨f, hf, -⟩ := hfault
    cases hf

/-- A global `x`, a call with a parameter of this name, and a call inside it. -/
def Scopes.shadowed : Scopes :=
  let globals := (empty.push none).2.define 0 (text "x") (.int 1)
  let outer := (globals.enter 0 [text "x"] [.int 2]).2
  (outer.enter 1 [] []).2

theorem Scopes.ordered_shadowed : shadowed.Ordered := by
  have hroot : (empty.push none).2.Ordered := by
    intro i o houter
    obtain ⟨scope, hscope, ho⟩ := Option.bind_eq_some_iff.mp houter
    rw [get?_root hscope] at ho
    cases ho
  exact (hroot.define.enter (by decide) _ _).enter (by decide) _ _

/-- From the inner call, `x` is the parameter around it, and `y` is nothing. -/
theorem State.write_exact_shadowed :
    let st : State := ⟨.shadowed, 0, 0, [], []⟩
    (∃ o, (st.scopes.NearestOwner (text "x") 2 o ∨ st.scopes.Unbound (text "x") 2 ∧ o = 2) ∧
      st.Shows (st.write 2 (text "x") (.int 3)).state o (text "x") (.int 3)) ∧
    (st.write 2 (text "y") (.int 3)).state = st := by
  intro st
  have htree : st.scopes.Ordered := Scopes.ordered_shadowed
  have hbound : ¬ (st.scopes.Unbound (text "x") 2 ∧ st.scopes.isRoot 2 = false) := by
    rw [← htree.target?_eq_none_iff]
    decide
  have hunbound : st.scopes.Unbound (text "y") 2 ∧ st.scopes.isRoot 2 = false := by
    rw [← htree.target?_eq_none_iff]
    decide
  exact ⟨((State.write_exact htree (by decide) (text "x") (.int 3)).2.2.2.1 hbound).2,
    (State.write_exact htree (by decide) (text "y") (.int 3)).2.2.1 hunbound⟩

end Scriptlet
