/-
  Scriptlet.Proofs.Scope

  The heap of scopes under the operations on it. Binding a name changes one
  binding of one scope and no link, a new scope stands at the end of the heap,
  and so every heap only grows out of an earlier one (`Extends`): its scopes
  keep their place, the scope around them and the names that they bind.

  In a heap whose links lead to older scopes (`Ordered`) the fuel of a chain is
  always enough: a chain ends in a root (`exists_root`), which is the same for
  all scopes on it.
-/
import Scriptlet.Scope
import Mathlib.Tactic.Common

namespace Scriptlet

/-! ## Bindings -/

namespace Bindings

variable {bs : Bindings} {name m : Name} {v : Value}

/-- Binding a name adds that name and keeps all others. -/
theorem mem_names_bind : m ∈ (bs.bind name v).names ↔ m ∈ bs.names ∨ m = name := by
  induction bs with
  | nil => simp [bind, names]
  | cons b bs ih =>
    obtain ⟨n, w⟩ := b
    simp only [names] at ih
    by_cases hn : n = name
    · simp only [bind, hn, beq_self_eq_true, if_true, names, List.map_cons, List.mem_cons]
      -- The name stands first already, and both sides are the names there were.
      tauto
    · simp only [bind, hn, beq_iff_eq, if_false, names, List.map_cons, List.mem_cons, ih]
      tauto

/-- A name that is bound already keeps its place. -/
theorem names_bind_of_mem (h : name ∈ bs.names) : (bs.bind name v).names = bs.names := by
  induction bs with
  | nil => cases h
  | cons b bs ih =>
    obtain ⟨n, w⟩ := b
    by_cases hn : n = name
    · simp [bind, names, hn]
    · have hrest : name ∈ names bs := by simpa [names, Ne.symm hn] using h
      have hsame := ih hrest
      simp only [names] at hsame
      simp [bind, names, hn, hsame]

/-- A binding brings no value but its own. -/
theorem eq_or_mem_of_mem_bind {b : Name × Value} (h : b ∈ bs.bind name v) : b.2 = v ∨ b ∈ bs := by
  induction bs with
  | nil =>
    rw [bind, List.mem_singleton] at h
    exact .inl (by rw [h])
  | cons c bs ih =>
    obtain ⟨n, w⟩ := c
    rw [bind] at h
    split at h
    · rcases List.mem_cons.mp h with rfl | hmem
      · exact .inl rfl
      · exact .inr (List.mem_cons_of_mem _ hmem)
    · rcases List.mem_cons.mp h with rfl | hmem
      · exact .inr List.mem_cons_self
      · exact (ih hmem).imp_right (List.mem_cons_of_mem _)

/-- A value that is found is the value of a binding. -/
theorem mem_of_find? (h : bs.find? name = some v) : (name, v) ∈ bs := by
  induction bs with
  | nil => cases h
  | cons b bs ih =>
    obtain ⟨n, w⟩ := b
    rw [find?, List.lookup_cons] at h
    -- The first binding of the name is the one found; earlier ones are of other names.
    by_cases hn : name = n
    · subst hn
      simp only [beq_self_eq_true, Option.some.injEq] at h
      rw [h]
      exact List.mem_cons_self
    · have hne : (name == n) = false := by simpa using hn
      simp only [hne] at h
      exact List.mem_cons_of_mem _ (ih h)

/-- A name just bound has the value it was bound to. -/
theorem find?_bind_self (bs : Bindings) : (bs.bind name v).find? name = some v := by
  induction bs with
  | nil => simp [bind, find?]
  | cons b bs ih =>
    obtain ⟨n, w⟩ := b
    unfold bind
    split
    · rename_i hn
      simp [find?, eq_of_beq hn]
    · rename_i hn
      have hne : (name == n) = false := beq_false_of_ne fun h => hn (by simp [h])
      simpa [find?, List.lookup_cons, hne] using ih

theorem find?_bind_ne (h : m ≠ name) (bs : Bindings) : (bs.bind name v).find? m = bs.find? m := by
  induction bs with
  | nil => simp [bind, find?, List.lookup_cons, beq_false_of_ne h]
  | cons b bs ih =>
    obtain ⟨n, w⟩ := b
    unfold bind
    split
    · rename_i hn
      rw [eq_of_beq hn]
      simp [find?, List.lookup_cons, beq_false_of_ne h]
    · rw [find?, find?, List.lookup_cons, List.lookup_cons]
      rw [find?, find?] at ih
      rw [ih]

end Bindings

namespace Scopes

variable {s t u : Scopes} {i j o home : ScopeId} {name m : Name} {v : Value}

/-! ## Binding a name -/

@[simp]
theorem size_define : (s.define i name v).size = s.size := by
  simp [define, size]

/-- The scope that a name is bound in changes in its bindings alone. -/
theorem get?_define_self {scope : Scope} (h : s.get? i = some scope) :
    (s.define i name v).get? i = some { scope with bindings := scope.bindings.bind name v } := by
  rw [get?] at h
  simp [get?, define, Array.getElem?_modify, h]

/-- Binding a name in one scope leaves every other scope as it is. -/
theorem get?_define_ne (h : i ≠ j) : (s.define i name v).get? j = s.get? j := by
  simp [get?, define, Array.getElem?_modify, h]

theorem get?_eq_none_iff : s.get? i = none ↔ s.size ≤ i := by
  simp [get?, size]

theorem exists_get? (h : i < s.size) : ∃ scope, s.get? i = some scope :=
  ⟨s.cells[i], Array.getElem?_eq_getElem h⟩

theorem lt_size_of_get? {scope : Scope} (h : s.get? i = some scope) : i < s.size := by
  by_contra hge
  rw [get?_eq_none_iff.mpr (Nat.le_of_not_lt hge)] at h
  cases h

/-- Binding a name changes no link of the heap. -/
@[simp]
theorem outer?_define : (s.define i name v).outer? j = s.outer? j := by
  by_cases hij : i = j
  · subst hij
    cases hi : s.get? i with
    -- Binding a name makes no scope, so one that is missing stays so.
    | none =>
      have hnone : (s.define i name v).get? i = none := by
        rw [get?_eq_none_iff, size_define]
        exact get?_eq_none_iff.mp hi
      simp [outer?, hi, hnone]
    | some scope => simp [outer?, hi, get?_define_self hi]
  · simp [outer?, get?_define_ne hij]

theorem lt_size_of_outer? (h : s.outer? i = some o) : i < s.size := by
  rw [outer?] at h
  obtain ⟨scope, hscope, -⟩ := Option.bind_eq_some_iff.mp h
  exact lt_size_of_get? hscope

/-- The names of a scope are those of its bindings, sorted. -/
theorem mem_names : m ∈ s.names i ↔ ∃ scope, s.get? i = some scope ∧ m ∈ scope.bindings.names := by
  unfold names
  cases s.get? i with
  | none => simp
  | some scope => simp [Bytes.sort, List.mem_mergeSort]

theorem names_define_ne (h : i ≠ j) : (s.define i name v).names j = s.names j := by
  rw [names, names, get?_define_ne h]

/-- A scope binds one more name after a binding, the one just bound. -/
theorem mem_names_define (hi : i < s.size) :
    m ∈ (s.define i name v).names i ↔ m ∈ s.names i ∨ m = name := by
  obtain ⟨scope, hscope⟩ := exists_get? hi
  simp [mem_names, hscope, get?_define_self hscope, Bindings.mem_names_bind]

/-- Binding a name anew leaves the names of every scope as they were. -/
theorem names_define_of_mem (h : name ∈ s.names i) (j : ScopeId) :
    (s.define i name v).names j = s.names j := by
  by_cases hij : i = j
  · subst hij
    obtain ⟨scope, hscope, hname⟩ := mem_names.mp h
    simp [names, hscope, get?_define_self hscope, Bindings.names_bind_of_mem hname]
  · exact names_define_ne hij

/-- A name is read as it was last bound. -/
theorem own?_define_self (hi : i < s.size) : (s.define i name v).own? i name = some v := by
  obtain ⟨scope, hscope⟩ := exists_get? hi
  rw [own?, get?_define_self hscope]
  exact Bindings.find?_bind_self scope.bindings

/-- The other names of the scope are read as before. -/
theorem own?_define_ne (h : m ≠ name) : (s.define i name v).own? i m = s.own? i m := by
  cases hi : s.get? i with
  | none =>
    have hnone : (s.define i name v).get? i = none := by
      rw [get?_eq_none_iff, size_define]
      exact get?_eq_none_iff.mp hi
    rw [own?, own?, hi, hnone]
  | some scope =>
    rw [own?, own?, get?_define_self hi, hi]
    exact Bindings.find?_bind_ne h scope.bindings

theorem own?_define_of_ne (h : i ≠ j) : (s.define i name v).own? j m = s.own? j m := by
  rw [own?, own?, get?_define_ne h]

/-! ## New scopes -/

/-- A new scope leaves the scopes before it as they are. -/
theorem get?_push_of_lt (h : j < s.size) : (s.push (some home)).2.get? j = s.get? j := by
  have hne : j ≠ s.cells.size := Nat.ne_of_lt h
  simp [push, get?, Array.getElem?_push, hne]

/-- A new scope stands at the end of the heap and binds nothing. -/
theorem get?_push_size : (s.push (some home)).2.get? s.size = some ⟨some home, []⟩ := by
  simp [push, get?, size]

@[simp]
theorem size_bindParameters (ps : List Name) (as : List Value) :
    (s.bindParameters i ps as).size = s.size := by
  induction ps generalizing s as with
  | nil => rw [bindParameters]
  | cons p ps ih => cases as <;> simp [bindParameters, ih]

@[simp]
theorem outer?_bindParameters (ps : List Name) (as : List Value) :
    (s.bindParameters i ps as).outer? j = s.outer? j := by
  induction ps generalizing s as with
  | nil => rw [bindParameters]
  | cons p ps ih => cases as <;> simp [bindParameters, ih]

/-- The parameters of a call are bound in its own scope and nowhere else. -/
theorem get?_bindParameters_ne (h : i ≠ j) (ps : List Name) (as : List Value) :
    (s.bindParameters i ps as).get? j = s.get? j := by
  induction ps generalizing s as with
  | nil => rw [bindParameters]
  | cons p ps ih => cases as <;> simp [bindParameters, ih, get?_define_ne h]

/-- All parameters are bound, also those that no argument is given for. -/
theorem mem_names_bindParameters (hi : i < s.size) (ps : List Name) (as : List Value) :
    m ∈ (s.bindParameters i ps as).names i ↔ m ∈ s.names i ∨ m ∈ ps := by
  induction ps generalizing s as with
  | nil => simp [bindParameters]
  | cons p ps ih =>
    cases as with
    | nil =>
      rw [bindParameters, ih (by simpa using hi), mem_names_define hi]
      simp [or_assoc]
    | cons a as =>
      rw [bindParameters, ih (by simpa using hi), mem_names_define hi]
      simp [or_assoc]

section Enter

variable (s home) (ps : List Name) (as : List Value)

@[simp]
theorem size_enter : (s.enter home ps as).2.size = s.size + 1 := by
  show ((s.push (some home)).2.bindParameters s.size ps as).size = s.size + 1
  rw [size_bindParameters]
  simp [push, size]

/-- A call leaves the scopes that exist before it as they are. -/
theorem get?_enter_of_lt (h : j < s.size) : (s.enter home ps as).2.get? j = s.get? j := by
  have hne : s.size ≠ j := Nat.ne_of_gt h
  -- `enter` pushes a scope at `s.size` and binds the parameters there.
  show ((s.push (some home)).2.bindParameters s.size ps as).get? j = s.get? j
  rw [get?_bindParameters_ne hne, get?_push_of_lt h]

theorem outer?_enter_of_lt (h : j < s.size) : (s.enter home ps as).2.outer? j = s.outer? j := by
  rw [outer?, get?_enter_of_lt s home ps as h, outer?]

theorem names_enter_of_lt (h : j < s.size) : (s.enter home ps as).2.names j = s.names j := by
  rw [names, get?_enter_of_lt s home ps as h, names]

/-- The scope of a call lies inside the scope that its closure was made in. -/
theorem outer?_enter_size : (s.enter home ps as).2.outer? s.size = some home := by
  show ((s.push (some home)).2.bindParameters s.size ps as).outer? s.size = some home
  rw [outer?_bindParameters, outer?, get?_push_size]
  rfl

/-- The scope of a call binds the parameters and nothing else. -/
theorem mem_names_enter_size : m ∈ (s.enter home ps as).2.names s.size ↔ m ∈ ps := by
  show m ∈ ((s.push (some home)).2.bindParameters s.size ps as).names s.size ↔ m ∈ ps
  have hlt : s.size < (s.push (some home)).2.size := by simp [push, size]
  -- A scope just pushed is empty, so only the parameters are left.
  have hnew : m ∉ (s.push (some home)).2.names s.size := by
    simp [mem_names, get?_push_size, Bindings.names]
  rw [mem_names_bindParameters hlt]
  simp [hnew]

end Enter

/-! ## Stored values -/

/-- Every value that a scope binds satisfies `P`, which may look at the
    scope. -/
def Every (P : ScopeId → Value → Prop) (s : Scopes) : Prop :=
  ∀ i scope, s.get? i = some scope → ∀ b ∈ scope.bindings, P i b.2

namespace Every

variable {P Q : ScopeId → Value → Prop}

theorem imp (h : s.Every P) (hPQ : ∀ i v, i < s.size → P i v → Q i v) : s.Every Q := by
  intro i scope hscope b hb
  exact hPQ i b.2 (lt_size_of_get? hscope) (h i scope hscope b hb)

/-- Binding a value that satisfies `P` keeps the values of all scopes in `P`. -/
theorem define (h : s.Every P) (i : ScopeId) (name : Name) (hv : P i v) :
    (s.define i name v).Every P := by
  intro j scope hscope b hb
  by_cases hij : i = j
  · subst hij
    have hi : i < s.size := by simpa using lt_size_of_get? hscope
    obtain ⟨before, hbefore⟩ := exists_get? hi
    rw [get?_define_self hbefore, Option.some.injEq] at hscope
    subst hscope
    -- A binding of the changed scope is the new one or was there before.
    rcases Bindings.eq_or_mem_of_mem_bind hb with hnew | hold
    · rw [hnew]
      exact hv
    · exact h i before hbefore b hold
  · rw [get?_define_ne hij] at hscope
    exact h j scope hscope b hb

/-- Arguments in `P` are bound in `P`; a parameter without one is bound to `false`. -/
theorem bindParameters (h : s.Every P) (hfalse : P i (.bool false)) (ps : List Name)
    {as : List Value} (has : ∀ a ∈ as, P i a) : (s.bindParameters i ps as).Every P := by
  induction ps generalizing s as with
  | nil =>
    rw [Scopes.bindParameters]
    exact h
  | cons p ps ih =>
    cases as with
    | nil =>
      rw [Scopes.bindParameters]
      exact ih (h.define i p hfalse) has
    | cons a as =>
      rw [Scopes.bindParameters]
      have ha : P i a := has a List.mem_cons_self
      exact ih (h.define i p ha) fun b hb => has b (List.mem_cons_of_mem a hb)

theorem push (h : s.Every P) (home : ScopeId) : (s.push (some home)).2.Every P := by
  intro j scope hscope b hb
  have hlt : j < s.size + 1 := by simpa [Scopes.push, size] using lt_size_of_get? hscope
  rcases Nat.lt_succ_iff_lt_or_eq.mp hlt with hold | rfl
  · rw [get?_push_of_lt hold] at hscope
    exact h j scope hscope b hb
  · rw [get?_push_size, Option.some.injEq] at hscope
    subst hscope
    cases hb

/-- A call whose arguments satisfy `P` keeps every stored value in `P`. -/
theorem enter (h : s.Every P) (home : ScopeId) (hfalse : P s.size (.bool false))
    (ps : List Name) {as : List Value} (has : ∀ a ∈ as, P s.size a) :
    (s.enter home ps as).2.Every P :=
  (h.push home).bindParameters hfalse ps has

end Every

theorem get?_root {scope : Scope} (h : (empty.push none).2.get? i = some scope) :
    scope = ⟨none, []⟩ := by
  cases i with
  | zero =>
    cases h
    rfl
  | succ i => cases h

/-- The first scope of a heap binds nothing, so every property holds of its values. -/
theorem every_root {P : ScopeId → Value → Prop} : (empty.push none).2.Every P := by
  intro i scope hscope b hb
  rw [get?_root hscope] at hb
  cases hb

/-! ## Reading and assigning -/

/-- A name that has a value in a scope is among the names of the scope. -/
theorem mem_names_of_own? (h : (s.own? i name).isSome) : name ∈ s.names i := by
  obtain ⟨v, hv⟩ := Option.isSome_iff_exists.mp h
  obtain ⟨scope, hscope, hfind⟩ := Option.bind_eq_some_iff.mp hv
  refine mem_names.mpr ⟨scope, hscope, ?_⟩
  exact List.mem_map_of_mem (f := Prod.fst) (Bindings.mem_of_find? hfind)

/-- The owner of a name is a scope of the chain that binds it. -/
theorem owner?_eq_some (h : s.owner? i name = some o) : o ∈ s.chain i ∧ name ∈ s.names o := by
  rw [owner?] at h
  have hown : (s.own? o name).isSome = true :=
    List.find?_some (p := fun o => (s.own? o name).isSome) h
  exact ⟨List.mem_of_find?_eq_some h, mem_names_of_own? hown⟩

/-- A name that is read is stored in a scope of the chain. -/
theorem Every.lookup? {P : ScopeId → Value → Prop} (h : s.Every P)
    (hv : s.lookup? i name = some v) : ∃ o ∈ s.chain i, P o v := by
  obtain ⟨o, howner, hown⟩ := Option.bind_eq_some_iff.mp hv
  obtain ⟨scope, hscope, hfind⟩ := Option.bind_eq_some_iff.mp hown
  exact ⟨o, (owner?_eq_some howner).1, h o scope hscope _ (Bindings.mem_of_find? hfind)⟩

/-- An assignment writes to a scope of the chain that binds the name, or else to
    a root itself. -/
theorem target?_cases (h : s.target? i name = some o) :
    (o ∈ s.chain i ∧ name ∈ s.names o) ∨ (o = i ∧ s.outer? i = none) := by
  rw [target?] at h
  cases howner : s.owner? i name with
  | some o' =>
    rw [howner, Option.some.injEq] at h
    subst h
    exact .inl (owner?_eq_some howner)
  -- No scope of the chain owns the name: only a root takes it then.
  | none =>
    rw [howner] at h
    simp only [isRoot, Option.isNone_iff_eq_none, Option.ite_none_right_eq_some,
      Option.some.injEq] at h
    exact .inr ⟨h.2.symm, h.1⟩

/-! ## Growth -/

/-- `t` grew out of `s`: scopes keep their place, the scope around them and
    the names that they bind. -/
structure Extends (s t : Scopes) : Prop where
  size_le : s.size ≤ t.size
  outer? : ∀ i < s.size, t.outer? i = s.outer? i
  names : ∀ i, s.names i ⊆ t.names i

namespace Extends

theorem refl (s : Scopes) : s.Extends s := ⟨Nat.le_refl _, fun _ _ => rfl, fun _ _ h => h⟩

/-- Growth composes: links are compared on the scopes of the older heap only. -/
theorem trans (hst : s.Extends t) (htu : t.Extends u) : s.Extends u where
  size_le := Nat.le_trans hst.size_le htu.size_le
  outer? i hi := by rw [htu.outer? i (Nat.lt_of_lt_of_le hi hst.size_le), hst.outer? i hi]
  names i _ hm := htu.names i (hst.names i hm)

/-- Binding a name is growth: the scope gains at most that name. -/
theorem define (s : Scopes) (i : ScopeId) (name : Name) (v : Value) :
    s.Extends (s.define i name v) where
  size_le := Nat.le_of_eq size_define.symm
  outer? _ _ := outer?_define
  names j m hm := by
    by_cases hij : i = j
    · subst hij
      obtain ⟨scope, hscope, -⟩ := mem_names.mp hm
      exact (mem_names_define (lt_size_of_get? hscope)).mpr (.inl hm)
    · rwa [names_define_ne hij]

/-- A call is growth: the old scopes keep their names and a new one is added. -/
theorem enter (s : Scopes) (home : ScopeId) (ps : List Name) (as : List Value) :
    s.Extends (s.enter home ps as).2 where
  size_le := by rw [size_enter]; exact Nat.le_succ _
  outer? _ hj := outer?_enter_of_lt s home ps as hj
  names j m hm := by
    obtain ⟨scope, hscope, -⟩ := mem_names.mp hm
    rwa [names_enter_of_lt s home ps as (lt_size_of_get? hscope)]

end Extends

/-! ## Chains and roots -/

/-- Every scope is younger than the one around it. -/
def Ordered (s : Scopes) : Prop := ∀ i o, s.outer? i = some o → o < i

/-- The outermost scope around a scope. -/
def root? (s : Scopes) (i : ScopeId) : Option ScopeId := (s.chain i).getLast?

/-- The chain of a root is the root alone. -/
theorem chainFrom_of_root (hi : i < s.size) (hroot : s.outer? i = none) (fuel : Nat) :
    s.chainFrom (fuel + 1) i = [i] := by
  obtain ⟨scope, hscope⟩ := exists_get? hi
  have houter : scope.outer = none := by simpa [Scopes.outer?, hscope] using hroot
  simp [chainFrom, hscope, houter]

/-- The chain of an inner scope goes on with the chain of the scope around it. -/
theorem chainFrom_of_outer (houter : s.outer? i = some o) (fuel : Nat) :
    s.chainFrom (fuel + 1) i = i :: s.chainFrom fuel o := by
  obtain ⟨scope, hscope⟩ := exists_get? (lt_size_of_outer? houter)
  have houter' : scope.outer = some o := by simpa [Scopes.outer?, hscope] using houter
  simp [chainFrom, hscope, houter']

/-- A root sees its own bindings. -/
theorem lookup?_of_root (hi : i < s.size) (hroot : s.outer? i = none) :
    s.lookup? i name = s.own? i name := by
  rw [lookup?, owner?, chain, chainFrom_of_root hi hroot]
  cases hown : s.own? i name <;> simp [hown]

namespace Ordered

/-- A chain is never cut off: more fuel finds no further scope. -/
theorem chainFrom_eq_chain (h : s.Ordered) (hi : i < s.size) {fuel : Nat} (hfuel : i < fuel) :
    s.chainFrom fuel i = s.chain i := by
  -- Links lead to older scopes, so the induction is on the number of the scope.
  induction i using Nat.strongRecOn generalizing fuel with
  | _ i ih =>
    obtain ⟨extra, rfl⟩ := Nat.exists_eq_add_of_lt hfuel
    rw [chain]
    cases houter : s.outer? i with
    | none => rw [chainFrom_of_root hi houter, chainFrom_of_root hi houter]
    | some o =>
      have ho : o < i := h i o houter
      have hlong := ih o ho (Nat.lt_trans ho hi) (Nat.lt_add_right extra ho)
      have hshort := ih o ho (Nat.lt_trans ho hi) ho
      rw [chainFrom_of_outer houter, chainFrom_of_outer houter, hlong, hshort]

/-- In an ordered heap a chain is the scope and the whole chain around it. -/
theorem chain_of_outer (h : s.Ordered) (houter : s.outer? i = some o) :
    s.chain i = i :: s.chain o := by
  have hi := lt_size_of_outer? houter
  have ho : o < i := h i o houter
  rw [chain, chainFrom_of_outer houter, h.chainFrom_eq_chain (Nat.lt_trans ho hi) ho]

theorem root?_of_root (hi : i < s.size) (hroot : s.outer? i = none) : s.root? i = some i := by
  rw [root?, chain, chainFrom_of_root hi hroot]
  rfl

/-- A scope has the root of the scope around it. -/
theorem root?_of_outer (h : s.Ordered) (houter : s.outer? i = some o) : s.root? i = s.root? o := by
  have ho : o < s.size := Nat.lt_trans (h i o houter) (lt_size_of_outer? houter)
  have hne : s.chain o ≠ [] := by
    cases houter' : s.outer? o with
    | none =>
      rw [chain, chainFrom_of_root ho houter']
      exact List.cons_ne_nil _ _
    | some o' =>
      rw [h.chain_of_outer houter']
      exact List.cons_ne_nil _ _
  -- The last element of a longer list is the last of its tail.
  obtain ⟨x, xs, hxs⟩ := List.exists_cons_of_ne_nil hne
  rw [root?, h.chain_of_outer houter, root?, hxs, List.getLast?_cons_cons]

/-- A chain ends in a root. -/
theorem exists_root (h : s.Ordered) (hi : i < s.size) :
    ∃ g, s.root? i = some g ∧ s.outer? g = none := by
  induction i using Nat.strongRecOn with
  | _ i ih =>
    cases houter : s.outer? i with
    | none => exact ⟨i, root?_of_root hi houter, houter⟩
    | some o =>
      have ho : o < i := h i o houter
      rw [h.root?_of_outer houter]
      exact ih o ho (Nat.lt_trans ho hi)

/-- All scopes on a chain exist and have the same root. -/
theorem of_mem_chain (h : s.Ordered) (hi : i < s.size) (ho : o ∈ s.chain i) :
    o < s.size ∧ s.root? o = s.root? i := by
  induction i using Nat.strongRecOn with
  | _ i ih =>
    cases houter : s.outer? i with
    | none =>
      rw [chain, chainFrom_of_root hi houter, List.mem_singleton] at ho
      subst ho
      exact ⟨hi, rfl⟩
    | some o' =>
      rw [h.chain_of_outer houter] at ho
      -- The scope itself, or one further out, which has the same root.
      rcases List.mem_cons.mp ho with rfl | hmem
      · exact ⟨hi, rfl⟩
      · have ho' : o' < i := h i o' houter
        rw [h.root?_of_outer houter]
        exact ih o' ho' (Nat.lt_trans ho' hi) hmem

/-- A scope keeps its root as the heap grows. -/
theorem root?_of_extends (hs : s.Ordered) (ht : t.Ordered) (hst : s.Extends t) (hi : i < s.size) :
    t.root? i = s.root? i := by
  induction i using Nat.strongRecOn with
  | _ i ih =>
    -- Growth keeps the links, so both heaps walk the same chain.
    have hsame : t.outer? i = s.outer? i := hst.outer? i hi
    cases houter : s.outer? i with
    | none =>
      rw [root?_of_root hi houter]
      exact root?_of_root (Nat.lt_of_lt_of_le hi hst.size_le) (hsame.trans houter)
    | some o =>
      have ho : o < i := hs i o houter
      rw [hs.root?_of_outer houter, ht.root?_of_outer (hsame.trans houter)]
      exact ih o ho (Nat.lt_trans ho hi)

/-- Binding a name keeps a heap ordered, as it changes no link. -/
theorem define (h : s.Ordered) : (s.define i name v).Ordered := by
  intro j o houter
  rw [outer?_define] at houter
  exact h j o houter

/-- A call keeps a heap ordered: the scope of its closure is older than its own. -/
theorem enter (h : s.Ordered) (hhome : home < s.size) (ps : List Name) (as : List Value) :
    (s.enter home ps as).2.Ordered := by
  intro j o houter
  have hj : j < s.size + 1 := by simpa using lt_size_of_outer? houter
  -- An old scope keeps its link, the new one leads to `home`.
  rcases Nat.lt_succ_iff_lt_or_eq.mp hj with hold | rfl
  · rw [outer?_enter_of_lt s home ps as hold] at houter
    exact h j o houter
  · rw [outer?_enter_size, Option.some.injEq] at houter
    subst houter
    exact hhome

end Ordered

end Scopes

end Scriptlet
