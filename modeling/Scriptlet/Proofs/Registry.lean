/-
  Scriptlet.Proofs.Registry

  The registry of builtins over whole histories of operations. What an operation can
  do to a registry is said once (`Operation.Effect`): it leaves everything as it was, puts
  one function under one name, takes one name away, or changes the options. From that
  follow what every history keeps (`Sound`), that a frozen registry stays as it is, and
  that a name keeps its function until it is taken away or may be overridden.

  A global scope binds the names that are registered when it is made
  (`get?_pushGlobal`), and no later operation changes it.
-/
import Scriptlet.Interpreter
import Scriptlet.Proofs.Scope
import Scriptlet.Proofs.Lexing

namespace Scriptlet

/-! ## Names and white space -/

/-- A text of ASCII is one character a byte. -/
theorem Utf8.pieces_ascii {bs : Bytes} (h : ∀ b ∈ bs, b < 0x80) :
    pieces bs = bs.map fun b => .char b.toNat [b] := by
  induction bs with
  | nil => rw [pieces, List.map_nil]
  | cons b bs ih =>
    have hnext : next b bs = (.char b.toNat [b], bs) := by
      rw [next, if_pos (h b List.mem_cons_self)]
    rw [pieces, hnext, ih fun c hc => h c (List.mem_cons_of_mem b hc), List.map_cons]

theorem Byte.plain_of_identifierPart {b : UInt8} (h : isIdentifierPart b = true) :
    b < 0x80 ∧ Blank.isBlank b.toNat = false := by
  -- One check for each of the 256 bytes.
  have := forall_of_all
    (p := fun b => !isIdentifierPart b || (decide (b < 0x80) && !Blank.isBlank b.toNat))
    (by decide +kernel) b
  simpa [h] using this

/-- There is no white space around a name. -/
theorem Blank.trim_of_identifier {name : Bytes} (h : isIdentifier name = true) :
    trim name = name := by
  have hplain := fun b hb => Byte.plain_of_identifierPart (isIdentifierPart_of_mem h b hb)
  -- Trimming drops blanks at the front, then at the back as the front of the reverse.
  have hdrop : ∀ ps : List Utf8.Piece, (∀ p ∈ ps, isBlankPiece p = false) →
      ps.dropWhile isBlankPiece = ps := by
    intro ps hps
    cases ps with
    | nil => rfl
    | cons p ps => exact List.dropWhile_cons_of_neg (by simp [hps p List.mem_cons_self])
  have hsolid : ∀ p ∈ Utf8.pieces name, isBlankPiece p = false := by
    rw [Utf8.pieces_ascii fun b hb => (hplain b hb).1]
    intro p hp
    obtain ⟨b, hb, rfl⟩ := List.mem_map.mp hp
    exact (hplain b hb).2
  rw [trim, hdrop _ hsolid, hdrop _ fun p hp => hsolid p (List.mem_reverse.mp hp),
    List.reverse_reverse, Utf8.pieces_ascii fun b hb => (hplain b hb).1]
  simp [List.flatMap_map, Utf8.Piece.bytes]

/-- A name that is new is bound behind the others. -/
theorem Bindings.bind_of_not_mem {bs : Bindings} {name : Name} {v : Value}
    (h : name ∉ bs.names) : bs.bind name v = bs ++ [(name, v)] := by
  induction bs with
  | nil => rfl
  | cons b bs ih =>
    obtain ⟨n, w⟩ := b
    rw [names, List.map_cons, List.mem_cons, not_or] at h
    rw [bind, if_neg (by simpa using Ne.symm h.1), ih h.2, List.cons_append]

namespace Registry

/-! ## Tables -/

variable {table : List (Name × HostFunction)} {name other : Name} {f : HostFunction}

/-- Taking a name away takes away no other. -/
theorem mem_names_without :
    other ∈ (without name table).map Prod.fst ↔ other ∈ table.map Prod.fst ∧ other ≠ name := by
  simp only [without, List.mem_map, List.mem_filter, bne_iff_ne]
  constructor
  · rintro ⟨entry, ⟨hentry, hne⟩, rfl⟩
    exact ⟨⟨entry, hentry, rfl⟩, hne⟩
  · rintro ⟨⟨entry, hentry, rfl⟩, hne⟩
    exact ⟨entry, ⟨hentry, hne⟩, rfl⟩

/-- The other names keep their functions. -/
theorem lookup_without_ne (h : other ≠ name) :
    (without name table).lookup other = table.lookup other := by
  induction table with
  | nil => rfl
  | cons entry table ih =>
    obtain ⟨m, g⟩ := entry
    by_cases hm : m = name
    · subst hm
      have hother : (other == m) = false := beq_false_of_ne h
      simpa [without, List.lookup_cons, hother] using ih
    · rw [without, List.filter_cons_of_pos (by simpa using hm), List.lookup_cons, List.lookup_cons]
      rw [without] at ih
      rw [ih]

theorem lookup_isSome_iff : (table.lookup name).isSome ↔ name ∈ table.map Prod.fst := by
  induction table with
  | nil => simp
  | cons entry table ih =>
    obtain ⟨m, g⟩ := entry
    by_cases hm : name = m
    · simp [hm]
    · simp [List.lookup_cons, hm, ih, beq_false_of_ne hm]

theorem lookup_without_self : (without name table).lookup name = none := by
  rw [← Option.not_isSome_iff_eq_none, lookup_isSome_iff, mem_names_without]
  exact fun h => h.2 rfl

/-! ## Operations -/

/-- What can be asked of a registry. -/
inductive Operation where
  | register (name : Bytes) (f : Option HostFunction)
  | registerQuietly (name : Bytes) (f : Option HostFunction)
  | unregister (name : Bytes)
  | setOptions (allowOverride frozen : Bool)
  | freeze
  | unfreeze
  | newGlobal

/-- A registry, the heap of the scopes there are, and the next free identity. -/
structure World where
  registry : Registry
  scopes : Scopes
  identity : Nat

namespace World

/-- The registry is replaced if the operation on it succeeds. -/
def change (w : World) : Except RegistryProblem Registry → Except RegistryProblem Unit × World
  | .ok r => (.ok (), { w with registry := r })
  | .error problem => (.error problem, w)

/-- The answer to an operation and the world after it. -/
def step (w : World) : Operation → Except RegistryProblem Unit × World
  | .register name f => w.change (w.registry.register name f)
  | .registerQuietly name f => (.ok (), (w.change (w.registry.register name f)).2)
  | .unregister name => w.change (w.registry.unregister name)
  | .setOptions allowOverride frozen =>
    (.ok (), { w with registry := { w.registry with allowOverride, frozen } })
  | .freeze => (.ok (), { w with registry := w.registry.freeze })
  | .unfreeze => (.ok (), { w with registry := w.registry.unfreeze })
  | .newGlobal =>
    let (_, scopes, identity) := w.registry.pushGlobal w.scopes w.identity
    (.ok (), { w with scopes, identity })

/-- The world after operations in turn, failed ones included. -/
def run (w : World) (ops : List Operation) : World := ops.foldl (fun w op => (w.step op).2) w

end World

variable {r : Registry} {w : World} {op : Operation} {ops : List Operation}

/-- When a name is taken into the table. -/
structure Admits (r : Registry) (name : Name) : Prop where
  valid : isVariableName name = true
  thawed : r.frozen = false
  free : name ∈ r.names → r.allowOverride = true

theorem mem_names : name ∈ r.names ↔ (r.table.lookup name).isSome := by
  rw [lookup_isSome_iff, names, Bytes.sort, List.mem_mergeSort]

/-- A registration succeeds for a function and an admitted name, which then comes first. -/
theorem register_eq_ok {name : Bytes} {f? : Option HostFunction} {r' : Registry} :
    r.register name f? = .ok r' ↔ ∃ f, f? = some f ∧ r.Admits (Blank.trim name) ∧
      r' = { r with table := (Blank.trim name, f) :: without (Blank.trim name) r.table } := by
  cases f? with
  | none => simp [register]
  | some f =>
    unfold register
    dsimp only
    constructor
    · intro h
      -- Four tests stand before the registration, and each has its problem.
      repeat' split at h
      all_goals cases h
      rename_i hvalid hfrozen hfree
      refine ⟨f, rfl, ⟨by simpa using hvalid, by simpa using hfrozen, fun hmem => ?_⟩, rfl⟩
      simpa [mem_names.mp hmem] using hfree
    · rintro ⟨g, ⟨⟩, ⟨hvalid, hthawed, hfree⟩, rfl⟩
      rw [mem_names] at hfree
      -- An identifier is not empty, so the test for that passes as well.
      have hne : (Blank.trim name).isEmpty = false := by
        cases htrim : Blank.trim name with
        | nil => rw [htrim] at hvalid; cases hvalid
        | cons b bs => rfl
      rw [if_neg (by simp [hne]), if_neg (by simp [hvalid]), if_neg (by simp [hthawed]), if_neg]
      simpa using hfree

/-- A removal succeeds in a thawed registry that has the name. -/
theorem unregister_eq_ok {name : Bytes} {r' : Registry} :
    r.unregister name = .ok r' ↔ r.frozen = false ∧ Blank.trim name ∈ r.names ∧
      r' = { r with table := without (Blank.trim name) r.table } := by
  unfold unregister
  rw [mem_names]
  dsimp only
  constructor
  · intro h
    repeat' split at h
    all_goals cases h
    rename_i hfrozen hknown
    exact ⟨by simpa using hfrozen, by simpa [Option.isSome_iff_ne_none] using hknown, rfl⟩
  · rintro ⟨hthawed, hknown, rfl⟩
    rw [if_neg (by simp [hthawed]), if_neg (by simpa [Option.isSome_iff_ne_none] using hknown)]

/-- What an operation does to a registry. -/
inductive Effect (r : Registry) : Operation → Registry → Prop where
  | same (op : Operation) : Effect r op r
  | registered (op : Operation) (n : Name) (f : HostFunction) (h : r.Admits n) :
      Effect r op { r with table := (n, f) :: without n r.table }
  | unregistered (name : Bytes) (hthawed : r.frozen = false) (hmem : Blank.trim name ∈ r.names) :
      Effect r (.unregister name) { r with table := without (Blank.trim name) r.table }
  | options (op : Operation) (allowOverride frozen : Bool) :
      Effect r op { r with allowOverride, frozen }

/-- A registration leaves the registry as it was or adds the name. -/
theorem effect_register (w : World) (op : Operation) (name : Bytes) (f? : Option HostFunction) :
    w.registry.Effect op (w.change (w.registry.register name f?)).2.registry := by
  cases h : w.registry.register name f? with
  | error problem => exact .same op
  | ok r' =>
    obtain ⟨f, -, hadmits, rfl⟩ := register_eq_ok.mp h
    exact .registered op _ f hadmits

/-- No operation does anything else to a registry. -/
theorem effect_step (w : World) (op : Operation) :
    w.registry.Effect op (w.step op).2.registry := by
  cases op with
  | register name f? => exact effect_register w _ name f?
  | registerQuietly name f? => exact effect_register w _ name f?
  | unregister name =>
    rw [World.step]
    cases h : w.registry.unregister name with
    | error problem => exact .same _
    | ok r' =>
      obtain ⟨hthawed, hmem, rfl⟩ := unregister_eq_ok.mp h
      exact .unregistered name hthawed hmem
  | setOptions allowOverride frozen => exact .options _ allowOverride frozen
  -- The table stays, only the options change.
  | freeze => exact .options _ w.registry.allowOverride true
  | unfreeze => exact .options _ w.registry.allowOverride false
  | newGlobal => exact .same _

/-! ## What every history keeps -/

/-- The names can stand in a script, and each has one function. -/
structure Sound (r : Registry) : Prop where
  valid : ∀ name ∈ r.table.map Prod.fst, isVariableName name = true
  nodup : (r.table.map Prod.fst).Nodup

theorem sound_initial : initial.Sound where
  valid := by decide
  nodup := by decide

theorem sound_without (h : r.Sound) (name : Name) :
    Sound { r with table := without name r.table } where
  valid other hother := h.valid other (mem_names_without.mp hother).1
  nodup := h.nodup.sublist (List.filter_sublist.map Prod.fst)

/-- One operation keeps a registry sound. -/
theorem Sound.step (h : w.registry.Sound) (op : Operation) : (w.step op).2.registry.Sound := by
  have heffect := effect_step w op
  generalize (w.step op).2.registry = r' at heffect ⊢
  cases heffect with
  | same => exact h
  | registered _ n f hadmits =>
    have hrest := sound_without h n
    refine ⟨fun other hother => ?_, List.nodup_cons.mpr ⟨fun hmem => ?_, hrest.nodup⟩⟩
    · rcases List.mem_cons.mp hother with rfl | hother
      · exact hadmits.valid
      · exact hrest.valid other hother
    · -- An older entry of the name was taken away, so it stands in the table once.
      exact (mem_names_without.mp hmem).2 rfl
  | unregistered name => exact sound_without h _
  | options => exact ⟨h.valid, h.nodup⟩

theorem Sound.run (h : w.registry.Sound) (ops : List Operation) : (w.run ops).registry.Sound := by
  induction ops generalizing w with
  | nil => exact h
  | cons op ops ih => exact ih (h.step op)

/-- The names are listed in order, each of them once. -/
theorem names_pairwise (h : r.Sound) : r.names.Pairwise (· < ·) := by
  have hle : r.names.Pairwise fun a b => decide (a ≤ b) = true := by
    refine List.pairwise_mergeSort (fun a b c hab hbc => ?_) (fun a b => ?_) _
    · rw [decide_eq_true_eq] at *
      exact List.le_trans hab hbc
    · simpa using List.le_total a b
  have hnodup : r.names.Nodup := (List.mergeSort_perm _ _).nodup_iff.mpr h.nodup
  -- Names in order that are not equal are strictly in order.
  refine (hle.and hnodup).imp fun {a b} ⟨hab, hne⟩ => ?_
  by_contra hlt
  exact hne (List.le_antisymm (of_decide_eq_true hab) (List.not_lt.mp hlt))

/-! ## Policy -/

/-- `P` holds of each of the operations and of the world that it is made in. -/
def World.Throughout (w : World) (ops : List Operation) (P : World → Operation → Prop) : Prop :=
  ∀ front op, front ++ [op] <+: ops → P (w.run front) op

theorem World.Throughout.head {P : World → Operation → Prop} (h : w.Throughout (op :: ops) P) :
    P w op := h [] op (List.cons_prefix_cons.mpr ⟨rfl, List.nil_prefix⟩)

theorem World.Throughout.tail {P : World → Operation → Prop} (h : w.Throughout (op :: ops) P) :
    (w.step op).2.Throughout ops P :=
  fun front next hfront => h (op :: front) next (List.cons_prefix_cons.mpr ⟨rfl, hfront⟩)

/-- In a frozen registry only the options can change. -/
theorem table_step_of_frozen (h : w.registry.frozen = true) (op : Operation) :
    (w.step op).2.registry.table = w.registry.table := by
  have heffect := effect_step w op
  generalize (w.step op).2.registry = r' at heffect ⊢
  -- Registrations and removals need a thawed registry.
  cases heffect with
  | same => rfl
  | registered _ n f hadmits => simp [hadmits.thawed] at h
  | unregistered name hthawed => simp [hthawed] at h
  | options => rfl

/-- A registry that is frozen all the time keeps its table. -/
theorem table_run_of_frozen (h : w.Throughout ops fun w _ => w.registry.frozen = true) :
    (w.run ops).registry.table = w.registry.table := by
  induction ops generalizing w with
  | nil => rfl
  | cons op ops ih => exact (ih h.tail).trans (table_step_of_frozen h.head op)

/-- Where a name may not be overridden, one operation keeps its function or takes the name
    away. -/
theorem lookup_step (hoverride : w.registry.allowOverride = false)
    (hf : w.registry.table.lookup name = some f) (op : Operation) :
    (w.step op).2.registry.table.lookup name = some f ∨
      ∃ bytes, op = .unregister bytes ∧ Blank.trim bytes = name ∧ (w.step op).1 = .ok () := by
  have heffect := effect_step w op
  generalize hr' : (w.step op).2.registry = r' at heffect ⊢
  cases heffect with
  | same => exact .inl hf
  | registered _ n g hadmits =>
    -- The name is taken, so it is not the one that was admitted.
    have hne : name ≠ n := by
      rintro rfl
      have hallowed := hadmits.free (mem_names.mpr (by rw [hf]; rfl))
      rw [hoverride] at hallowed
      cases hallowed
    left
    rw [List.lookup_cons, beq_false_of_ne hne]
    exact (lookup_without_ne hne).trans hf
  | unregistered bytes hthawed hmem =>
    by_cases hne : Blank.trim bytes = name
    · refine .inr ⟨bytes, rfl, hne, ?_⟩
      rw [World.step, unregister_eq_ok.mpr ⟨hthawed, hmem, rfl⟩]
      rfl
    · exact .inl ((lookup_without_ne (Ne.symm hne)).trans hf)
  | options => exact .inl hf

/-- A name that may not be overridden keeps its function until it was taken away. -/
theorem lookup_run (h : w.Throughout ops fun w _ => w.registry.allowOverride = false)
    (hf : w.registry.table.lookup name = some f) :
    (w.run ops).registry.table.lookup name = some f ∨
      ∃ front bytes, front ++ [.unregister bytes] <+: ops ∧ Blank.trim bytes = name ∧
        ((w.run front).step (.unregister bytes)).1 = .ok () := by
  induction ops generalizing w with
  | nil => exact .inl hf
  | cons op ops ih =>
    rcases lookup_step h.head hf op with hkept | ⟨bytes, rfl, hname, hok⟩
    · rcases ih h.tail hkept with hkept | ⟨front, bytes, hfront, hremoved⟩
      · exact .inl hkept
      · -- The removal comes later, so this operation stands in front of it.
        exact .inr ⟨op :: front, bytes, List.cons_prefix_cons.mpr ⟨rfl, hfront⟩, hremoved⟩
    · exact .inr ⟨[], bytes, List.cons_prefix_cons.mpr ⟨rfl, List.nil_prefix⟩, hname, hok⟩

/-! ## Global scopes -/

/-- The bindings of a new global scope: a builtin for each entry, with identities in
    turn. -/
def builtins (identity : Nat) : List (Name × HostFunction) → Bindings
  | [] => []
  | (name, f) :: entries => (name, .builtin identity name f) :: builtins (identity + 1) entries

theorem names_builtins (identity : Nat) (table : List (Name × HostFunction)) :
    (builtins identity table).names = table.map Prod.fst := by
  induction table generalizing identity with
  | nil => rfl
  | cons entry table ih =>
    obtain ⟨name, f⟩ := entry
    exact congrArg (name :: ·) (ih (identity + 1))

/-- Each entry has a builtin of its name and its function. -/
theorem find?_builtins (identity : Nat) (hf : table.lookup name = some f) :
    ∃ k, (builtins identity table).find? name = some (.builtin k name f) := by
  induction table generalizing identity with
  | nil => cases hf
  | cons entry table ih =>
    obtain ⟨m, g⟩ := entry
    rw [List.lookup_cons] at hf
    rw [builtins, Bindings.find?, List.lookup_cons]
    by_cases hm : name = m
    · subst hm
      rw [beq_self_eq_true] at hf ⊢
      cases hf
      exact ⟨identity, rfl⟩
    · rw [beq_false_of_ne hm] at hf ⊢
      -- The identities count up, so the builtin is one further on.
      exact ih (identity + 1) hf

variable {s : Scopes} {i j : ScopeId}

theorem get?_bindAll_ne (h : i ≠ j) (identity : Nat) (table : List (Name × HostFunction)) :
    (bindAll s i identity table).1.get? j = s.get? j := by
  induction table generalizing s identity with
  | nil => rfl
  | cons entry table ih => exact (ih _).trans (Scopes.get?_define_ne h)

/-- Names that are new to a scope are bound behind those that it has. -/
theorem get?_bindAll {scope : Scope} (hscope : s.get? i = some scope) (identity : Nat)
    (hnodup : (scope.bindings.names ++ table.map Prod.fst).Nodup) :
    (bindAll s i identity table).1.get? i =
      some { scope with bindings := scope.bindings ++ builtins identity table } := by
  induction table generalizing s scope identity with
  | nil => simpa [bindAll, builtins] using hscope
  | cons entry table ih =>
    obtain ⟨name, f⟩ := entry
    -- The name is not bound yet, so it goes behind the others.
    have hbind : scope.bindings.bind name (.builtin identity name f) =
        scope.bindings ++ [(name, .builtin identity name f)] := by
      refine Bindings.bind_of_not_mem fun hmem => ?_
      exact (List.nodup_append.mp hnodup).2.2 _ hmem name List.mem_cons_self rfl
    have hdefine : (s.define i name (.builtin identity name f)).get? i = some
        { scope with bindings := scope.bindings.bind name (.builtin identity name f) } :=
      Scopes.get?_define_self hscope
    rw [bindAll, ih hdefine (identity + 1), builtins]
    · simp only [hbind, List.append_assoc, List.singleton_append]
    · simpa [hbind, Bindings.names] using hnodup

/-- The new scope is a root and binds the registered names; the others are as they
    were. -/
theorem get?_pushGlobal (h : r.Sound) (s : Scopes) (identity : Nat) :
    (r.pushGlobal s identity).2.1.get? s.size = some ⟨none, builtins identity r.table⟩ ∧
      ∀ j < s.size, (r.pushGlobal s identity).2.1.get? j = s.get? j := by
  have hpush : (s.push none).2.get? s.size = some ⟨none, []⟩ := by
    simp [Scopes.push, Scopes.get?, Scopes.size]
  refine ⟨?_, fun j hj => ?_⟩
  · exact get?_bindAll hpush identity (by simpa [Bindings.names] using h.nodup)
  · -- The scopes before keep their cells, and nothing is bound in them.
    refine (get?_bindAll_ne (Nat.ne_of_gt hj) identity r.table).trans ?_
    have hcells : j < s.cells.size := hj
    simp [Scopes.get?, Array.getElem?_push, Nat.ne_of_lt hcells]

/-- What the new scope shows of the registry it was made from. -/
structure Shown (r : Registry) (s : Scopes) (i : ScopeId) : Prop where
  root : s.outer? i = none
  names : s.names i = r.names
  builtin : ∀ name f, r.table.lookup name = some f →
    ∃ identity, s.lookup? i name = some (.builtin identity name f)

/-- A scope with the builtins of a registry shows its names and functions. -/
theorem shown_of_get? {identity : Nat} (h : s.get? i = some ⟨none, builtins identity r.table⟩) :
    r.Shown s i where
  root := by rw [Scopes.outer?, h]; rfl
  names := by rw [Scopes.names, h, names, ← names_builtins identity]
  builtin name f hf := by
    obtain ⟨k, hk⟩ := find?_builtins identity hf
    have hown : s.own? i name = some (.builtin k name f) := by
      rw [Scopes.own?, h]
      exact hk
    -- A root is its whole chain, so reading stops there.
    have hchain : s.chain i = [i] := by simp [Scopes.chain, Scopes.chainFrom, h]
    exact ⟨k, by simp [Scopes.lookup?, Scopes.owner?, hchain, hown]⟩

/-- No operation changes a scope that is there. -/
theorem get?_step (h : w.registry.Sound) (hj : j < w.scopes.size) (op : Operation) :
    (w.step op).2.scopes.get? j = w.scopes.get? j := by
  cases op with
  | register name f? =>
    rw [World.step]
    cases w.registry.register name f? <;> rfl
  | registerQuietly name f? =>
    rw [World.step]
    cases w.registry.register name f? <;> rfl
  | unregister name =>
    rw [World.step]
    cases w.registry.unregister name <;> rfl
  -- Only this one touches the heap, and it adds a scope at the end.
  | newGlobal => exact (get?_pushGlobal h w.scopes w.identity).2 j hj
  | _ => rfl

/-- A scope that is there stays as it is. -/
theorem get?_run (h : w.registry.Sound) (hj : j < w.scopes.size) (ops : List Operation) :
    (w.run ops).scopes.get? j = w.scopes.get? j := by
  induction ops generalizing w with
  | nil => rfl
  | cons op ops ih =>
    have hstep := get?_step h hj op
    obtain ⟨scope, hscope⟩ := Scopes.exists_get? hj
    rw [hscope] at hstep
    rw [hscope]
    -- The scope is still there after the first operation, unchanged.
    exact (ih (h.step op) (Scopes.lt_size_of_get? hstep)).trans hstep

/-- A new global scope shows the registry it was made from, whatever is done later. -/
theorem shown_newGlobal (h : w.registry.Sound) (ops : List Operation) :
    w.registry.Shown ((w.step .newGlobal).2.run ops).scopes w.scopes.size := by
  have hnew : (w.step .newGlobal).2.scopes.get? w.scopes.size =
      some ⟨none, builtins w.identity w.registry.table⟩ :=
    (get?_pushGlobal h w.scopes w.identity).1
  exact shown_of_get? ((get?_run (h.step .newGlobal) (Scopes.lt_size_of_get? hnew) ops).trans hnew)

theorem shown_ofRegistry (h : r.Sound) :
    r.Shown (Interpreter.ofRegistry r).scopes Interpreter.globalScope :=
  shown_of_get? (get?_pushGlobal h Scopes.empty 0).1

/-- An operation that fails changes nothing. -/
theorem step_eq_of_error {problem : RegistryProblem} (h : (w.step op).1 = .error problem) :
    (w.step op).2 = w := by
  cases op with
  | register name f? =>
    rw [World.step] at h ⊢
    cases hr : w.registry.register name f? with
    | ok r' => rw [hr] at h; cases h
    | error problem => rfl
  | unregister name =>
    rw [World.step] at h ⊢
    cases hr : w.registry.unregister name with
    | ok r' => rw [hr] at h; cases h
    | error problem => rfl
  | _ => cases h

/-- A registration succeeds where the name is admitted, and then the name has the
    function. -/
theorem step_register (w : World) (name : Bytes) (f? : Option HostFunction) :
    (w.step (.register name f?)).1 = .ok () ↔ w.registry.Admits (Blank.trim name) ∧
      ∃ f, f? = some f ∧
        (w.step (.register name f?)).2.registry.table.lookup (Blank.trim name) = some f := by
  rw [World.step]
  cases hr : w.registry.register name f? with
  | ok r' =>
    obtain ⟨f, rfl, hadmits, rfl⟩ := register_eq_ok.mp hr
    exact iff_of_true rfl ⟨hadmits, f, rfl, by simp [World.change]⟩
  | error problem =>
    refine iff_of_false nofun ?_
    rintro ⟨hadmits, f, rfl, -⟩
    rw [register_eq_ok.mpr ⟨f, rfl, hadmits, rfl⟩] at hr
    cases hr

/-- A removal succeeds where the registry is not frozen and has the name, and then the name
    is gone. -/
theorem step_unregister (w : World) (name : Bytes) :
    (w.step (.unregister name)).1 = .ok () ↔
      (w.registry.frozen = false ∧ Blank.trim name ∈ w.registry.names) ∧
      Blank.trim name ∉ (w.step (.unregister name)).2.registry.names := by
  rw [World.step]
  cases hr : w.registry.unregister name with
  | ok r' =>
    obtain ⟨hthawed, hmem, rfl⟩ := unregister_eq_ok.mp hr
    refine iff_of_true rfl ⟨⟨hthawed, hmem⟩, ?_⟩
    simp [World.change, mem_names, lookup_without_self]
  | error problem =>
    refine iff_of_false nofun ?_
    -- Under these conditions the removal would have succeeded.
    rintro ⟨⟨hthawed, hmem⟩, -⟩
    rw [unregister_eq_ok.mpr ⟨hthawed, hmem, rfl⟩] at hr
    cases hr

/-- After any history of operations on the first registry, in any heap of scopes:

    - the registered names have no white space around them, are identifiers and no
      keywords, and are listed in order, each of them once;
    - a registration succeeds where there is a function and the name is admitted, a removal
      where the registry is not frozen and has the name, and an operation that fails, be it
      reported or not, changes nothing;
    - while the registry is frozen its table stays the same;
    - while overriding is not allowed, a name keeps its function until it is taken away;
    - a new global scope, of a heap or of an interpreter, binds the registered names, each
      to a builtin of that name and function, and whatever is done later no scope changes
      that is there. -/
theorem registry_policy (heap : Scopes) (identity : Nat) (ops : List Operation) :
    let w := (World.mk initial heap identity).run ops
    (∀ name ∈ w.registry.names,
      Blank.trim name = name ∧ isIdentifier name = true ∧ isKeyword name = false) ∧
    (w.registry.names.Pairwise (· < ·) ∧
      ∀ name, name ∈ w.registry.names ↔ ∃ f, w.registry.table.lookup name = some f) ∧
    (∀ name f?, (w.step (.register name f?)).1 = .ok () ↔ w.registry.Admits (Blank.trim name) ∧
      ∃ f, f? = some f ∧
        (w.step (.register name f?)).2.registry.table.lookup (Blank.trim name) = some f) ∧
    (∀ name, (w.step (.unregister name)).1 = .ok () ↔
      (w.registry.frozen = false ∧ Blank.trim name ∈ w.registry.names) ∧
      Blank.trim name ∉ (w.step (.unregister name)).2.registry.names) ∧
    (∀ op problem, (w.step op).1 = .error problem → (w.step op).2 = w) ∧
    (∀ name f? problem, w.registry.register name f? = .error problem →
      (w.step (.registerQuietly name f?)).2 = w) ∧
    (∀ more, (w.Throughout more fun w _ => w.registry.frozen = true) →
      (w.run more).registry.table = w.registry.table) ∧
    (∀ more name f, (w.Throughout more fun w _ => w.registry.allowOverride = false) →
      w.registry.table.lookup name = some f →
      (w.run more).registry.table.lookup name = some f ∨
        ∃ front bytes, front ++ [.unregister bytes] <+: more ∧ Blank.trim bytes = name ∧
          ((w.run front).step (.unregister bytes)).1 = .ok ()) ∧
    (∀ more, w.registry.Shown ((w.step .newGlobal).2.run more).scopes w.scopes.size) ∧
    w.registry.Shown (Interpreter.ofRegistry w.registry).scopes Interpreter.globalScope ∧
    ∀ more, ∀ j < w.scopes.size, (w.run more).scopes.get? j = w.scopes.get? j := by
  intro w
  -- Whatever the history, the registry is sound, and the rest follows from that.
  have hsound : w.registry.Sound := Sound.run sound_initial ops
  refine ⟨fun name hname => ?_, ⟨names_pairwise hsound, fun name => ?_⟩, step_register w,
    step_unregister w, fun op problem => step_eq_of_error, fun name f? problem hproblem => ?_,
    fun more => table_run_of_frozen, fun more name f => lookup_run, shown_newGlobal hsound,
    shown_ofRegistry hsound, fun more j hj => get?_run hsound hj more⟩
  · rw [mem_names, lookup_isSome_iff] at hname
    have hvalid := hsound.valid name hname
    rw [isVariableName, Bool.and_eq_true, Bool.not_eq_true'] at hvalid
    exact ⟨Blank.trim_of_identifier hvalid.1, hvalid⟩
  · rw [mem_names, Option.isSome_iff_exists]
  · rw [World.step, hproblem]
    rfl

end Registry

end Scriptlet
