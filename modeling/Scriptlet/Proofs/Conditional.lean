/-
  Scriptlet.Proofs.Conditional

  Conditionals with any number of branches.

  One branch does one of three things (`BranchEnds`): its condition stops the
  evaluation, or it holds and the body decides, or it is false and what stands
  behind the branch decides. The first branch of a conditional and each further
  one do the same (`evaluates_branch_iff`, `evaluatesTail_elif_iff`). By induction
  on the tail, the conditions are evaluated in order up to the first that is not
  false (`Chooses`), and so they are when every further branch is a conditional
  of its own inside an `else` (`Tail.nested`).
-/
import Scriptlet.Proofs.Unwinding

namespace Scriptlet

namespace Tail

/-- The further branches in order, each a condition with its body. -/
def branches : Tail → List (Node × Block)
  | .none => []
  | .elif condition body rest => (condition, body) :: rest.branches
  | .else _ => []

/-- The body for the case that every condition is false. -/
def otherwise? : Tail → Option Block
  | .none => Option.none
  | .elif _ _ rest => rest.otherwise?
  | .else body => some body

/-- The tail in which a further branch is a conditional of its own, the only
    statement of an `else` block, with its own tail of this kind. -/
def nested : Tail → Tail
  | .none => .none
  | .elif condition body rest => .else (.mk [.branch condition body rest.nested] false)
  | .else body => .else body

end Tail

section Conditionals

variable (w : Setting) (depth : Nat) (scope : ScopeId)

/-- Evaluated with enough fuel, the tail of a conditional ends with `r`. -/
def EvaluatesTail (tail : Tail) (st : State) (r : Result) : Prop :=
  ∃ n, evalTail w n depth scope tail st = r ∧ r.outcome ≠ .starved

/-- The conditions end with false, one after another. -/
def AllFalse (conditions : List Node) (st st' : State) : Prop :=
  YieldsAll w depth scope conditions st (List.replicate conditions.length (.bool false)) st'

/-- How a branch ends, `others` being what follows a false condition. -/
inductive BranchEnds (condition : Node) (body : Block) (others : State → Prop) (st : State)
    (r : Result) : Prop where
  | stopped : Evaluates w depth scope condition st r → r.goesOn = false →
      BranchEnds condition body others st r
  | taken {v : Value} {st₁ : State} : Yields w depth scope condition st v st₁ →
      v ≠ .bool false → Evaluates w depth scope (.block body) st₁ r →
      BranchEnds condition body others st r
  | passed {st₁ : State} : Yields w depth scope condition st (.bool false) st₁ → others st₁ →
      BranchEnds condition body others st r

/-- How a choice between branches ends. The conditions in front of some branch
    are false, each evaluated in the state that the one before it left; there the
    condition stops the evaluation with a fault or a return, or it holds and its
    body is evaluated, and nothing behind it. If all conditions are false, the
    last body is evaluated, and without one the value is false. -/
inductive Chooses (branches : List (Node × Block)) (otherwise : Option Block) (st : State) :
    Result → Prop where
  | stopped {before behind : List (Node × Block)} {condition : Node} {body : Block}
      {st₁ : State} {r : Result} :
      branches = before ++ (condition, body) :: behind →
      AllFalse w depth scope (before.map Prod.fst) st st₁ →
      Evaluates w depth scope condition st₁ r → r.goesOn = false →
      Chooses branches otherwise st r
  | taken {before behind : List (Node × Block)} {condition : Node} {body : Block} {v : Value}
      {st₁ st₂ : State} {r : Result} :
      branches = before ++ (condition, body) :: behind →
      AllFalse w depth scope (before.map Prod.fst) st st₁ →
      Yields w depth scope condition st₁ v st₂ → v ≠ .bool false →
      Evaluates w depth scope (.block body) st₂ r → Chooses branches otherwise st r
  | otherwise {body : Block} {st₁ : State} {r : Result} :
      AllFalse w depth scope (branches.map Prod.fst) st st₁ → otherwise = some body →
      Evaluates w depth scope (.block body) st₁ r → Chooses branches otherwise st r
  | nothing {st₁ : State} :
      AllFalse w depth scope (branches.map Prod.fst) st st₁ → otherwise = none →
      Chooses branches otherwise st ⟨.value (.bool false), st₁⟩

end Conditionals

variable {w : Setting} {depth : Nat} {scope : ScopeId} {condition : Node} {body : Block}
  {rest tail : Tail} {st st₁ : State} {r : Result}

/-- Only the value `false` counts as false. -/
theorem Value.isFalse_iff {v : Value} : v.isFalse = true ↔ v = .bool false := by
  constructor
  · intro h
    unfold isFalse at h
    split at h
    · rfl
    · cases h
  · rintro rfl
    rfl

/-! ## One branch -/

/-- More fuel does not change how a tail ends. -/
theorem EvaluatesTail.settles (h : EvaluatesTail w depth scope tail st r) :
    Settles (fun n => evalTail w n depth scope tail st) r := by
  obtain ⟨n, hn, hends⟩ := h
  refine ⟨n, fun m hm => ?_⟩
  have hagrees := (alike_of_le (.refl w st.fresh) hm).tail depth scope tail st
  rw [State.after_fresh, hn] at hagrees
  exact hagrees.eq_of_ends hends

theorem EvaluatesTail.ends (h : EvaluatesTail w depth scope tail st r) : r.outcome ≠ .starved := by
  obtain ⟨n, hn, hends⟩ := h
  exact hends

/-- What the evaluator does with a branch, wherever it stands. -/
def evalBranch (w : Setting) (n depth : Nat) (scope : ScopeId) (condition : Node) (body : Block)
    (rest : Tail) (st : State) : Result :=
  (eval w n depth scope condition st).andThen fun c st =>
    if c.isFalse then evalTail w n depth scope rest st
    else evalSequence w n depth scope body.statements (.bool false) st

/-- A branch ends as its condition and what comes behind it do. -/
theorem exists_evalBranch_iff :
    (∃ n, evalBranch w n depth scope condition body rest st = r ∧ r.outcome ≠ .starved) ↔
      BranchEnds w depth scope condition body (EvaluatesTail w depth scope rest · r) st r := by
  constructor
  · -- The condition ends with the fuel that the whole ends with.
    rintro ⟨n, hn, hends⟩
    unfold evalBranch at hn
    generalize hc : eval w n depth scope condition st = c at hn
    have hcends : c.outcome ≠ .starved := by
      intro hstarved
      rw [← hn] at hends
      exact hends (Result.andThen_starved hstarved)
    have hcondition : Evaluates w depth scope condition st c := ⟨n, hc, hcends⟩
    -- The condition stops the evaluation, or its value chooses.
    cases hgoes : c.goesOn with
    | false =>
      rw [Result.andThen_of_not_goesOn hgoes] at hn
      subst hn
      exact .stopped hcondition hgoes
    | true =>
      obtain ⟨v, hv, hvalue⟩ := Result.exists_of_goesOn hgoes
      rw [hvalue, Result.andThen_value hv] at hn
      rw [hvalue] at hcondition
      split at hn
      · rename_i hfalse
        rw [Value.isFalse_iff] at hfalse
        subst hfalse
        exact .passed ⟨hcondition, hv⟩ ⟨n, hn, hends⟩
      · rename_i htrue
        rw [Value.isFalse_iff] at htrue
        exact .taken ⟨hcondition, hv⟩ htrue (evaluates_block_iff.mpr ⟨n, hn, hends⟩)
  · -- The parts end with fuels of their own, and the larger one is enough for both.
    intro h
    suffices hsettles : Settles (fun n => evalBranch w n depth scope condition body rest st) r ∧
        r.outcome ≠ .starved by
      obtain ⟨⟨n, hn⟩, hends⟩ := hsettles
      exact ⟨n, hn n (Nat.le_refl n), hends⟩
    cases h with
    | stopped hcondition hstops =>
      refine ⟨hcondition.settles.map fun n hc => ?_, hcondition.ends⟩
      rw [evalBranch, hc, Result.andThen_of_not_goesOn hstops]
    | taken hcondition htrue hbody =>
      refine ⟨hcondition.1.settles.map₂ hbody.settles.of_block fun n hc hb => ?_, hbody.ends⟩
      rw [evalBranch, hc, hcondition.andThen, if_neg (mt Value.isFalse_iff.mp htrue), hb]
    | passed hcondition hothers =>
      refine ⟨hcondition.1.settles.map₂ hothers.settles fun n hc ho => ?_, hothers.ends⟩
      rw [evalBranch, hc, hcondition.andThen, if_pos (Value.isFalse_iff.mpr rfl), ho]

/-- A construct takes a unit of fuel, so that what ends does so with one more than
    its parts need. -/
theorem exists_succ_iff {run : Nat → Result} (hzero : (run 0).outcome = .starved) :
    (∃ n, run n = r ∧ r.outcome ≠ .starved) ↔ ∃ n, run (n + 1) = r ∧ r.outcome ≠ .starved := by
  constructor
  · rintro ⟨n, hn, hends⟩
    cases n with
    | zero =>
      rw [← hn] at hends
      exact absurd hzero hends
    | succ n => exact ⟨n, hn, hends⟩
  · rintro ⟨n, hn, hends⟩
    exact ⟨n + 1, hn, hends⟩

/-- The first branch of a conditional ends as any branch does. -/
theorem evaluates_branch_iff :
    Evaluates w depth scope (.branch condition body tail) st r ↔
      BranchEnds w depth scope condition body (EvaluatesTail w depth scope tail · r) st r := by
  rw [← exists_evalBranch_iff, Evaluates, exists_succ_iff (by rw [eval])]
  simp only [eval, evalBranch]

theorem branchEnds_congr {others others' : State → Prop} (h : ∀ st, others st ↔ others' st) :
    BranchEnds w depth scope condition body others st r ↔
      BranchEnds w depth scope condition body others' st r := by
  rw [show others = others' from funext fun st => propext (h st)]

/-! ## Tails -/

/-- Without further branches a conditional is false. -/
theorem evaluatesTail_none_iff :
    EvaluatesTail w depth scope .none st r ↔ r = ⟨.value (.bool false), st⟩ := by
  rw [EvaluatesTail, exists_succ_iff (by rw [evalTail])]
  simp only [evalTail]
  constructor
  · rintro ⟨_, hr, -⟩
    exact hr.symm
  · rintro rfl
    exact ⟨0, rfl, by simp⟩

theorem evaluatesTail_else_iff :
    EvaluatesTail w depth scope (.else body) st r ↔ Evaluates w depth scope (.block body) st r := by
  rw [evaluates_block_iff, EvaluatesTail, exists_succ_iff (by rw [evalTail])]
  simp only [evalTail, Concludes]

theorem evaluatesTail_elif_iff :
    EvaluatesTail w depth scope (.elif condition body rest) st r ↔
      BranchEnds w depth scope condition body (EvaluatesTail w depth scope rest · r) st r := by
  rw [← exists_evalBranch_iff, EvaluatesTail, exists_succ_iff (by rw [evalTail])]
  simp only [evalTail, evalBranch]

/-- A block of one statement ends as the statement does. -/
theorem evaluates_block_singleton_iff {node : Node} {inline : Bool} :
    Evaluates w depth scope (.block (.mk [node] inline)) st r ↔
      Evaluates w depth scope node st r := by
  have hstep : ∀ n, evalSequence w (n + 2) depth scope [node] (.bool false) st =
      eval w (n + 1) depth scope node st := by
    intro n
    rw [evalSequence]
    generalize eval w (n + 1) depth scope node st = c
    cases hgoes : c.goesOn with
    | true =>
      obtain ⟨v, hv, hvalue⟩ := Result.exists_of_goesOn hgoes
      rw [hvalue, Result.andThen_value hv, evalSequence]
    | false => exact Result.andThen_of_not_goesOn hgoes
  have hnode : Evaluates w depth scope node st r ↔
      ∃ n, eval w (n + 1) depth scope node st = r ∧ r.outcome ≠ .starved :=
    exists_succ_iff (by rw [eval])
  -- The sequence takes a unit of fuel of its own, so two are needed before it can end.
  have hzero : (evalSequence w 1 depth scope [node] (.bool false) st).outcome = .starved := by
    rw [evalSequence, eval]
    rfl
  rw [evaluates_block_iff, Concludes, Block.statements, exists_succ_iff (by rw [evalSequence]),
    exists_succ_iff hzero]
  simp only [hstep]
  exact hnode.symm

/-- Every further branch may as well be a conditional inside an `else`. -/
theorem evaluatesTail_nested_iff : ∀ {tail : Tail} {st : State},
    EvaluatesTail w depth scope tail.nested st r ↔ EvaluatesTail w depth scope tail st r
  | .none, _ => .rfl
  | .else _, _ => .rfl
  | .elif condition body rest, st => by
    rw [Tail.nested, evaluatesTail_else_iff, evaluates_block_singleton_iff, evaluates_branch_iff,
      evaluatesTail_elif_iff]
    exact branchEnds_congr fun _ => evaluatesTail_nested_iff

/-! ## Choices -/

/-- Without branches the last body decides. -/
theorem chooses_nil_some_iff :
    Chooses w depth scope [] (some body) st r ↔ Evaluates w depth scope (.block body) st r := by
  constructor
  · intro h
    cases h with
    | stopped hsplit | taken hsplit => simp at hsplit
    | otherwise hfalse hbody hr =>
      cases hfalse
      cases hbody
      exact hr
    | nothing _ hbody => cases hbody
  · exact fun h => .otherwise .nil rfl h

/-- Without branches and without a last body the choice is false. -/
theorem chooses_nil_none_iff :
    Chooses w depth scope [] none st r ↔ r = ⟨.value (.bool false), st⟩ := by
  constructor
  · intro h
    cases h with
    | stopped hsplit | taken hsplit => simp at hsplit
    | otherwise _ hbody => cases hbody
    | nothing hfalse =>
      cases hfalse
      rfl
  · rintro rfl
    exact .nothing .nil rfl

/-- A choice is one branch and a choice between the others. -/
theorem chooses_cons_iff {branches : List (Node × Block)} {otherwise : Option Block} :
    Chooses w depth scope ((condition, body) :: branches) otherwise st r ↔
      BranchEnds w depth scope condition body (Chooses w depth scope branches otherwise · r) st
        r := by
  constructor
  · intro h
    cases h with
    | @stopped before behind _ _ st₁ _ hsplit hfalse hcondition hstops =>
      -- The first branch is the one that decides, or the first of those in front of it.
      cases before with
      | nil =>
        cases hsplit
        cases hfalse
        exact .stopped hcondition hstops
      | cons first before =>
        obtain ⟨rfl, rfl⟩ := List.cons_eq_cons.mp hsplit
        cases hfalse with
        | cons hfirst hothers => exact .passed hfirst (.stopped rfl hothers hcondition hstops)
    -- The same for the branch whose body is evaluated.
    | @taken before behind _ _ v st₁ st₂ _ hsplit hfalse hcondition htrue hbody =>
      cases before with
      | nil =>
        cases hsplit
        cases hfalse
        exact .taken hcondition htrue hbody
      | cons first before =>
        obtain ⟨rfl, rfl⟩ := List.cons_eq_cons.mp hsplit
        cases hfalse with
        | cons hfirst hothers => exact .passed hfirst (.taken rfl hothers hcondition htrue hbody)
    -- No branch decides, and the first one is false like the others.
    | otherwise hfalse hotherwise hbody =>
      cases hfalse with
      | cons hfirst hothers => exact .passed hfirst (.otherwise hothers hotherwise hbody)
    | nothing hfalse hotherwise =>
      cases hfalse with
      | cons hfirst hothers => exact .passed hfirst (.nothing hothers hotherwise)
  · intro h
    cases h with
    | stopped hcondition hstops => exact .stopped (List.nil_append _).symm .nil hcondition hstops
    | taken hcondition htrue hbody =>
      exact .taken (List.nil_append _).symm .nil hcondition htrue hbody
    -- The first branch comes in front of what the others choose.
    | passed hfirst hothers =>
      cases hothers with
      | stopped hsplit hfalse hcondition hstops =>
        rw [hsplit]
        exact .stopped (List.cons_append).symm (.cons hfirst hfalse) hcondition hstops
      | taken hsplit hfalse hcondition htrue hbody =>
        rw [hsplit]
        exact .taken (List.cons_append).symm (.cons hfirst hfalse) hcondition htrue hbody
      | otherwise hfalse hotherwise hbody =>
        exact .otherwise (.cons hfirst hfalse) hotherwise hbody
      | nothing hfalse hotherwise => exact .nothing (.cons hfirst hfalse) hotherwise

/-- A tail is a choice between its branches. -/
theorem evaluatesTail_iff_chooses : ∀ {tail : Tail} {st : State},
    EvaluatesTail w depth scope tail st r ↔
      Chooses w depth scope tail.branches tail.otherwise? st r
  | .none, _ => evaluatesTail_none_iff.trans chooses_nil_none_iff.symm
  | .else _, _ => evaluatesTail_else_iff.trans chooses_nil_some_iff.symm
  | .elif condition body rest, st => by
    rw [Tail.branches, Tail.otherwise?, evaluatesTail_elif_iff, chooses_cons_iff]
    exact branchEnds_congr fun _ => evaluatesTail_iff_chooses

/-- A conditional with any number of branches is a choice: its conditions are
    evaluated in order, each once and in the state that the one before it left, up to
    the first that is not false, and only the body of that one is evaluated. It ends
    as the conditional in which every further branch stands inside an `else`, with
    the same outcome in the same state, or neither ends. -/
theorem conditional_chooses (w : Setting) (depth : Nat) (scope : ScopeId) (condition : Node)
    (body : Block) (tail : Tail) (st : State) (r : Result) :
    (Evaluates w depth scope (.branch condition body tail) st r ↔
      Chooses w depth scope ((condition, body) :: tail.branches) tail.otherwise? st r) ∧
    (Evaluates w depth scope (.branch condition body tail) st r ↔
      Evaluates w depth scope (.branch condition body tail.nested) st r) := by
  constructor
  · -- Both sides take the first branch apart, and the tails agree.
    rw [evaluates_branch_iff, chooses_cons_iff]
    exact branchEnds_congr fun _ => evaluatesTail_iff_chooses
  · rw [evaluates_branch_iff, evaluates_branch_iff]
    exact branchEnds_congr fun _ => evaluatesTail_nested_iff.symm

end Scriptlet
