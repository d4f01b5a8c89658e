/-
  Scriptlet.Proofs.Run

  Runs that end. The fuel of an occasion bounds a computation that has no bound
  of its own, so a run is described by what it ends with once it has fuel
  enough: `i.Ends o source x` says that the run of `source` gives the report
  `x`.

  A run reads its source, evaluates the statements in the global scope and
  makes a report of their result (`ends_iff`). From there a script that is cut
  at a line end runs piece by piece (`ends_append`): its program is cut in two
  sequences of statements, the second one goes on where the first one ends, and
  it would take the same course from the same scopes in a run of its own.
-/
import Scriptlet.Interpreter
import Scriptlet.Proofs.Grammar.Pieces
import Scriptlet.Proofs.Evaluation

namespace Scriptlet

namespace Interpreter

/-! ## What a run ends with -/

/-- What stays fixed during a run. -/
def setting (i : Interpreter) (o : Occasion) : Setting :=
  let limits := i.effectiveLimits o
  ⟨o.host, i.sink, o.context.withTimeout o.host.clock limits.timeout, limits.maxCallDepth⟩

/-- The state in which a run starts. -/
def initial (i : Interpreter) : State := ⟨i.scopes, i.identities, 0, [], []⟩

/-- The statements, evaluated in the global scope, end with `r`. A return is
    still on its way out there. -/
def Concludes (i : Interpreter) (o : Occasion) (ss : List Node) (r : Result) : Prop :=
  Scriptlet.Concludes (i.setting o) 0 globalScope ss i.initial r

/-- The statements end normally: with a value, and with no return on its way
    out. -/
def Finishes (i : Interpreter) (o : Occasion) (ss : List Node) : Prop :=
  ∃ r, i.Concludes o ss r ∧ r.goesOn = true

/-- The run of a source ends with a report, given fuel enough. -/
def Ends (i : Interpreter) (o : Occasion) (source : Bytes) (x : Report) : Prop :=
  ∃ fuel, i.run { o with fuel } source = x ∧ x.outcome ≠ .starved

/-- The interpreter after its statements ended with `r`. -/
def left (i : Interpreter) (r : Result) : Interpreter :=
  { i with scopes := r.state.scopes, identities := r.state.identities }

/-- The report on `count` statements that ended with `r`. -/
def report (i : Interpreter) (o : Occasion) (count : Nat) (r : Result) : Report :=
  -- The program unwraps a return on its way out, and so does the run.
  let outcome := ((r.map Value.unwrap).map Value.unwrap).outcome
  ⟨outcome, r.state.written.reverse.flatten, i.logged o count outcome, i.left r⟩

variable {i : Interpreter} {o : Occasion}

theorem quiet_of_no_timeout (hcontext : ∀ n, o.context.status n = none)
    (htimeout : (i.effectiveLimits o).timeout ≤ 0) : (i.setting o).Quiet := by
  intro n
  have hoff : o.context.withTimeout o.host.clock (i.effectiveLimits o).timeout = o.context := by
    simp [Context.withTimeout, htimeout]
  show (o.context.withTimeout o.host.clock (i.effectiveLimits o).timeout).status n = none
  rw [hoff]
  exact hcontext n

/-! ## Runs are evaluations of statements -/

theorem parse_uncached {source : Bytes} (hcache : i.cache = none) :
    i.parse source = (Scriptlet.parse source, i) := by
  unfold Interpreter.parse
  rw [hcache]

section Parsed

variable {source : Bytes} {p : Program} {j : Interpreter}

theorem run_zero (hparse : i.parse source = (.ok p, j)) :
    (i.run { o with fuel := 0 } source).outcome = .starved := by
  rw [run, hparse]
  simp only [evaluate, start, eval]
  rfl

theorem run_succ (hparse : i.parse source = (.ok p, j)) (n : Nat) :
    i.run { o with fuel := n + 1 } source =
      j.report o p.statements.length
        (evalSequence (j.setting o) n 0 globalScope p.statements (.bool false) j.initial) := by
  rw [run, hparse]
  simp only [evaluate, start, eval, Result.map_state]
  rfl

/-- A run ends with the report on its statements. They are evaluated in `j`, the
    interpreter whose cache may know the source by now. -/
theorem ends_iff_of_parse {x : Report} (hparse : i.parse source = (.ok p, j)) :
    i.Ends o source x ↔
      ∃ r, j.Concludes o p.statements r ∧ x = j.report o p.statements.length r := by
  constructor
  · rintro ⟨fuel, hrun, hends⟩
    cases fuel with
    -- The first unit of fuel goes to the program itself.
    | zero =>
      have hstarved := run_zero (o := o) hparse
      rw [hrun] at hstarved
      exact absurd hstarved hends
    | succ n =>
      rw [run_succ hparse] at hrun
      subst hrun
      refine ⟨_, ⟨n, rfl, ?_⟩, rfl⟩
      intro hstarved
      exact hends (Result.map_starved.mpr (Result.map_starved.mpr hstarved))
  · rintro ⟨r, ⟨n, hn, hends⟩, rfl⟩
    refine ⟨n + 1, ?_, ?_⟩
    · rw [run_succ hparse]
      exact congrArg (j.report o p.statements.length) hn
    · intro hstarved
      exact hends (Result.map_starved.mp (Result.map_starved.mp hstarved))

/-- Without a cache the interpreter is the same. -/
theorem ends_iff {x : Report} (hcache : i.cache = none) (hparse : Scriptlet.parse source = .ok p) :
    i.Ends o source x ↔
      ∃ r, i.Concludes o p.statements r ∧ x = i.report o p.statements.length r :=
  ends_iff_of_parse (by rw [parse_uncached hcache, hparse])

end Parsed

/-! ## Scripts in pieces -/

variable {r₁ r₂ r : Result}

/-- What goes on from where the first piece ended runs as in an interpreter
    with the scopes that the first piece left. -/
theorem concludes_left (hquiet : (i.setting o).Quiet) (ss : List Node) :
    Scriptlet.Concludes (i.setting o) 0 globalScope ss r₁.state r ↔
      ∃ r₂, (i.left r₁).Concludes o ss r₂ ∧ r = r₂.after r₁.state := by
  have hafter : Scriptlet.Concludes (i.setting o) 0 globalScope ss
      (r₁.state.fresh.after r₁.state) r ↔ _ := concludes_after hquiet r₁.state
  -- The interpreter that is left has the scopes of the state, and no history.
  rwa [State.fresh_after] at hafter

/-- The report on both pieces is that on the second one, with the output of the
    first one in front. -/
theorem report_after (n m : Nat) :
    i.report o (n + m) (r₂.after r₁.state) =
      { (i.left r₁).report o m r₂ with
        output := (i.report o n r₁).output ++ ((i.left r₁).report o m r₂).output
        log := i.logged o (n + m) ((i.left r₁).report o m r₂).outcome } := by
  have houtput : (r₂.after r₁.state).state.written.reverse.flatten =
      r₁.state.written.reverse.flatten ++ r₂.state.written.reverse.flatten := by
    simp [Result.after, State.after]
  simp only [report, houtput]
  obtain ⟨_ | _ | _, st⟩ := r₂ <;> rfl

variable {a b : Bytes} {p q : Program}

/-- The statements of both pieces, seen from where the first one ended. -/
theorem concludes_pieces (hquiet : (i.setting o).Quiet) (hne : q.statements ≠ [])
    (hr₁ : i.Concludes o p.statements r₁) :
    i.Concludes o (p.statements ++ q.statements) r ↔
      if r₁.goesOn then ∃ r₂, (i.left r₁).Concludes o q.statements r₂ ∧ r = r₂.after r₁.state
      else r = r₁ := by
  rw [← concludes_left hquiet, Interpreter.Concludes, concludes_append hquiet hne]
  constructor
  · rintro ⟨r', hr', hrest⟩
    -- The first piece has one result, so it is `r₁` that decides.
    rwa [hr'.unique hquiet hr₁] at hrest
  · intro hrest
    exact ⟨r₁, hr₁, hrest⟩

theorem finishes_iff_goesOn (hquiet : (i.setting o).Quiet) {ss : List Node}
    (hr₁ : i.Concludes o ss r₁) : i.Finishes o ss ↔ r₁.goesOn = true := by
  constructor
  · rintro ⟨r', hr', hgoes⟩
    rwa [hr'.unique hquiet hr₁] at hgoes
  · intro hgoes
    exact ⟨r₁, hr₁, hgoes⟩

/-- A script that is cut at a line end runs piece by piece. If the first piece
    ends normally, then the whole ends as the second piece does in the
    interpreter that the first one left, and the outputs stand one after the
    other. Otherwise the whole is the first piece, down to everything that its
    evaluation did. -/
theorem ends_append (hcache : i.cache = none) (hquiet : (i.setting o).Quiet)
    (hline : a.getLast? = some 10) (ha : Scriptlet.parse a = .ok p)
    (hb : Scriptlet.parse b = .ok q) (hne : q.statements ≠ []) {x : Report}
    (hx : i.Ends o a x) :
    (i.Finishes o p.statements →
      ∀ z, i.Ends o (a ++ b) z ↔ ∃ y, x.interpreter.Ends o b y ∧
        z = { y with
          output := x.output ++ y.output
          log := i.logged o (p.statements.length + q.statements.length) y.outcome }) ∧
    (¬ i.Finishes o p.statements →
      (∀ z, i.Ends o (a ++ b) z ↔ z = { x with
        log := i.logged o (p.statements.length + q.statements.length) x.outcome }) ∧
      ∀ r, i.Concludes o (p.statements ++ q.statements) r ↔ i.Concludes o p.statements r) := by
  -- From here on runs are results of statements: `r₁` is that of the first piece.
  obtain ⟨r₁, hr₁, rfl⟩ := (ends_iff hcache ha).mp hx
  have hwhole : ∀ z, i.Ends o (a ++ b) z ↔
      ∃ r, i.Concludes o (p.statements ++ q.statements) r ∧
        z = i.report o (p.statements.length + q.statements.length) r := by
    intro z
    rw [ends_iff hcache (parse_append hline ha hb), List.length_append]
  have hpieces := fun r => concludes_pieces (r := r) hquiet hne hr₁
  rw [finishes_iff_goesOn hquiet hr₁]
  constructor
  · intro hgoes z
    simp only [hgoes, if_true] at hpieces
    -- A result of the second piece, put behind that of the first, is one of the whole.
    have hcache₁ : (i.left r₁).cache = none := hcache
    rw [hwhole]
    constructor
    · rintro ⟨r, hr, rfl⟩
      obtain ⟨r₂, hr₂, rfl⟩ := (hpieces r).mp hr
      exact ⟨_, (ends_iff hcache₁ hb).mpr ⟨r₂, hr₂, rfl⟩, report_after _ _⟩
    · rintro ⟨y, hy, rfl⟩
      obtain ⟨r₂, hr₂, rfl⟩ := (ends_iff hcache₁ hb).mp hy
      exact ⟨_, (hpieces _).mpr ⟨r₂, hr₂, rfl⟩, (report_after _ _).symm⟩
  · intro hstops
    -- The whole has no other result than `r₁`.
    simp only [hstops, Bool.false_eq_true, if_false] at hpieces
    refine ⟨?_, ?_⟩
    · intro z
      rw [hwhole]
      simp only [hpieces, exists_eq_left]
      rfl
    · intro r
      rw [hpieces]
      constructor
      · rintro rfl
        exact hr₁
      · intro hr
        exact hr.unique hquiet hr₁

/-- A value that the first line binds is printed by the second one, and behind
    a return nothing is printed. -/
theorem ends_append_print :
    (∃ z, (ofRegistry .initial).Ends (.plain .bare) (text "x = 7\n" ++ text "Out(x)") z ∧
      z.outcome = .value (.bool false) ∧ z.output = text "7\n") ∧
    ∃ z, (ofRegistry .initial).Ends (.plain .bare) (text "return 7\n" ++ text "Out(x)") z ∧
      z.outcome = .value (.int 7) ∧ z.output = [] := by
  let i := ofRegistry .initial
  let o := Occasion.plain .bare
  have hquiet : (i.setting o).Quiet := quiet_of_no_timeout (fun _ => rfl) (by decide)
  have hprint : Scriptlet.parse (text "Out(x)") =
      .ok ⟨[.call (.ident (text "Out")) [.ident (text "x")]]⟩ := by
    with_unfolding_all rfl
  constructor
  · have hbind : Scriptlet.parse (text "x = 7\n") =
        .ok ⟨[.assign (.ident (text "x")) (.int 7)]⟩ := by
      with_unfolding_all rfl
    let r₁ := evalSequence (i.setting o) 5 0 globalScope [.assign (.ident (text "x")) (.int 7)]
      (.bool false) i.initial
    let r₂ := evalSequence (i.setting o) 5 0 globalScope
      [.call (.ident (text "Out")) [.ident (text "x")]] (.bool false) (i.left r₁).initial
    have hv₁ : r₁.outcome = .value (.int 7) := by with_unfolding_all rfl
    have hv₂ : r₂.outcome = .value (.bool false) := by with_unfolding_all rfl
    have hr₁ : i.Concludes o _ r₁ := ⟨5, rfl, by simp [hv₁]⟩
    have hr₂ : (i.left r₁).Concludes o _ r₂ := ⟨5, rfl, by simp [hv₂]⟩
    have hgoes : r₁.goesOn = true := by rw [Result.goesOn, hv₁]; rfl
    have hx := (ends_iff rfl hbind).mpr ⟨r₁, hr₁, rfl⟩
    have hy := (ends_iff rfl hprint).mpr ⟨r₂, hr₂, rfl⟩
    have happend := (ends_append rfl hquiet rfl hbind hprint (List.cons_ne_nil _ _) hx).1
      ⟨r₁, hr₁, hgoes⟩
    refine ⟨_, (happend _).mpr ⟨_, hy, rfl⟩, ?_, ?_⟩
    · with_unfolding_all rfl
    · with_unfolding_all rfl
  · have hreturn : Scriptlet.parse (text "return 7\n") = .ok ⟨[.ret (.int 7)]⟩ := by
      with_unfolding_all rfl
    let r₁ := evalSequence (i.setting o) 5 0 globalScope [.ret (.int 7)] (.bool false) i.initial
    have hv₁ : r₁.outcome = .value (.returned (.int 7)) := by with_unfolding_all rfl
    have hr₁ : i.Concludes o _ r₁ := ⟨5, rfl, by simp [hv₁]⟩
    have hstops : ¬ i.Finishes o [.ret (.int 7)] := by
      rw [finishes_iff_goesOn hquiet hr₁, Result.goesOn, hv₁]
      exact Bool.false_ne_true
    have hx := (ends_iff rfl hreturn).mpr ⟨r₁, hr₁, rfl⟩
    have happend := (ends_append rfl hquiet rfl hreturn hprint (List.cons_ne_nil _ _) hx).2 hstops
    refine ⟨_, (happend.1 _).mpr rfl, ?_, ?_⟩
    · with_unfolding_all rfl
    · with_unfolding_all rfl

end Interpreter

end Scriptlet
