/-
  Scriptlet.Proofs.CallDepth

  The limit on the depth of calls cuts an evaluation off and changes nothing
  else. Inside `w.maxCallDepth` active calls no function is entered
  (`Visits.depth_le`), so there are never more of them. A call that is refused
  ends the evaluation; an evaluation in which none is refused takes the same
  course under every larger limit and without one, for then the verdicts are the
  same at all points where it arrives (`callLimit_cutsOff`).
-/
import Scriptlet.Proofs.Visits

namespace Scriptlet

namespace Setting

/-- At the point a function is applied that the limit on calls leaves no room
    for. -/
def Refuses (w : Setting) (p : Point) : Prop :=
  ∃ name, w.verdict p = some (.eval (.tooDeep w.maxCallDepth name))

variable {w : Setting} {p : Point}

/-- A function is entered only inside fewer calls than the limit allows. -/
theorem Admits.depth_lt (hlimit : 0 < w.maxCallDepth) {e : Event} (h : w.Admits p e) :
    p.depth < w.maxCallDepth := by
  obtain ⟨depth, identity, function, home, arguments, st, rfl, hgo, -⟩ := h
  have hroom := refusal_eq_none_iff.mp (verdict_application_eq_none.mp hgo).2
  show (depth : Int) < w.maxCallDepth
  omega

/-- Where a limit refuses nothing, a larger one and none at all have the same
    verdict. -/
theorem verdict_lifted (hlimit : 0 < w.maxCallDepth) {m : Int} (hm : w.maxCallDepth ≤ m ∨ m ≤ 0)
    (h : ¬ w.Refuses p) : (w.bounded w.context m).verdict p = w.verdict p := by
  cases p with
  | round depth st => rfl
  | application depth f arguments st =>
    -- The context is the same, so only a refusal could make a difference.
    suffices hrefusal : w.context.status st.checks = none →
        (w.bounded w.context m).refusal depth f = w.refusal depth f by
      have hsame : (w.bounded w.context m).context.status st.checks = w.context.status st.checks :=
        rfl
      simp only [verdict, hsame]
      cases hstatus : w.context.status st.checks with
      | some i => rfl
      | none => exact hrefusal hstatus
    intro hstatus
    cases f with
    | closure identity function home =>
      have hroom : ¬ (0 < w.maxCallDepth ∧ w.maxCallDepth ≤ depth) := by
        intro hfull
        refine h ⟨function.name, ?_⟩
        simp [verdict, hstatus, refusal, hfull]
      have hroom' : ¬ (0 < m ∧ m ≤ depth) := by omega
      rw [refusal_eq_none_iff.mpr hroom]
      exact refusal_eq_none_iff.mpr hroom'
    | _ => rfl

end Setting

/-- An evaluation that starts with room for its calls is never inside more of them
    than the limit allows. -/
theorem Visits.depth_le {w : Setting} (hlimit : 0 < w.maxCallDepth) {depth : Nat}
    {scope : ScopeId} {c : Node × State} {p : Point} (h : Visits w depth scope c p)
    (hdepth : depth ≤ w.maxCallDepth) : p.depth ≤ w.maxCallDepth := by
  induction h with
  | round | application => exact hdepth
  | part _ _ ih => exact ih hdepth
  | statement _ _ ih => exact ih hdepth
  | body henters _ ih =>
    cases henters with
    | call _ _ _ hroom =>
      -- The function was entered, so there was room for one more call.
      apply ih
      push_cast
      omega

/-- The limit on the depth of calls is a pure cut-off. At every point of an
    evaluation at most `w.maxCallDepth` calls are active, and a function is
    entered only inside fewer. A call that is refused ends the evaluation with
    the code of the limit. If no call is refused, then a limit that is larger or
    off makes no difference: for any fuel the outcome, the scopes, the output and
    everything else that was done are the same. -/
theorem callLimit_cutsOff {w : Setting} (hlimit : 0 < w.maxCallDepth) (scope : ScopeId)
    (node : Node) (st : State) :
    (∀ p, Visits w 0 scope (node, st) p → p.depth ≤ w.maxCallDepth) ∧
    (∀ fuel, ∀ e ∈ (eval w fuel 0 scope node st).state.events, e.isEntry = true →
      e ∈ st.events ∨ ∃ p, Visits w 0 scope (node, st) p ∧ w.Admits p e ∧
        p.depth + 1 ≤ w.maxCallDepth) ∧
    (∀ p, Visits w 0 scope (node, st) p → w.Refuses p →
      ∀ r, Evaluates w 0 scope node st r → ∃ f, r.outcome = .fault f ∧ f.code? = some .callDepth) ∧
    ((∀ p, Visits w 0 scope (node, st) p → ¬ w.Refuses p) →
      ∀ m, w.maxCallDepth ≤ m ∨ m ≤ 0 → ∀ fuel,
        eval { w with maxCallDepth := m } fuel 0 scope node st = eval w fuel 0 scope node st) := by
  refine ⟨?_, ?_, ?_, ?_⟩
  · intro p hp
    exact hp.depth_le hlimit (Int.le_of_lt hlimit)
  · intro fuel e he hentry
    have hfollows := (follows w w.context w.maxCallDepth fuel).node 0 scope node st
    rcases hfollows.entries e he hentry with hold | ⟨p, hp, hadmits⟩
    · exact .inl hold
    · exact .inr ⟨p, hp, hadmits, hadmits.depth_lt hlimit⟩
  · intro p hp hrefuses r hr
    obtain ⟨name, hstop⟩ := hrefuses
    -- The evaluation ends in one way only, and the refusal is one.
    rw [hr.unique (hp.evaluates hstop)]
    exact ⟨_, rfl, rfl⟩
  · intro hnone m hm fuel
    -- A difference would show at a point, and none is refused there.
    rcases ((follows w w.context m fuel).node 0 scope node st).same with hsame | ⟨p, hp, hdiffers⟩
    · exact hsame
    · exact absurd (Setting.verdict_lifted hlimit hm (hnone p hp)).symm hdiffers

/-- A recursion of two calls runs under a limit of two as it does without one. -/
theorem callLimit_cutsOff_countdown :
    let down : Node := .func (text "down") [text "n"] (.mk [.ret (.branch
      (.binary .equal (.ident (text "n")) (.int 0)) (.mk [.int 0] true)
      (.else (.mk [.call (.ident (text "down"))
        [.binary .sub (.ident (text "n")) (.int 1)]] true)))] true)
    let node : Node := .program [down, .call (.ident (text "down")) [.int 1]]
    let w : Setting := ⟨.bare, .open, .background, 2⟩
    let st : State := ⟨(Scopes.empty.push none).2, 0, 0, [], []⟩
    (eval w 25 0 0 node st).outcome = .value (.int 0) ∧
      eval { w with maxCallDepth := 0 } 25 0 0 node st = eval w 25 0 0 node st := by
  intro down node w st
  have hvalue : (eval w 25 0 0 node st).outcome = .value (.int 0) := by with_unfolding_all rfl
  have hlimit : 0 < w.maxCallDepth := by decide
  obtain ⟨-, -, hrefused, hlifted⟩ := callLimit_cutsOff hlimit 0 node st
  refine ⟨hvalue, hlifted (fun p hp hrefuses => ?_) 0 (.inr (Int.le_refl 0)) 25⟩
  -- A refused call would have ended the evaluation with a fault.
  have hends : Evaluates w 0 0 node st (eval w 25 0 0 node st) := ⟨25, rfl, by simp [hvalue]⟩
  obtain ⟨f, hfault, -⟩ := hrefused p hp hrefuses _ hends
  rw [hvalue] at hfault
  cases hfault

end Scriptlet
