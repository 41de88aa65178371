import DualSimplex.Proofs.Engine.DualFeasibility

/-!
# Visits to phase two

A run comes to phase two from the start, from phase one or from a review, and then all
reduced costs are of the right sign up to the dual tolerance.  As long as it stays there
they get worse by basis changes only, whatever is perturbed, renewed, repaired or rejected
in between.
-/

namespace DualSimplex

open Scalar Exact

namespace Engine

variable {t : Job (Exact 0)} {e e' : Engine (Exact 0)}
  (hdual : 0 < t.parameters.dualTolerance.value)

include hdual

/-! ## Ways into phase two -/

theorem Sound.dualWithin_leaveAuxiliary (ht : t.WellFormed) (h : e.Sound t)
    (hleave : (e.leaveAuxiliary t).stage = .enterMain) :
    (e.leaveAuxiliary t).engine.relaxed = [] ∧
      (e.leaveAuxiliary t).engine.DualWithin t.parameters.dualTolerance.value := by
  have hsound := (h.restFinally ht).solveValues
  refine ⟨(limits_leaveAuxiliary (t := t) e).2, ?_⟩
  rcases leaveAuxiliary_cases (t := t) e with ⟨hfeasible, heq⟩ | ⟨-, heq⟩ | heq
  · rw [heq]
    refine DualWithin.congr (e := e.restFinally t) ?_ (statusOf_congr (status_solveValues _))
      (congrArg (fun prices => prices.2.2) (pricing_solveValues (t := t) _))
    refine (h.restFinally ht).dualWithin_of_lt hdual.le fun j hj => ?_
    by_cases hbasic : (e.restoreBounds t).statusOf j = .basic
    · have hstill : (e.restFinally t).statusOf j = .basic :=
        (statusOf_foldl_rest (fun _ _ _ => (allows_finalStatus _ _).2)
          (fun i hi => (mem_nonbasic.mp hi).2) j).mpr hbasic
      unfold dualInfeasibility
      rw [hstill]
      exact hdual.le
    · exact not_lt.mp (hfeasible j (mem_nonbasic.mpr ⟨hj, hbasic⟩))
  · rw [heq] at hleave
    exact absurd hleave nofun
  · rw [heq]
    exact (hsound.of_standing (standing_note _ _)).dualWithin_settleReducedCosts hdual

theorem Sound.dualWithin_review (h : e.Sound t) {isLast : Bool}
    (hreview : (e.review t isLast).stage = .enterMain) :
    (e.reviewed t).relaxed = [] ∧
      (e.reviewed t).DualWithin t.parameters.dualTolerance.value := by
  have hduals := h.withoutRelaxations.of_standing
    (standing_solveDuals (t := t) (e.withoutRelaxations t))
  have hpulled : ((e.withoutRelaxations t).solveDuals t).isPulled t = false := by
    rw [review_eq] at hreview
    dsimp only at hreview
    split at hreview
    · exact absurd hreview nofun
    · split at hreview
      · split at hreview
        · exact absurd hreview nofun
        · exact absurd hreview nofun
      · split at hreview
        · exact absurd hreview nofun
        · rename_i hpulled
          exact Bool.eq_false_iff.mpr hpulled
  refine ⟨(ground_reviewed e).2, h.reviewed.dualWithin_of_lt hdual.le fun j hj => ?_⟩
  exact dualInfeasibility_reviewed hduals hdual hpulled hj

end Engine

namespace Run

open Engine

variable {t : Job (Exact 0)} {r : Run (Exact 0)} {basis : Basis}

/-- The step is one into phase two. -/
def Enters (t : Job (Exact 0)) (r : Run (Exact 0)) : Prop :=
  (r.stage = .start ∨ r.stage = .auxiliary ∨ r.stage = .review) ∧ (r.step t).stage = .enterMain

section Entries

variable (hdual : 0 < t.parameters.dualTolerance.value) (hsound : r.engine.Sound t)

include hdual hsound

omit hsound in
theorem Answers.dualWithin (ht : t.WellFormed) (hstage : r.stage = .auxiliary)
    {r' : Run (Exact 0)} {s : Step (Exact 0)} (hs : s.engine.Sound t) (hanswers : r.Answers t s r')
    (hto : r'.stage = .enterMain) : r'.engine.relaxed = [] ∧
      r'.engine.DualWithin t.parameters.dualTolerance.value := by
  cases hanswers with
  | next => exact absurd (hstage.symm.trans hto) nofun
  | stopped => exact absurd hto nofun
  | @reject e ray =>
    rw [hstage] at hto
    generalize e.rejectRay t = p at hto
    cases p with
    | going e => exact absurd hto nofun
    | stopped e status => exact absurd hto nofun
  | accept => exact absurd hto nofun
  | acceptInstead => exact absurd hto nofun
  | leave => exact Engine.Sound.dualWithin_leaveAuxiliary hdual ht hs hto
  | toReview => exact absurd hto nofun
  | undo => exact absurd hto nofun
  | feasible => exact absurd hto nofun

/-- At the entry nothing is relaxed, and no reduced cost is of the wrong sign by more than
the tolerance. -/
theorem Enters.dualWithin (ht : t.WellFormed) (hstands : r.Stands t) (h : r.Enters t) :
    (r.step t).engine.relaxed = [] ∧
      (r.step t).engine.DualWithin t.parameters.dualTolerance.value := by
  obtain ⟨hfrom, hto⟩ := h
  have hmoves := moves_step t r
  generalize r.step t = r' at hmoves hto ⊢
  cases hmoves with
  | stay hstage => exact absurd (hstage.symm.trans hto) nofun
  | needsPhaseOne => exact absurd hto nofun
  | settle hstage =>
    unfold Stands at hstands
    rw [hstage] at hstands
    exact ⟨(relaxed_congr (setting_settleReducedCosts r.engine)).trans hstands.2,
      hsound.dualWithin_settleReducedCosts hdual⟩
  | enterAuxiliary => exact absurd hto nofun
  | perturb => exact absurd hto nofun
  | enterMain => exact absurd hto nofun
  | enterFeasibility => exact absurd hto nofun
  | review => exact hsound.dualWithin_review hdual hto
  | iterate hiterates hanswers =>
    have hauxiliary : r.stage = .auxiliary := by
      rcases hfrom with hstage | hstage | hstage
      · exact absurd (hstage ▸ hiterates) nofun
      · exact hstage
      · exact absurd (hstage ▸ hiterates) nofun
    exact hanswers.dualWithin hdual ht hauxiliary (hsound.advance ht) hto

end Entries

/-! ## Steps within phase two -/

/-- The length of the dual step that a run in phase two takes from a boundary. -/
def stepLength (t : Job (Exact 0)) (r : Run (Exact 0)) : ℚ :=
  if r.stage = .main then r.engine.pivotLength t else 0

theorem stepLength_nonneg (ht : t.WellFormed) (hsound : r.engine.Sound t) :
    0 ≤ r.stepLength t := by
  unfold stepLength
  split
  · exact hsound.pivotLength_nonneg ht
  · exact le_rfl

theorem dualFeasible_proceed {limit : ℚ} {p : Progress (Exact 0)} (hp : p.DualFeasible t limit)
    {stage : Stage} (hgoes : (r.proceed p stage).stage ≠ .done .numericalError) :
    (r.proceed p stage).engine.DualFeasible t limit := by
  cases p with
  | going e => exact hp
  | stopped e status => exact hp fun hc => hgoes (congrArg Stage.done hc)

section Steps

variable {limit : ℚ} (ht : t.WellFormed) (hdual : 0 < t.parameters.dualTolerance.value)
  (hpivot : 0 < t.parameters.pivotTolerance.value)
  (hlimit : t.parameters.dualTolerance.value ≤ limit) (h : r.engine.DualFeasible t limit)

include h

theorem dualFeasible_stepEnterMain : (r.stepEnterMain t).engine.DualFeasible t limit := by
  unfold stepEnterMain
  dsimp only
  split
  · exact h.perturbAll
  · exact h

include ht hdual hpivot hlimit

omit hpivot h in
theorem Answers.dualFeasible (hstage : r.stage = .main) {r' : Run (Exact 0)} {s : Step (Exact 0)}
    (hs : s.DualFeasible t limit) (hanswers : r.Answers t s r')
    (hgoes : r'.stage ≠ .done .numericalError) : r'.engine.DualFeasible t limit := by
  cases hanswers with
  | next => exact hs
  | stopped => exact hs fun hc => hgoes (congrArg Stage.done hc)
  | reject => exact dualFeasible_proceed (Engine.DualFeasible.rejectRay ht hdual hlimit hs) hgoes
  | accept => exact Engine.DualFeasible.of_stance hs (Sound.withRays hs.sound _ _) rfl
  | acceptInstead hother => exact absurd (hstage.symm.trans hother) nofun
  | leave hother => exact absurd (hstage.symm.trans hother) nofun
  | toReview => exact hs
  | undo hother => exact absurd (hstage.symm.trans hother) nofun
  | feasible hother => exact absurd (hstage.symm.trans hother) nofun

/-- On its way through phase two a run gets worse by the pivot tolerance for each unit of
the dual step at most. -/
theorem dualFeasible_step (hstage : r.stage = .enterMain ∨ r.stage = .main)
    (hsettled : r.engine.Settled t) (hgoes : (r.step t).stage ≠ .done .numericalError) :
    (r.step t).engine.DualFeasible t
      (limit + t.parameters.pivotTolerance.value * r.stepLength t) := by
  unfold stepLength
  rcases hstage with hstage | hstage
  · unfold step
    rw [hstage, if_neg nofun, mul_zero, add_zero]
    exact dualFeasible_stepEnterMain h
  · have hadvanced := h.advance ht hdual hpivot hlimit hsettled
    have hlimit : t.parameters.dualTolerance.value ≤
        limit + t.parameters.pivotTolerance.value * r.engine.pivotLength t :=
      le_add_of_le_of_nonneg hlimit (mul_nonneg hpivot.le (h.sound.pivotLength_nonneg ht))
    have hanswers := answers_step (t := t) (Or.inr (Or.inl hstage))
    rw [if_pos hstage]
    exact hanswers.dualFeasible ht hdual hlimit hstage hadvanced hgoes

end Steps

/-! ## Visits -/

section Visits

variable (ht : t.WellFormed) (hordered : ∀ b ∈ t.bounds, b.lower.above b.upper = false)
  (hdual : 0 < t.parameters.dualTolerance.value)
  (hpivot : 0 < t.parameters.pivotTolerance.value) (hbasis : basis.Valid t.program) {k n : Nat}

include ht hordered hdual hpivot hbasis

omit hpivot in
theorem Enters.dualFeasible (h : ((step t)^[k] (begin t basis)).Enters t) :
    ((step t)^[k + 1] (begin t basis)).engine.DualFeasible t
      t.parameters.dualTolerance.value := by
  have hsound := sound_iterate_step ht hbasis (k + 1)
  have hstands := stands_iterate_step ht hbasis (k + 1)
  obtain ⟨hrelaxed, hwithin⟩ := Enters.dualWithin hdual (sound_iterate_step ht hbasis k) ht
    (stands_iterate_step ht hbasis k) h
  rw [Function.iterate_succ_apply'] at hsound hstands ⊢
  unfold Stands at hstands
  rw [h.2] at hstands
  exact ⟨hsound, widened_of_bounds hordered (bounds_of_ground hstands hrelaxed) hrelaxed, hwithin⟩

/-- Through a visit to phase two the dual steps add up. -/
theorem dualFeasible_visit (henters : ((step t)^[k] (begin t basis)).Enters t)
    (hvisit : ∀ i, i < n → ((step t)^[k + 1 + i] (begin t basis)).stage = .enterMain ∨
      ((step t)^[k + 1 + i] (begin t basis)).stage = .main)
    (hgoes : ((step t)^[k + 1 + n] (begin t basis)).stage ≠ .done .numericalError) :
    ((step t)^[k + 1 + n] (begin t basis)).engine.DualFeasible t
      (t.parameters.dualTolerance.value + t.parameters.pivotTolerance.value *
        ∑ i ∈ Finset.range n, ((step t)^[k + 1 + i] (begin t basis)).stepLength t) := by
  induction n with
  | zero =>
    rw [Finset.sum_range_zero, mul_zero, add_zero]
    exact henters.dualFeasible ht hordered hdual hbasis
  | succ n ih =>
    have hstage := hvisit n (Nat.lt_succ_self n)
    have hnotDone : ∀ status, ((step t)^[k + 1 + n] (begin t basis)).stage ≠ .done status := by
      intro status hdone
      rcases hstage with hstage | hstage
      · exact absurd (hstage.symm.trans hdone) nofun
      · exact absurd (hstage.symm.trans hdone) nofun
    have hbefore := ih (fun i hi => hvisit i (Nat.lt_succ_of_lt hi)) (hnotDone _)
    have hsettled := (settles_iterate_step ht hpivot hbasis (k + 1 + n)).settled hnotDone
    have hsum : 0 ≤ ∑ i ∈ Finset.range n, ((step t)^[k + 1 + i] (begin t basis)).stepLength t :=
      Finset.sum_nonneg fun i _ => stepLength_nonneg ht (sound_iterate_step ht hbasis _)
    rw [← Nat.add_assoc, Function.iterate_succ_apply'] at hgoes ⊢
    rw [Finset.sum_range_succ, mul_add, ← add_assoc]
    exact dualFeasible_step ht hdual hpivot
      (le_add_of_nonneg_right (mul_nonneg hpivot.le hsum)) hbefore hstage hsettled hgoes

end Visits

end Run

/-- From the boundary at which a run enters phase two until it leaves, no reduced cost is
of the wrong sign by more than the dual tolerance, and the pivot tolerance times the
lengths of the dual steps so far.  A renewal that is due at a boundary keeps to that.
When the solve gives up for numerical reasons nothing is claimed of the end. -/
theorem Run.dualInfeasibility_in_phase_two {d : Draft (Exact 0)} {lp : LinearProgram (Exact 0)}
    (hbuild : d.build = .ok lp) {basis : Basis} (hbasis : basis.validate lp = .ok ())
    {p : Parameters (Exact 0)} (hp : p.validate = .ok ()) (k n : Nat) :
    let t : Job (Exact 0) := ⟨lp, p⟩
    let r := fun k => (step t)^[k] (begin t basis)
    (r k).Enters t →
    (∀ i, i < n → (r (k + 1 + i)).stage = .enterMain ∨ (r (k + 1 + i)).stage = .main) →
    (r (k + 1 + n)).stage ≠ .done .numericalError →
    let limit := p.dualTolerance.value +
      p.pivotTolerance.value * ∑ i ∈ Finset.range n, (r (k + 1 + i)).stepLength t
    (∀ j, ((r (k + 1 + n)).engine.dualInfeasibility j).value ≤ limit) ∧
    ∀ e, (r (k + 1 + n)).engine.renewIfDue t = .going e →
      ∀ j, (e.dualInfeasibility j).value ≤ limit := by
  intro t r henters hvisit hgoes limit
  have ht := Job.wellFormed_of_build d.canonical_exact hbuild hp
  obtain ⟨-, ⟨-, hdual⟩, -, hpivot⟩ := Parameters.tolerances_of_validate hp
  have hvalid := Basis.valid_of_validate ht.program hbasis
  have hfeasible := dualFeasible_visit ht (Job.not_above_bounds hbuild p) hdual hpivot hvalid
    henters hvisit hgoes
  have hsum : 0 ≤ ∑ i ∈ Finset.range n, (r (k + 1 + i)).stepLength t :=
    Finset.sum_nonneg fun i _ => stepLength_nonneg ht (sound_iterate_step ht hvalid _)
  have hlimit : p.dualTolerance.value ≤ limit :=
    le_add_of_nonneg_right (mul_nonneg (le_of_lt hpivot) hsum)
  refine ⟨hfeasible.within, fun e hrenewed => ?_⟩
  have hdue : (Progress.going e).DualFeasible t limit :=
    hrenewed ▸ hfeasible.renewIfDue ht hdual hlimit
  exact Engine.DualFeasible.within hdue

/-- Two columns, of which the cheaper one has to reach three. -/
def Draft.cover : Draft (Exact 0) :=
  { (blank 1 2).withMatrix #[0, 1, 2] #[0, 0] #[1, 1] with
    costs := #[1, 2]
    rowLower := #[.finite (3 : Nat)] }

/-- The start of the solve leads to phase two, in which there is a dual step. -/
theorem Run.dualInfeasibility_in_phase_two_cover : ∃ lp, Draft.cover.build = .ok lp ∧
    (Basis.slack lp).validate lp = .ok () ∧
    let t : Job (Exact 0) := ⟨lp, .default⟩
    let r := fun k => (step t)^[k] (begin t (Basis.slack lp))
    0 < (r 2).stepLength t ∧ ∀ j, ((r 3).engine.dualInfeasibility j).value ≤
      t.parameters.dualTolerance.value +
        t.parameters.pivotTolerance.value * ∑ i ∈ Finset.range 2, (r (1 + i)).stepLength t := by
  obtain ⟨lp, hbuild, hrun⟩ := exists_of_any_toOption (x := Draft.cover.build)
    (P := fun lp => ((Basis.slack lp).validate lp).toOption.isSome &&
      let t : Job (Exact 0) := ⟨lp, .default⟩
      let r := fun k => (step t)^[k] (begin t (Basis.slack lp))
      decide ((r 0).stage = .start ∧ (r 1).stage = .enterMain ∧ (r 2).stage = .main ∧
        (r 3).stage = .main ∧ 0 < (r 2).stepLength t)) (by decide +kernel)
  rw [Bool.and_eq_true] at hrun
  have hbasis := eq_ok_of_isSome hrun.1
  obtain ⟨hstart, henter, hmain, hlast, hstep⟩ := of_decide_eq_true hrun.2
  refine ⟨lp, hbuild, hbasis, hstep, ?_⟩
  refine (dualInfeasibility_in_phase_two hbuild hbasis Parameters.validate_default 0 2
    ⟨Or.inl hstart, henter⟩ (fun i hi => ?_) ?_).1
  · rcases Nat.le_one_iff_eq_zero_or_eq_one.mp (Nat.le_of_lt_succ hi) with rfl | rfl
    · exact Or.inl henter
    · exact Or.inr hmain
  · rw [hlast]
    exact nofun

end DualSimplex
