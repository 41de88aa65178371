import DualSimplex.Proofs.Engine.PhaseTwo

/-!
# Bounds along a run

A stage begins on the bounds of the program or on those of the auxiliary problem.  While it
lasts bounds are moved outwards only, and brought back to where they were before.  So no
lower bound ever comes to lie above an upper one.
-/

namespace DualSimplex

open Scalar Exact

namespace Engine

variable {t : Job (Exact 0)} {e : Engine (Exact 0)}

/-- Some limit holds for all reduced costs, whatever they are. -/
theorem Sound.exists_dualFeasible (h : e.Sound t) (hwidened : e.Widened)
    (hdual : 0 < t.parameters.dualTolerance.value) :
    ∃ limit, t.parameters.dualTolerance.value ≤ limit ∧ e.DualFeasible t limit := by
  obtain ⟨largest, hlargest⟩ :=
    ((Finset.range t.size).image fun j => (e.dualInfeasibility j).value).exists_le
  refine ⟨max t.parameters.dualTolerance.value largest, le_max_left .., h, hwidened,
    h.dualWithin_of_lt (hdual.le.trans (le_max_left ..)) fun j hj => ?_⟩
  exact (hlargest _ (Finset.mem_image_of_mem _ (Finset.mem_range.mpr hj))).trans (le_max_right ..)

theorem Settled.exists_advance (h : e.Settled t) (hwidened : e.Widened) (ht : t.WellFormed)
    (hdual : 0 < t.parameters.dualTolerance.value)
    (hpivot : 0 < t.parameters.pivotTolerance.value) :
    ∃ limit, t.parameters.dualTolerance.value ≤ limit ∧ (e.advance t).DualFeasible t limit := by
  obtain ⟨limit, hlimit, hfeasible⟩ := h.sound.exists_dualFeasible hwidened hdual
  exact ⟨_, le_add_of_le_of_nonneg hlimit (mul_nonneg hpivot.le (h.sound.pivotLength_nonneg ht)),
    hfeasible.advance ht hdual hpivot hlimit h⟩

/-- The auxiliary problem begins on bounds of its own. -/
theorem widened_enterAuxiliary (e : Engine (Exact 0)) : (e.enterAuxiliary t).Widened := by
  have hsetting := setting_enterAuxiliary (t := t) e
  refine widened_of_bounds (fun b hb => ?_) (bounds_congr hsetting) (relaxed_congr hsetting)
  obtain ⟨c, -, rfl⟩ := Array.mem_map.mp hb
  exact Interval.not_above_auxiliary c

end Engine

namespace Run

open Engine

variable {t : Job (Exact 0)} {r : Run (Exact 0)}

section Steps

variable (ht : t.WellFormed) (hordered : ∀ b ∈ t.bounds, b.lower.above b.upper = false)
  (hdual : 0 < t.parameters.dualTolerance.value)
  (hpivot : 0 < t.parameters.pivotTolerance.value)

theorem widened_proceed {limit : ℚ} {p : Progress (Exact 0)} (hp : p.DualFeasible t limit)
    {stage : Stage} (hgoes : ∀ status, (r.proceed p stage).stage ≠ .done status) :
    (r.proceed p stage).engine.Widened :=
  (dualFeasible_proceed hp (hgoes .numericalError)).widened

include ht hordered hdual

theorem Answers.widened {limit : ℚ} (hlimit : t.parameters.dualTolerance.value ≤ limit)
    {r' : Run (Exact 0)} {s : Step (Exact 0)} (hs : s.DualFeasible t limit)
    (hanswers : r.Answers t s r') (hgoes : ∀ status, r'.stage ≠ .done status) :
    r'.engine.Widened := by
  cases hanswers with
  | next => exact Engine.DualFeasible.widened hs
  | stopped => exact absurd rfl (hgoes _)
  | reject => exact widened_proceed (Engine.DualFeasible.rejectRay ht hdual hlimit hs) hgoes
  | accept => exact absurd rfl (hgoes _)
  | acceptInstead => exact absurd rfl (hgoes _)
  | leave =>
    obtain ⟨hbounds, hrelaxed⟩ := limits_leaveAuxiliary (t := t) _
    exact widened_of_bounds hordered hbounds hrelaxed
  | toReview => exact Engine.DualFeasible.widened hs
  | undo _ hundo => exact (Engine.DualFeasible.undoRelaxations hs hundo).solveValues.widened
  | feasible => exact absurd rfl (hgoes _)

include hpivot

/-- A step keeps the bounds of a run in order. -/
theorem widened_step (hsettles : r.Settles t) (hstands : r.Stands t) (h : r.engine.Widened)
    (hgoes : ∀ status, (r.step t).stage ≠ .done status) : (r.step t).engine.Widened := by
  by_cases hgoing : ∀ status, r.stage ≠ .done status
  · have hmoves := moves_step t r
    generalize r.step t = r' at hmoves hgoes ⊢
    cases hmoves with
    | stay => exact h
    | needsPhaseOne => exact h
    | settle => exact h.of_setting (setting_settleReducedCosts r.engine)
    | enterAuxiliary => exact widened_enterAuxiliary r.engine
    | perturb => exact h.of_setting (setting_congr (standing_perturbAll r.engine))
    | enterMain => exact h
    | enterFeasibility => exact h.congr rfl rfl
    | review hstage =>
      -- a review takes all relaxations back
      obtain ⟨hground, hrelaxed⟩ := ground_reviewed (t := t) r.engine
      unfold Stands at hstands
      rw [hstage] at hstands
      exact widened_of_bounds hordered (bounds_of_ground (hground.trans hstands) hrelaxed) hrelaxed
    | iterate _ hanswers =>
      obtain ⟨limit, hlimit, hadvanced⟩ :=
        (hsettles.settled hgoing).exists_advance h ht hdual hpivot
      exact hanswers.widened ht hordered hdual hlimit hadvanced hgoes
  · obtain ⟨status, hdone⟩ := not_forall_not.mp hgoing
    rw [step_of_done hdone]
    exact h

omit ht hdual hpivot in
theorem widened_begin (basis : Basis)
    (hgoes : ∀ status, (begin t basis).stage ≠ .done status) :
    (begin t basis).engine.Widened := by
  have hstands := stands_begin t basis
  unfold begin at hgoes hstands ⊢
  dsimp only at hgoes hstands ⊢
  generalize (Engine.start t basis).prepare t = p at hgoes hstands ⊢
  cases p with
  | going e =>
    have hstands : e.ground = t.ground .two none none ∧ e.relaxed = [] := hstands
    exact widened_of_bounds hordered (bounds_of_ground hstands.1 hstands.2) hstands.2
  | stopped e status => exact absurd rfl (hgoes status)

/-- At every boundary the bounds are in order. -/
theorem widened_iterate_step {basis : Basis} (hbasis : basis.Valid t.program) {k : Nat}
    (hgoes : ∀ status, ((step t)^[k] (begin t basis)).stage ≠ .done status) :
    ((step t)^[k] (begin t basis)).engine.Widened := by
  induction k with
  | zero => exact widened_begin hordered basis hgoes
  | succ k ih =>
    rw [Function.iterate_succ_apply'] at hgoes ⊢
    refine widened_step ht hordered hdual hpivot (settles_iterate_step ht hpivot hbasis k)
      (stands_iterate_step ht hbasis k) (ih fun status hdone => hgoes status ?_) hgoes
    rw [step_of_done hdone]
    exact hdone

end Steps

/-- No bounds contradict each other at any boundary at which a run goes on. -/
theorem not_above_boundsOf {d : Draft (Exact 0)} {lp : LinearProgram (Exact 0)}
    (hbuild : d.build = .ok lp) {basis : Basis} (hbasis : basis.validate lp = .ok ())
    {p : Parameters (Exact 0)} (hp : p.validate = .ok ()) (k : Nat) :
    let t : Job (Exact 0) := ⟨lp, p⟩
    let r := (step t)^[k] (begin t basis)
    (∀ status, r.stage ≠ .done status) →
      ∀ j, (r.engine.boundsOf j).lower.above (r.engine.boundsOf j).upper = false := by
  intro t r hgoes
  have ht := Job.wellFormed_of_build d.canonical_exact hbuild hp
  obtain ⟨-, ⟨-, hdual⟩, -, hpivot⟩ := Parameters.tolerances_of_validate hp
  exact (widened_iterate_step ht (Job.not_above_bounds hbuild p) hdual hpivot
    (Basis.valid_of_validate ht.program hbasis) hgoes).ordered

end Run
end DualSimplex
