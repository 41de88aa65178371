import DualSimplex.Proofs.Engine.Ground
import DualSimplex.Solve

/-!
# How runs end

Each stage of a run has its ground: the bounds of its phase, and the rays that were
found on the way to it.  A run that ends with a statement about the program has the
proof of it at hand.
-/

namespace DualSimplex

open Scalar

variable {α : Type} [Scalar α]

/-- What the end of a run with a status says about the engine. -/
def Engine.Proves (t : Job α) (e : Engine α) : SolveStatus → Prop
  | .primalInfeasible => ∃ ray, isDualRay t.program ray = true ∧
      e.dualRay = some ray ∧ e.primalRay = none
  | .dualInfeasible => e.dualRay = none ∧
      (∃ direction, isPrimalRay t.program direction t.parameters.primalTolerance = true ∧
        e.primalRay = some direction) ∧
      e.phase = .two ∧ e.relaxed = [] ∧ e.Feasible t
  | .optimal => e.dualRay = none ∧ e.primalRay = none ∧ e.phase = .two ∧ e.relaxed = []
  | _ => e.dualRay = none

theorem Engine.proves_of_inconclusive {t : Job α} {e : Engine α} (h : e.dualRay = none)
    {status : SolveStatus} (hstatus : status.Inconclusive) : e.Proves t status := by
  rcases hstatus with rfl | rfl | rfl | rfl
  · exact h
  · exact h
  · exact h
  · exact h

namespace Run

/-- What an engine stands on in a stage. -/
def Stands (t : Job α) (r : Run α) : Prop :=
  match r.stage with
  | .start => r.engine.ground = t.ground .two none none ∧ r.engine.relaxed = []
  | .auxiliary => r.engine.ground = t.ground .one none none
  | .enterFeasibility | .feasibility => ∃ direction,
      isPrimalRay t.program direction t.parameters.primalTolerance = true ∧
      r.engine.ground = t.ground .two none (some direction)
  | .done status =>
      (∃ phase dualRay primalRay, r.engine.ground = t.ground phase dualRay primalRay) ∧
        r.engine.Proves t status
  | _ => r.engine.ground = t.ground .two none none

variable {t : Job α} {r : Run α} {phase : Phase} {primalRay : Option (Array α)}

theorem stands_stopped {e : Engine α} (h : e.ground = t.ground phase none primalRay)
    {status : SolveStatus} (hstatus : status.Inconclusive) (r : Run α) :
    (r.goTo e (.done status)).Stands t :=
  ⟨⟨_, _, _, h⟩, Engine.proves_of_inconclusive (congrArg Ground.dualRay h) hstatus⟩

/-- A run goes on from a step if the ground of the step is that of the stage. -/
theorem stands_proceed {p : Progress α} (hp : p.Stands (t.ground phase none primalRay)) {r : Run α}
    {stage : Stage} (hstage : ∀ e : Engine α, e.ground = t.ground phase none primalRay →
      (r.goTo e stage).Stands t) : (r.proceed p stage).Stands t := by
  cases p with
  | going e => exact hstage e hp
  | stopped e status => exact stands_stopped hp.1 hp.2 r

theorem ground_start (t : Job α) (basis : Basis) :
    (Engine.start t basis).ground = t.ground .two none none := rfl

theorem stands_begin (t : Job α) (basis : Basis) : (begin t basis).Stands t := by
  have hstands := Engine.stands_prepare (t := t) (ground_start t basis)
  have hrelaxed := Engine.relaxed_prepare (t := t) (Engine.start t basis)
  unfold begin
  dsimp only
  generalize (Engine.start t basis).prepare t = p at hstands hrelaxed ⊢
  cases p with
  | going e => exact ⟨hstands, hrelaxed⟩
  | stopped e status => exact stands_stopped hstands.1 hstands.2 _

section Iterations

variable (hstage : r.stage.Iterates) (h : r.Stands t)

include hstage h

/-- There is no dual ray while a run iterates. -/
theorem Stands.exists_ground :
    ∃ phase primalRay, r.engine.ground = t.ground phase none primalRay := by
  unfold Stands at h
  rcases hstage with hstage | hstage | hstage
  · rw [hstage] at h
    exact ⟨_, _, h⟩
  · rw [hstage] at h
    exact ⟨_, _, h⟩
  · rw [hstage] at h
    obtain ⟨direction, -, h⟩ := h
    exact ⟨_, _, h⟩

theorem Stands.goTo {e : Engine α} (he : e.ground = r.engine.ground) :
    (r.goTo e r.stage).Stands t ∧ (r.goTo e r.stage.onward).Stands t := by
  unfold Stands at h
  rcases hstage with hstage | hstage | hstage
  · rw [hstage] at h ⊢
    exact ⟨he.trans h, he.trans h⟩
  · rw [hstage] at h ⊢
    exact ⟨he.trans h, he.trans h⟩
  · rw [hstage] at h ⊢
    obtain ⟨direction, hdirection, h⟩ := h
    exact ⟨⟨direction, hdirection, he.trans h⟩, direction, hdirection, he.trans h⟩

/-- In the end a ray or the feasible point is there. -/
theorem Answers.stands {r' : Run α} {s : Step α} (hs : s.Stands t r.engine.ground)
    (hanswers : r.Answers t s r') : r'.Stands t := by
  obtain ⟨phase, primalRay, hground⟩ := h.exists_ground hstage
  cases hanswers with
  | next => exact (h.goTo hstage hs).1
  | stopped => exact stands_stopped (hs.1.trans hground) hs.2 r
  | @reject e ray =>
    have hs : e.ground = r.engine.ground := hs
    exact stands_proceed (Engine.stands_rejectRay (hs.trans hground))
      fun e he => (h.goTo hstage (he.trans hground.symm)).2
  | @accept hmain e ray hray =>
    unfold Stands at h
    rw [hmain] at h
    have hs : e.ground = t.ground .two none none := Eq.trans hs h
    refine ⟨⟨.two, some ray, none, ?_⟩, ray, hray, rfl, congrArg Ground.primalRay hs⟩
    exact congrArg (fun g : Ground α => { g with dualRay := some ray }) hs
  | @acceptInstead hfeasibility e ray hray =>
    unfold Stands at h
    rw [hfeasibility] at h
    obtain ⟨direction, -, h⟩ := h
    refine ⟨⟨.two, some ray, none, ?_⟩, ray, hray, rfl, rfl⟩
    exact congrArg (fun g : Ground α => { g with dualRay := some ray, primalRay := none })
      (Eq.trans hs h)
  | @leave hauxiliary e =>
    unfold Stands at h
    rw [hauxiliary] at h
    have hleave := Engine.ground_leaveAuxiliary (hs.1.trans h)
    generalize e.leaveAuxiliary t = phaseEnd at hleave ⊢
    cases phaseEnd with
    | dualFeasible e => exact hleave
    | ray e => exact hleave
  | toReview hmain =>
    unfold Stands at h
    rw [hmain] at h
    exact hs.1.trans h
  | undo hfeasibility hundo =>
    have hground := (Engine.ground_solveUndone (t := t) hundo).trans hs.1
    exact hfeasibility ▸ (h.goTo hstage hground).1
  | feasible hfeasibility hundo =>
    unfold Stands at h
    rw [hfeasibility] at h
    obtain ⟨direction, hdirection, h⟩ := h
    have hground := hs.1.trans h
    exact ⟨⟨_, _, _, hground⟩, congrArg Ground.dualRay hground,
      ⟨direction, hdirection, congrArg Ground.primalRay hground⟩,
      congrArg Ground.phase hground, Engine.relaxed_of_undoRelaxations hundo, hs.2⟩

end Iterations

theorem stands_review (h : r.engine.ground = t.ground .two none none) (reviews : Nat)
    (isLast : Bool) : ({ r with reviews := reviews }.goTo (r.engine.reviewed t)
      (r.engine.review t isLast).stage).Stands t := by
  obtain ⟨hground, hrelaxed⟩ := Engine.ground_reviewed (t := t) r.engine
  have hground := hground.trans h
  generalize r.engine.reviewed t = e at hground hrelaxed ⊢
  cases r.engine.review t isLast with
  | optimal e' =>
    exact ⟨⟨_, _, _, hground⟩, congrArg Ground.dualRay hground,
      congrArg Ground.primalRay hground, congrArg Ground.phase hground, hrelaxed⟩
  | primalInfeasible e' => exact hground
  | dualInfeasible e' => exact hground
  | failed e' => exact stands_stopped hground (Or.inr (Or.inr (Or.inr rfl))) _

variable [OrderedScalar α] (ht : t.WellFormed)

include ht

theorem stands_step (hsound : r.engine.Sound t) (h : r.Stands t) : (r.step t).Stands t := by
  have hmoves := moves_step t r
  generalize r.step t = r' at hmoves ⊢
  unfold Stands at h
  cases hmoves with
  | stay => exact h
  | needsPhaseOne hstage =>
    rw [hstage] at h
    exact h.1
  | settle hstage =>
    rw [hstage] at h
    exact (Engine.ground_of_setting (Engine.setting_settleReducedCosts _)).trans h.1
  | enterAuxiliary hstage =>
    rw [hstage] at h
    have hground := Engine.ground_enterAuxiliary (t := t) r.engine
    rw [show r.engine.dualRay = none from congrArg Ground.dualRay h,
      show r.engine.primalRay = none from congrArg Ground.primalRay h] at hground
    exact hground
  | perturb hstage =>
    rw [hstage] at h
    exact (Engine.ground_of_standing (Engine.standing_perturbAll _)).trans h
  | enterMain hstage =>
    rw [hstage] at h
    exact h
  | enterFeasibility hstage =>
    rw [hstage] at h
    exact h
  | review hstage =>
    rw [hstage] at h
    exact stands_review h _ _
  | iterate hiterates hanswers => exact hanswers.stands hiterates h (hsound.stands_advance ht rfl)

theorem stands_iterate_step {basis : Basis} (hbasis : basis.Valid t.program) (k : Nat) :
    ((step t)^[k] (begin t basis)).Stands t := by
  induction k with
  | zero => exact stands_begin t basis
  | succ k ih =>
    rw [Function.iterate_succ_apply']
    exact stands_step ht (sound_iterate_step ht hbasis k) ih

/-! ## Outcomes -/

variable {status : SolveStatus} {last : Engine α} {budget : Nat}

omit ht [OrderedScalar α] in
theorem outcome_done (hstage : r.stage = .done status) (budget : Nat) :
    r.outcome? t budget = some (status, r.engine) := by
  cases budget with
  | zero =>
    unfold outcome?
    rw [hstage]
  | succ budget =>
    unfold outcome?
    rw [hstage]

omit ht [OrderedScalar α] in
theorem outcome_succ (hgoes : ∀ final, r.stage ≠ .done final) (budget : Nat) :
    r.outcome? t (budget + 1) = (r.step t).outcome? t budget := by
  conv_lhs => unfold outcome?
  split
  · rename_i final hstage
    exact absurd hstage (hgoes final)
  · rfl

omit ht [OrderedScalar α] in
/-- From the end of a run back to any of its boundaries. -/
theorem outcome_induction {motive : Nat → Run α → Prop}
    (hdone : ∀ budget r, r.stage = .done status → r.engine = last → motive budget r)
    (hstep : ∀ budget r, (∀ final, r.stage ≠ .done final) →
      (r.step t).outcome? t budget = some (status, last) → motive budget (r.step t) →
      motive (budget + 1) r)
    (houtcome : r.outcome? t budget = some (status, last)) : motive budget r := by
  induction budget generalizing r with
  | zero =>
    unfold outcome? at houtcome
    split at houtcome
    · rename_i final hstage
      obtain ⟨rfl, hlast⟩ := Prod.mk.inj (Option.some.inj houtcome)
      exact hdone 0 r hstage hlast
    · exact absurd houtcome nofun
  | succ budget ih =>
    by_cases hgoes : ∀ final, r.stage ≠ .done final
    · rw [outcome_succ hgoes] at houtcome
      exact hstep budget r hgoes houtcome (ih houtcome)
    · obtain ⟨final, hstage⟩ := not_forall_not.mp hgoes
      rw [outcome_done hstage] at houtcome
      obtain ⟨rfl, hlast⟩ := Prod.mk.inj (Option.some.inj houtcome)
      exact hdone _ r hstage hlast

omit ht [OrderedScalar α] in
/-- An outcome is the engine of a run that is done. -/
theorem exists_of_outcome (houtcome : r.outcome? t budget = some (status, last)) :
    ∃ k, ((step t)^[k] r).stage = .done status ∧ ((step t)^[k] r).engine = last := by
  refine outcome_induction (motive := fun _ r =>
    ∃ k, ((step t)^[k] r).stage = .done status ∧ ((step t)^[k] r).engine = last)
    (fun _ r hstage hlast => ⟨0, hstage, hlast⟩) (fun _ r _ _ ih => ?_) houtcome
  obtain ⟨k, hk⟩ := ih
  exact ⟨k + 1, hk⟩

end Run

/-- A solution comes from an accepted input and from the end of its run. -/
theorem exists_of_solve {budget : Nat} {lp : LinearProgram α} {basis : Basis}
    {p : Parameters α} {s : Solution α} (h : solveWithBasis budget lp basis p = .ok (some s)) :
    p.validate = .ok () ∧ basis.validate lp = .ok () ∧
    ∃ last, (Run.begin ⟨lp, p⟩ basis).outcome? ⟨lp, p⟩ budget = some (s.status, last) ∧
      s = (last.conclude ⟨lp, p⟩).solution ⟨lp, p⟩ s.status := by
  unfold solveWithBasis at h
  split at h
  · exact absurd h nofun
  · rename_i hparameters
    split at h
    · exact absurd h nofun
    · rename_i hbasis
      obtain ⟨x, hx, he⟩ := Option.map_eq_some_iff.mp (Except.ok.inj h)
      obtain ⟨status, last⟩ := x
      rw [← he]
      exact ⟨hparameters, hbasis, last, hx, rfl⟩

theorem solveWithBasis_of_validate {lp : LinearProgram α} {basis : Basis}
    {p : Parameters α} (hp : p.validate = .ok ()) (hbasis : basis.validate lp = .ok ())
    (budget : Nat) : solveWithBasis budget lp basis p =
      .ok (((Run.begin ⟨lp, p⟩ basis).outcome? ⟨lp, p⟩ budget).map fun ended =>
        (ended.2.conclude ⟨lp, p⟩).solution ⟨lp, p⟩ ended.1) := by
  unfold solveWithBasis
  rw [hp, hbasis]

/-- What was found of a program and its solution by running the solve. -/
theorem exists_of_any_solution (d : Draft α) (p : Parameters α) (budget : Nat)
    (P : LinearProgram α → Solution α → Bool) (h : (d.build.toOption.any fun lp =>
      (solveWithBasis budget lp (Basis.slack lp) p).toOption.join.any (P lp)) = true) :
    ∃ lp s, d.build = .ok lp ∧ solveWithBasis budget lp (Basis.slack lp) p = .ok (some s) ∧
      P lp s = true := by
  obtain ⟨lp, hbuild, hrun⟩ := exists_of_any_toOption h
  match hsolve : solveWithBasis budget lp (Basis.slack lp) p, hrun with
  | .ok (some s), hs => exact ⟨lp, s, hbuild, hsolve, hs⟩

end DualSimplex
