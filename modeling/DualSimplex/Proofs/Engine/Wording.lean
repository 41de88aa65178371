import DualSimplex.Proofs.Engine.Pivoting

/-!
# What a run does not read

The objective of a program can be written down in two ways: as costs to minimize, or as their
negatives to maximize.  A run works with the costs of the minimization alone.  So it cannot tell
the two apart, nor can it tell what the offset is.  The iteration limit is read at a single place.

Each function of the engine does the same whichever way the objective of its job is written down.
-/

namespace DualSimplex

open Scalar

variable {α : Type} [Scalar α]

/-- How the objective of a program is written down, and how many iterations are allowed. -/
structure Wording (α : Type) where
  sense : ObjectiveSense
  offset : α
  costs : Array α
  limit : Option Nat

/-- A job with its objective and its iteration limit written anew. -/
def Job.reword (t : Job α) (w : Wording α) : Job α where
  program := { t.program with sense := w.sense, offset := w.offset, costs := w.costs }
  parameters := { t.parameters with iterationLimit := w.limit }

/-- The costs to minimize are those of the job. -/
def Wording.Keeps (w : Wording α) (t : Job α) : Prop :=
  w.costs.map w.sense.orient = t.program.costs.map t.program.sense.orient

variable {t : Job α} {w : Wording α} (h : w.Keeps t)

include h

/-! ## Jobs -/

namespace Job

theorem columnCount_reword : (t.reword w).columnCount = t.columnCount := by
  have hsize : (w.costs.map w.sense.orient).size =
      (t.program.costs.map t.program.sense.orient).size := congrArg Array.size h
  rw [Array.size_map, Array.size_map] at hsize
  exact hsize

theorem size_reword : (t.reword w).size = t.size := by
  unfold size
  rw [columnCount_reword h]
  rfl

theorem indices_reword : (t.reword w).indices = t.indices := by
  unfold indices
  rw [size_reword h]

theorem column_reword : (t.reword w).column = t.column := by
  funext j
  unfold column
  rw [columnCount_reword h]
  rfl

theorem costs_reword : (t.reword w).costs = t.costs :=
  congrArg (· ++ Array.replicate t.rowCount 0) h

end Job

open Job

namespace Engine

/-! ## Values and reduced costs -/

theorem solveValues_reword : Engine.solveValues (t.reword w) = Engine.solveValues t := by
  have hactivity : Engine.nonbasicActivity (t.reword w) = Engine.nonbasicActivity t := by
    funext e
    unfold Engine.nonbasicActivity
    rw [indices_reword h, column_reword h]
    rfl
  funext e
  unfold Engine.solveValues
  rw [hactivity]

theorem solveDuals_reword : Engine.solveDuals (t.reword w) = Engine.solveDuals t := by
  have hreduced : Engine.reducedCosts (t.reword w) = Engine.reducedCosts t := by
    funext e y
    unfold Engine.reducedCosts
    rw [columnCount_reword h]
    rfl
  funext e
  unfold Engine.solveDuals
  rw [hreduced]
  rfl

theorem recordResiduals_reword :
    Engine.recordResiduals (t.reword w) = Engine.recordResiduals t := by
  have hactivity : Engine.addActivity (t.reword w) = Engine.addActivity t := by
    funext e activity j
    unfold Engine.addActivity
    rw [column_reword h]
  have hprimal : Engine.primalResidual (t.reword w) = Engine.primalResidual t := by
    funext e
    unfold Engine.primalResidual
    rw [indices_reword h, hactivity]
    rfl
  have hdual : Engine.dualResidual (t.reword w) = Engine.dualResidual t := by
    funext e
    unfold Engine.dualResidual
    rw [column_reword h]
  funext e
  unfold Engine.recordResiduals
  rw [hprimal, hdual]

/-! ## Renewal and repair -/

theorem admitLogicals_reword : Engine.admitLogicals (t.reword w) = Engine.admitLogicals t := by
  funext e pairs
  unfold Engine.admitLogicals
  rw [columnCount_reword h]

theorem factorBasis_reword (attempts : Nat) (repaired : Bool) (e : Engine α) :
    factorBasis (t.reword w) attempts repaired e = factorBasis t attempts repaired e := by
  have hmatrix : Engine.basisMatrix (t.reword w) = Engine.basisMatrix t := by
    funext e
    unfold Engine.basisMatrix
    rw [column_reword h]
  induction attempts generalizing repaired e with
  | zero => rfl
  | succ attempts ih =>
    unfold Engine.factorBasis
    simp only [hmatrix, admitLogicals_reword h, ih]

theorem renew_reword : Engine.renew (t.reword w) = Engine.renew t := by
  funext e
  unfold Engine.renew
  rw [factorBasis_reword h, solveValues_reword h, solveDuals_reword h, recordResiduals_reword h]
  rfl

theorem dualInfeasible_reword :
    Engine.dualInfeasible (t.reword w) = Engine.dualInfeasible t := by
  funext e
  unfold Engine.dualInfeasible
  rw [indices_reword h]
  rfl

theorem settleReducedCosts_reword :
    Engine.settleReducedCosts (t.reword w) = Engine.settleReducedCosts t := by
  funext e
  unfold Engine.settleReducedCosts
  rw [dualInfeasible_reword h, solveValues_reword h]

theorem renewAndSettle_reword :
    Engine.renewAndSettle (t.reword w) = Engine.renewAndSettle t := by
  funext e
  unfold Engine.renewAndSettle
  rw [renew_reword h, settleReducedCosts_reword h]

theorem renewIfDue_reword : Engine.renewIfDue (t.reword w) = Engine.renewIfDue t := by
  funext e
  unfold Engine.renewIfDue
  rw [renewAndSettle_reword h]

/-! ## Relaxations -/

theorem perturbAll_reword : Engine.perturbAll (t.reword w) = Engine.perturbAll t := by
  funext e
  unfold Engine.perturbAll
  rw [indices_reword h]

theorem resetCosts_reword : resetCosts (t.reword w) = resetCosts t := by
  funext e
  unfold resetCosts
  rw [costs_reword h]

theorem leaveCycle_reword : Engine.leaveCycle (t.reword w) = Engine.leaveCycle t := by
  funext e
  unfold Engine.leaveCycle
  rw [renewAndSettle_reword h, perturbAll_reword h]
  rfl

/-! ## Iterations -/

theorem entry_reword : PivotRow.entry (t.reword w) = PivotRow.entry t := by
  funext r j
  unfold PivotRow.entry
  rw [columnCount_reword h]

theorem price_reword : Engine.price (t.reword w) = Engine.price t := by
  funext e rho
  unfold Engine.price
  rw [columnCount_reword h]
  rfl

theorem ratioTest_reword : Engine.ratioTest (t.reword w) = Engine.ratioTest t := by
  have hcandidate : Engine.candidate? (t.reword w) = Engine.candidate? t := by
    funext e r direction j
    unfold Engine.candidate?
    rw [entry_reword h]
    rfl
  funext e r direction
  unfold Engine.ratioTest PivotRow.support
  rw [hcandidate, columnCount_reword h]

theorem ftranEntering_reword : Engine.ftranEntering (t.reword w) = Engine.ftranEntering t := by
  funext e j
  unfold Engine.ftranEntering
  rw [column_reword h]
  rfl

theorem applyExchange_reword : Engine.applyExchange (t.reword w) = Engine.applyExchange t := by
  have hstep : Engine.dualStep (t.reword w) = Engine.dualStep t := by
    funext e r signedStep
    unfold Engine.dualStep
    rw [columnCount_reword h]
  have hduals : Engine.moveDuals (t.reword w) = Engine.moveDuals t := by
    funext e x
    unfold Engine.moveDuals
    rw [hstep]
  have hflip : flipInto (t.reword w) = flipInto t := by
    funext s j
    unfold flipInto
    rw [column_reword h]
  have hflips : Engine.flipPassed (t.reword w) = Engine.flipPassed t := by
    funext e flips
    unfold Engine.flipPassed
    rw [hflip]
    rfl
  funext e x
  unfold Engine.applyExchange
  rw [hduals, hflips]
  rfl

theorem performExchange_reword :
    Engine.performExchange (t.reword w) = Engine.performExchange t := by
  have hupdate : Engine.updateFactor (t.reword w) = Engine.updateFactor t := by
    funext e x quality
    unfold Engine.updateFactor
    rw [renewAndSettle_reword h]
    rfl
  have hwatch : Engine.watchCycle (t.reword w) = Engine.watchCycle t := by
    funext e entering
    unfold Engine.watchCycle
    rw [leaveCycle_reword h]
  funext e x
  unfold Engine.performExchange
  rw [applyExchange_reword h, hupdate, hwatch]
  rfl

theorem tryExchange_reword : Engine.tryExchange (t.reword w) = Engine.tryExchange t := by
  have hdoubtful : isDoubtful (t.reword w) = isDoubtful t := by
    funext x
    unfold isDoubtful
    rw [entry_reword h]
    rfl
  funext e x
  unfold Engine.tryExchange
  rw [hdoubtful, renewAndSettle_reword h, performExchange_reword h]
  rfl

/-- The limit is read when an entering variable has been found, and of the engine it reads the
number of iterations. -/
theorem iterate_reword {e : Engine α}
    (hlimit : e.atIterationLimit (t.reword w) = e.atIterationLimit t) :
    e.iterate (t.reword w) = e.iterate t := by
  have hat : ∀ position delta,
      e.iterateAt (t.reword w) position delta = e.iterateAt t position delta := by
    intro position delta
    have hrow : Engine.inverseRow (t.reword w) = Engine.inverseRow t := rfl
    have hpriced : ∀ rho, ((e.inverseRow t position).1.price t rho).1.atIterationLimit
        (t.reword w) = ((e.inverseRow t position).1.price t rho).1.atIterationLimit t :=
      fun _ => hlimit
    unfold Engine.iterateAt
    rw [hrow, price_reword h, ratioTest_reword h, ftranEntering_reword h, tryExchange_reword h]
    dsimp only
    rw [hpriced]
    rfl
  unfold Engine.iterate
  dsimp only
  rw [show Engine.infeasibilities (t.reword w) e = Engine.infeasibilities t e from rfl]
  cases e.weights.choosePosition (e.infeasibilities t) e.basicIndex with
  | none => rfl
  | some position => exact hat position _

theorem advance_reword {e : Engine α}
    (hlimit : ∀ e', e.renewIfDue t = .going e' →
      e'.atIterationLimit (t.reword w) = e'.atIterationLimit t) :
    e.advance (t.reword w) = e.advance t := by
  unfold Engine.advance
  rw [renewIfDue_reword h]
  cases hrenew : e.renewIfDue t with
  | stopped e' status => rfl
  | going e' =>
    dsimp only
    rw [iterate_reword h (hlimit e' hrenew)]
    rfl

/-! ## Phase one -/

theorem nonbasic_reword : Engine.nonbasic (t.reword w) = Engine.nonbasic t := by
  funext e
  unfold Engine.nonbasic
  rw [indices_reword h]

theorem enterAuxiliary_reword :
    Engine.enterAuxiliary (t.reword w) = Engine.enterAuxiliary t := by
  funext e
  unfold Engine.enterAuxiliary
  rw [nonbasic_reword h, solveValues_reword h]
  rfl

theorem restoreBounds_reword : Engine.restoreBounds (t.reword w) = Engine.restoreBounds t := by
  funext e
  unfold Engine.restoreBounds
  rw [nonbasic_reword h]
  rfl

/-- Whether a direction improves the objective is asked of the costs to minimize. -/
theorem isPrimalRay_reword : isPrimalRay (t.reword w).program = isPrimalRay t.program := by
  funext direction tolerance
  unfold isPrimalRay
  rw [show (t.reword w).program.costs.map (t.reword w).program.sense.orient =
    t.program.costs.map t.program.sense.orient from h]
  rfl

theorem leaveAuxiliary_reword :
    Engine.leaveAuxiliary (t.reword w) = Engine.leaveAuxiliary t := by
  funext e
  unfold Engine.leaveAuxiliary
  rw [columnCount_reword h, restoreBounds_reword h, nonbasic_reword h, solveValues_reword h,
    isPrimalRay_reword h, settleReducedCosts_reword h]
  rfl

theorem rejectRay_reword : Engine.rejectRay (t.reword w) = Engine.rejectRay t := by
  funext e
  unfold Engine.rejectRay Engine.recover
  rw [solveValues_reword h, renewAndSettle_reword h]

/-! ## Verdicts -/

theorem prepare_reword : Engine.prepare (t.reword w) = Engine.prepare t := by
  funext e
  unfold Engine.prepare
  rw [renew_reword h, columnCount_reword h]
  rfl

theorem needsPhaseOne_reword : Engine.needsPhaseOne (t.reword w) = Engine.needsPhaseOne t := by
  funext e
  unfold Engine.needsPhaseOne
  rw [indices_reword h]
  rfl

theorem primalInfeasibilities_reword :
    Engine.primalInfeasibilities (t.reword w) = Engine.primalInfeasibilities t := by
  funext e
  unfold Engine.primalInfeasibilities
  rw [indices_reword h]
  rfl

theorem dualInfeasibilities_reword :
    Engine.dualInfeasibilities (t.reword w) = Engine.dualInfeasibilities t := by
  funext e
  unfold Engine.dualInfeasibilities
  rw [indices_reword h]
  rfl

theorem review_reword : Engine.review (t.reword w) = Engine.review t := by
  have hback : Engine.withoutRelaxations (t.reword w) = Engine.withoutRelaxations t := by
    funext e
    unfold Engine.withoutRelaxations
    rw [resetCosts_reword h, solveValues_reword h]
  have haccept : Engine.isAcceptable (t.reword w) = Engine.isAcceptable t := by
    funext e
    unfold Engine.isAcceptable
    rw [primalInfeasibilities_reword h, dualInfeasibilities_reword h]
    rfl
  funext e isLast
  unfold Engine.review
  rw [hback, haccept, solveDuals_reword h, dualInfeasible_reword h, solveValues_reword h]
  rfl

theorem dropCosts_reword : Engine.dropCosts (t.reword w) = Engine.dropCosts t := by
  funext e
  unfold Engine.dropCosts
  rw [solveDuals_reword h]

theorem conclude_reword : Engine.conclude (t.reword w) = Engine.conclude t := by
  have hrefresh : Engine.refreshValues (t.reword w) = Engine.refreshValues t := by
    funext e
    unfold Engine.refreshValues
    rw [solveValues_reword h]
  funext e
  unfold Engine.conclude
  rw [restoreBounds_reword h, hrefresh, resetCosts_reword h, solveDuals_reword h]

theorem start_reword (basis : Basis) : start (t.reword w) basis = start t basis := by
  unfold start
  rw [costs_reword h, indices_reword h, size_reword h]
  rfl

end Engine

open Engine

/-! ## Runs -/

namespace Run

theorem begin_reword (basis : Basis) : begin (t.reword w) basis = begin t basis := by
  unfold begin
  rw [start_reword h, prepare_reword h]

theorem stepAuxiliary_reword {r : Run α}
    (hadvance : r.engine.advance (t.reword w) = r.engine.advance t) :
    r.stepAuxiliary (t.reword w) = r.stepAuxiliary t := by
  unfold stepAuxiliary
  rw [hadvance, leaveAuxiliary_reword h, rejectRay_reword h]

theorem stepMain_reword {r : Run α}
    (hadvance : r.engine.advance (t.reword w) = r.engine.advance t) :
    r.stepMain (t.reword w) = r.stepMain t := by
  unfold stepMain
  rw [hadvance, rejectRay_reword h]
  rfl

theorem stepFeasibility_reword {r : Run α}
    (hadvance : r.engine.advance (t.reword w) = r.engine.advance t) :
    r.stepFeasibility (t.reword w) = r.stepFeasibility t := by
  unfold stepFeasibility
  rw [hadvance, solveValues_reword h, rejectRay_reword h]
  rfl

/-- A step does the same if the iteration limit does not stop it. -/
theorem step_reword {r : Run α} (hadvance : r.stage.Iterates →
      r.engine.advance (t.reword w) = r.engine.advance t) :
    r.step (t.reword w) = r.step t := by
  unfold step
  cases hstage : r.stage with
  | start =>
    show r.stepStart (t.reword w) = r.stepStart t
    unfold stepStart
    rw [needsPhaseOne_reword h, settleReducedCosts_reword h]
  | enterAuxiliary =>
    dsimp only
    rw [enterAuxiliary_reword h]
  | auxiliary => exact stepAuxiliary_reword h (hadvance (Or.inl hstage))
  | enterMain =>
    show r.stepEnterMain (t.reword w) = r.stepEnterMain t
    unfold stepEnterMain
    rw [perturbAll_reword h]
    rfl
  | main => exact stepMain_reword h (hadvance (Or.inr (Or.inl hstage)))
  | review =>
    show r.stepReview (t.reword w) = r.stepReview t
    unfold stepReview
    rw [review_reword h]
  | enterFeasibility =>
    dsimp only
    rw [dropCosts_reword h]
  | feasibility => exact stepFeasibility_reword h (hadvance (Or.inr (Or.inr hstage)))
  | done status => rfl

/-- Without a new limit a job leads to the same outcome whatever its wording. -/
theorem outcome_reword (hlimit : w.limit = t.parameters.iterationLimit) (budget : Nat)
    (r : Run α) : r.outcome? (t.reword w) budget = r.outcome? t budget := by
  have hat : ∀ e : Engine α, e.atIterationLimit (t.reword w) = e.atIterationLimit t := by
    intro e
    unfold Engine.atIterationLimit
    rw [show (t.reword w).parameters.iterationLimit = t.parameters.iterationLimit from hlimit]
  have hstep : ∀ r : Run α, r.step (t.reword w) = r.step t := fun r =>
    step_reword h fun _ => advance_reword h fun e _ => hat e
  induction budget generalizing r with
  | zero =>
    unfold outcome?
    rfl
  | succ budget ih =>
    unfold outcome?
    cases r.stage with
    | done status => rfl
    | _ =>
      dsimp only
      rw [hstep, ih]

end Run
end DualSimplex
