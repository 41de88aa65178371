import DualSimplex.Proofs.Engine.Ground

/-!
# What an engine holds between basis changes

The basis with its weights and factors, the records of basis changes and the two alarms are
touched when a basis is factored anew or changed, and when its rows are weighed.  All other
steps leave them alone.
-/

namespace DualSimplex

open Scalar

/-- A basis with its weights and factors, and how often two computations of a pivot element
or a fresh factorization were found wrong. -/
structure Core (α : Type) where
  basicIndex : Array Nat
  weights : EdgeWeights α
  factorValid : Bool
  lu : LU α
  mismatches : Nat
  residuals : Nat

/-- The core, how the basis is factored, the counts of basis changes and of factorizations, and
the objective values that were recorded after basis changes. -/
structure Held (α : Type) extends Core α where
  policy : FactorPolicy α
  iterations : Nat
  phaseOneIterations : Nat
  refactorizations : Nat
  fillFactors : List Float
  objectiveTrace : List α

variable {α : Type} [Scalar α]

namespace Engine

variable {t : Job α} {e e' : Engine α}

def core (e : Engine α) : Core α where
  basicIndex := e.basicIndex
  weights := e.weights
  factorValid := e.factorValid
  lu := e.factor.lu
  mismatches := e.statistics.timesMet .pivotMismatch
  residuals := e.statistics.timesMet .residualTooLarge

def held (e : Engine α) : Held α where
  toCore := e.core
  policy := e.factor.parameters
  iterations := e.statistics.iterations
  phaseOneIterations := e.statistics.phaseOneIterations
  refactorizations := e.statistics.refactorizations
  fillFactors := e.statistics.fillFactors
  objectiveTrace := e.statistics.objectiveTrace

omit [Scalar α] in
theorem core_of_held (h : e'.held = e.held) : e'.core = e.core :=
  congrArg Held.toCore h

theorem held_solveValues (e : Engine α) : (e.solveValues t).held = e.held := by
  rw [solveValues_eq]
  rfl

theorem held_foldl_rest (f : Engine α → Nat → VariableStatus) (l : List Nat) (e : Engine α) :
    (l.foldl (fun e j => e.rest j (f e j)) e).held = e.held := by
  refine foldl_keeps held ?_ l e
  exact fun _ _ => rfl

theorem held_settleReducedCosts (e : Engine α) : (e.settleReducedCosts t).held = e.held := by
  have hfold : ∀ l : List Nat, (l.foldl (fun e j =>
      if e.hasTwoBounds j then e.flip j else e.adjustCost j) e).held = e.held := by
    refine fun l => foldl_keeps held (fun e j => ?_) l e
    split
    · rfl
    · rfl
  unfold Engine.settleReducedCosts
  dsimp only
  split
  · rfl
  · split
    · exact (held_solveValues _).trans (hfold _)
    · exact hfold _

theorem held_perturbAll (e : Engine α) : (e.perturbAll t).held = e.held := by
  refine foldl_keeps held (fun e j => ?_) t.indices e
  unfold Engine.perturb
  split
  · rfl
  · rfl

theorem held_relaxBound (e : Engine α) (j : Nat) : (e.relaxBound j).held = e.held := by
  unfold Engine.relaxBound
  dsimp only
  split
  · rfl
  · split
    · rfl
    · rfl

theorem held_undoRelaxations (hundo : e.undoRelaxations? = some e') : e'.held = e.held := by
  rw [(of_undoRelaxations hundo).2]
  refine foldl_keeps held (fun e r => ?_) e.relaxed e
  unfold Engine.undoRelaxation
  dsimp only
  split
  · rfl
  · rfl

omit [Scalar α] in
theorem held_countRecovery (e : Engine α) : e.countRecovery.engine.held = e.held := by
  unfold Engine.countRecovery
  dsimp only
  split
  · rfl
  · rfl

theorem held_raiseThreshold (e : Engine α) : e.raiseThreshold.held = e.held := by
  unfold Engine.raiseThreshold
  split
  · rename_i raised hraise
    rw [FactoredBasis.eq_of_raise hraise]
    rfl
  · rfl

theorem held_enterAuxiliary (e : Engine α) : (e.enterAuxiliary t).held = e.held :=
  (held_solveValues _).trans (held_foldl_rest
    (fun e j => feasibleStatus (e.boundsOf j) (e.reducedCostOf j)) _ _)

theorem held_restoreBounds (e : Engine α) : (e.restoreBounds t).held = e.held :=
  held_foldl_rest (fun e j => if (e.boundsOf j).allows (e.statusOf j) then e.statusOf j
    else (e.boundsOf j).restingStatus) _ _

theorem held_leaveAuxiliary (e : Engine α) : (e.leaveAuxiliary t).engine.held = e.held := by
  have hfinally : ((e.restFinally t).solveValues t).held = e.held :=
    (held_solveValues _).trans ((held_foldl_rest
      (fun e j => finalStatus (e.boundsOf j) (e.reducedCostOf j)) _ _).trans
        (held_restoreBounds e))
  rcases leaveAuxiliary_cases (t := t) e with heq | heq | heq
  · rw [heq.2]
    exact hfinally
  · rw [heq.2]
    exact hfinally
  · rw [heq]
    exact (held_settleReducedCosts _).trans hfinally

theorem held_reviewed (e : Engine α) : (e.reviewed t).held = e.held := by
  have hback : (e.withoutRelaxations t).held = e.held := by
    unfold Engine.withoutRelaxations
    split
    · rename_i e' hundo
      have hundone : e'.held = e.held := held_undoRelaxations hundo
      exact (held_solveValues _).trans hundone
    · rfl
  have hflipped : ∀ l : List Nat,
      (l.foldl Engine.flip ((e.withoutRelaxations t).solveDuals t)).held = e.held :=
    fun l => (held_foldl_rest (fun e j => (e.statusOf j).opposite) l _).trans hback
  unfold Engine.reviewed
  dsimp only
  split
  · exact hflipped _
  · exact (held_solveValues _).trans (hflipped _)

theorem held_refreshValues (e : Engine α) : (e.refreshValues t).held = e.held := by
  unfold Engine.refreshValues
  split
  · exact held_solveValues e
  · rfl

theorem held_conclude (e : Engine α) : (e.conclude t).held = e.held := by
  have hbounds : (if e.phase = .one then (e.restoreBounds t).refreshValues t else e).held =
      e.held := by
    split
    · exact (held_refreshValues _).trans (held_restoreBounds e)
    · rfl
  unfold Engine.conclude
  dsimp only
  generalize (if e.phase = .one then (e.restoreBounds t).refreshValues t else e) = e₁ at hbounds ⊢
  cases hundo : e₁.undoRelaxations? with
  | none =>
    dsimp only
    split
    · exact hbounds
    · exact hbounds
  | some e₂ =>
    have hundone := (held_refreshValues (t := t) e₂).trans
      ((held_undoRelaxations hundo).trans hbounds)
    dsimp only
    split
    · exact hundone
    · exact hundone

theorem statistics_admitLogicals (e : Engine α) (pairs : List (Nat × Nat)) :
    (e.admitLogicals t pairs).statistics = e.statistics := by
  refine (foldl_keeps Engine.statistics ?_ pairs _).trans
    (foldl_keeps Engine.statistics ?_ pairs { e with factorValid := false })
  · exact fun _ _ => rfl
  · exact fun _ _ => rfl

theorem weights_admitLogicals (e : Engine α) (pairs : List (Nat × Nat)) :
    (e.admitLogicals t pairs).weights = e.weights := by
  refine (foldl_keeps Engine.weights ?_ pairs _).trans
    (foldl_keeps Engine.weights ?_ pairs { e with factorValid := false })
  · exact fun _ _ => rfl
  · exact fun _ _ => rfl

theorem core_traceObjective (e : Engine α) : (e.traceObjective t).core = e.core := by
  unfold Engine.traceObjective
  split
  · rfl
  · rfl

theorem held_lowerReducedCost (e : Engine α) (j : Nat) (amount : α) :
    (e.lowerReducedCost j amount).held = e.held := by
  unfold Engine.lowerReducedCost
  split
  · rfl
  · rfl

theorem held_tau (e : Engine α) (rho : SparseVector α) : (e.tau? t rho).1.held = e.held := by
  unfold Engine.tau?
  split
  · rfl
  · rfl

theorem held_moveDuals (e : Engine α) (x : Exchange α) : (e.moveDuals t x).held = e.held := by
  have hstep : ∀ s : α, (e.dualStep t x.row s).held = e.held := by
    intro s
    refine (foldl_keeps held (fun e u => ?_) _ _).trans (foldl_keeps held (fun e u => ?_) _ _)
    · exact held_lowerReducedCost e _ _
    · exact held_lowerReducedCost e _ _
  show (if _ then _ else _ : Engine α).held = _
  split
  · rfl
  · exact hstep _

theorem held_flipPassed (e : Engine α) (flips : List Nat) :
    (e.flipPassed t flips).held = e.held :=
  flipPassed_keeps held (fun _ _ => rfl) (fun _ _ => rfl) (fun _ _ => rfl) e flips

theorem held_movePrimal (e : Engine α) (x : Exchange α) : (e.movePrimal x).held = e.held := by
  unfold Engine.movePrimal
  dsimp only
  rw [lowerBasicValues_eq]
  rfl

/-- What a basis change does to the core before the factors are brought up to date. -/
theorem held_applyExchange (e : Engine α) (x : Exchange α) :
    (e.applyExchange t x).1.held = { e.held with
      basicIndex := e.basicIndex.setIfInBounds x.position x.entering
      weights := (e.weights.update x.position x.column (e.tau? t x.row.rho).2).1
      iterations := e.statistics.iterations + 1
      phaseOneIterations := e.statistics.phaseOneIterations +
        if (e.applyExchange t x).1.phase = .one then 1 else 0 } := by
  have hmoved : ((((e.tau? t x.row.rho).1.moveDuals t x).flipPassed t x.flips).movePrimal x).held =
      e.held :=
    (held_movePrimal _ x).trans ((held_flipPassed _ x.flips).trans
      ((held_moveDuals _ x).trans (held_tau e x.row.rho)))
  have hchange : ∀ e₁ : Engine α, e₁.held = e.held →
      (({ e₁ with weights := (e₁.weights.update x.position x.column
        (e.tau? t x.row.rho).2).1 }.exchange x).countPivot x.flips.length).held = { e.held with
          basicIndex := e.basicIndex.setIfInBounds x.position x.entering
          weights := (e.weights.update x.position x.column (e.tau? t x.row.rho).2).1
          iterations := e.statistics.iterations + 1
          phaseOneIterations := e.statistics.phaseOneIterations +
            if e₁.phase = .one then 1 else 0 } := by
    intro e₁ h
    have hindex : e₁.basicIndex = e.basicIndex := congrArg (fun s => s.basicIndex) h
    have hweights : e₁.weights = e.weights := congrArg (fun s => s.weights) h
    have hcount : e₁.statistics.iterations = e.statistics.iterations :=
      congrArg Held.iterations h
    have hphaseOne : e₁.statistics.phaseOneIterations = e.statistics.phaseOneIterations :=
      congrArg Held.phaseOneIterations h
    rw [← h, ← hindex, ← hweights, ← hcount, ← hphaseOne]
    rfl
  exact hchange _ hmoved

end Engine
end DualSimplex
