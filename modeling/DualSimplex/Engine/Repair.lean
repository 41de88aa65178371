import DualSimplex.Engine.Values

/-!
# Renewal and repair

The basis is factored anew, and everything that follows from it is computed
from scratch.  A singular basis is repaired on the way: dependent variables
leave it for logical ones.  Reduced costs that come out with the wrong sign are
put right.
-/

namespace DualSimplex

open Scalar

namespace Engine

variable {α : Type} [Scalar α] (t : Job α)

/-- Attempts at factoring a basis. -/
def maxAttempts : Nat := 10

/-- The largest residual of a fresh factorization that is acceptable. -/
def tolerableResidual : α := 1e-8

/-- The columns of the basis matrix by position. -/
def basisMatrix (e : Engine α) : List (List (Nat × α)) :=
  e.basicIndex.toList.map t.column

/-- Replace the variables at dependent positions by the logical variables of
the rows they are paired with. -/
def admitLogicals (e : Engine α) (pairs : List (Nat × Nat)) : Engine α :=
  let e := { e with factorValid := false }
  let e := pairs.foldl (fun e (position, _) =>
    let j := e.basicAt position
    e.rest j (e.boundsOf j).restingStatus) e
  pairs.foldl (fun e (position, row) =>
    let logical := t.columnCount + row
    { e with basicIndex := e.basicIndex.setIfInBounds position logical }.setStatus logical .basic) e

/-- Count a factorization that is accepted. -/
def acceptFactor (e : Engine α) (summary : FactorSummary α) : Engine α :=
  { e with statistics := { e.statistics with
      refactorizations := e.statistics.refactorizations + 1
      fillFactors := e.statistics.fillFactors ++ [summary.fillFactor] } }

/-- The end of the attempts at factoring a basis. -/
inductive Factored (α : Type)
  | done (e : Engine α) (repaired : Bool)
  | failed (e : Engine α)

/-- Factor the basis, with a limit on the attempts.  After a failure the next
attempt has a repaired basis or a higher pivot threshold. -/
def factorBasis : Nat → Bool → Engine α → Factored α
  | 0, _, e => .failed e
  | attempts + 1, repaired, e =>
    let columns := e.basisMatrix t
    let (factor, result) := e.factor.factorAnew columns
    let e := { e with factor := factor }
    match result with
    | .ok summary =>
      if tolerableResidual < factor.residual columns then
        let e := e.note .residualTooLarge
        match factor.raise? with
        | some raised =>
          factorBasis attempts repaired ({ e with factor := raised }.note .pivotThresholdEscalation)
        | none => .done (e.acceptFactor summary) repaired
      else .done (e.acceptFactor summary) repaired
    | .error (.singularBasis pairs) =>
      factorBasis attempts true ((e.note .singularBasis).admitLogicals t pairs)
    | .error (.pivotToleranceViolation _ _) =>
      factorBasis attempts repaired (e.note .pivotThresholdEscalation)

/-- The weights after a repair, which changes many rows of the inverse. -/
def renewWeights (e : Engine α) : Engine α :=
  if e.weights.areNorms then e.weighRows t
  else { e with weights := e.weights.reset t.rowCount }

/-- Start over from the basis, the costs and the resting variables alone. -/
def renew (e : Engine α) : Progress α :=
  match factorBasis t maxAttempts false e with
  | .failed e => .stopped e .numericalError
  | .done e repaired =>
    let e := { e with factorValid := true }
    let e := ((e.solveValues t).solveDuals t).recordResiduals t
    .going (if repaired then e.renewWeights t else e)

/-- Move a variable with two bounds to the other one. -/
def flip (e : Engine α) (j : Nat) : Engine α :=
  e.rest j (e.statusOf j).opposite

/-- Change the cost of a variable so that its reduced cost vanishes. -/
def adjustCost (e : Engine α) (j : Nat) : Engine α :=
  { e with
    cost := e.cost.modify j (· - e.reducedCostOf j)
    reducedCost := e.reducedCost.setIfInBounds j 0 }

/-- The variables whose reduced costs have the wrong sign. -/
def dualInfeasible (e : Engine α) : List Nat :=
  t.indices.filter fun j => !(e.dualInfeasibility j ≤ t.parameters.dualTolerance)

def hasTwoBounds (e : Engine α) (j : Nat) : Bool :=
  (e.boundsOf j).kind.isBoxed

/-- Put reduced costs of the wrong sign right.  Variables with two bounds move
to the other one, and the costs of others are adjusted. -/
def settleReducedCosts (e : Engine α) : Engine α :=
  let wrong := e.dualInfeasible t
  if wrong.isEmpty then e
  else
    let flipped := wrong.any e.hasTwoBounds
    let e := wrong.foldl (fun e j => if e.hasTwoBounds j then e.flip j else e.adjustCost j) e
    let e := e.note .dualInfeasibilityAfterRebuild
    if flipped then e.solveValues t else e

/-- Start over, and put right what rounding has done to the reduced costs. -/
def renewAndSettle (e : Engine α) : Progress α :=
  (e.renew t).map fun e => e.settleReducedCosts t

end Engine
end DualSimplex
