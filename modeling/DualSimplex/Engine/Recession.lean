import DualSimplex.Engine.Pivot
import DualSimplex.Ray

/-!
# Dual phase one

A direction in which one can go for ever does not move a variable with two
bounds, takes one with a single bound away from it, and moves one without bounds
either way.  The auxiliary problem looks for the cheapest of these directions
under a limit on their length: one unit for a variable with a single bound, a
thousand for one without bounds.  Staying in place is feasible, and the limits
bound the problem, so it has an optimal basis.

If the cheapest direction has a negative cost it is a primal ray.  Otherwise no
reduced cost pulls a variable in a direction that is open to it, which is to say
that the basis is dual feasible for the program.
-/

namespace DualSimplex

open Scalar

/-- The steps that a direction may take in a variable with these bounds. -/
def Interval.auxiliary {α : Type} [Scalar α] (b : Interval α) : Interval α :=
  match b.kind with
  | .lower => .between 0 1
  | .upper => .between (-1) 0
  | .free => .between (-1000.0) 1000.0
  | .boxed | .fixed => .between 0 0

namespace Engine

variable {α : Type} [Scalar α] (t : Job α)

/-- The variables outside the basis. -/
def nonbasic (e : Engine α) : List Nat :=
  t.indices.filter fun j => !e.isBasic j

/-- The status that makes a reduced cost feasible for a variable with two
bounds. -/
def feasibleStatus (b : Interval α) (reducedCost : α) : VariableStatus :=
  if b.isPoint then .fixed else if 0 ≤ reducedCost then .atLower else .atUpper

/-- Pass on to the auxiliary problem. -/
def enterAuxiliary (e : Engine α) : Engine α :=
  let e := { e with
    phase := .one
    relaxed := []
    bounds := t.bounds.map Interval.auxiliary }
  let e := (e.nonbasic t).foldl
    (fun e j => e.rest j (feasibleStatus (e.boundsOf j) (e.reducedCostOf j))) e
  e.solveValues t

/-- Bring the bounds of the program back.  A variable whose status they do not
allow goes where one with its bounds belongs.  The basic values are not brought
up to date. -/
def restoreBounds (e : Engine α) : Engine α :=
  let e := { e with phase := .two, relaxed := [], bounds := t.bounds }
  (e.nonbasic t).foldl restAgain e

/-- The status that a variable outside the basis takes when phase one ends. -/
def finalStatus (b : Interval α) (reducedCost : α) : VariableStatus :=
  match b.kind with
  | .fixed => .fixed
  | .boxed => if reducedCost < 0 then .atUpper else .atLower
  | .lower => .atLower
  | .upper => .atUpper
  | .free => .free

/-- How phase one ends. -/
inductive PhaseOneEnd (α : Type)
  | dualFeasible (e : Engine α)
  /-- There is a primal ray, which the engine keeps. -/
  | ray (e : Engine α)

/-- Leave the auxiliary problem at its optimum. -/
def leaveAuxiliary (e : Engine α) : PhaseOneEnd α :=
  let direction := e.value.take t.columnCount
  let e := e.restoreBounds t
  let resting := e.nonbasic t
  let e := resting.foldl
    (fun e j => e.rest j (finalStatus (e.boundsOf j) (e.reducedCostOf j))) e
  let infeasible := resting.any fun j => t.parameters.dualTolerance < e.dualInfeasibility j
  let e := e.solveValues t
  if !infeasible then .dualFeasible e
  else if isPrimalRay t.program direction t.parameters.primalTolerance then
    .ray { e with primalRay := some direction }
  else .dualFeasible ((e.note .unboundedRayRejected).settleReducedCosts t)

/-- Keep a dual ray if it proves that the program is infeasible. -/
def acceptRay? (e : Engine α) (ray : Array α) : Option (Engine α) :=
  if isDualRay t.program ray then some { e with dualRay := some ray } else none

/-- Raise the pivot threshold if that is possible. -/
def raiseThreshold (e : Engine α) : Engine α :=
  match e.factor.raise? with
  | some raised => { e with factor := raised }.note .pivotThresholdEscalation
  | none => e

/-- Go on after a ray that proves nothing: take relaxations of bounds back, or
if there are none factor more carefully. -/
def recover (e : Engine α) : Progress α :=
  match e.undoRelaxations? with
  | some e => .going (e.solveValues t)
  | none => e.countRecovery.andThen fun e => e.raiseThreshold.renewAndSettle t

/-- Reject a ray and recover from it. -/
def rejectRay (e : Engine α) : Progress α :=
  (e.note .unboundedRayRejected).recover t

end Engine
end DualSimplex
