import DualSimplex.Engine.Basic

/-!
# Values and reduced costs

The values of the basic variables follow from those of the others, and the
multipliers and reduced costs follow from the costs of the basic ones.  Both
are kept up to date through the basis changes, and here they are computed from
scratch.
-/

namespace DualSimplex

open Scalar

namespace Engine

variable {α : Type} [Scalar α] (t : Job α)

/-- Solve with the basis matrix and count the work. -/
def ftran (e : Engine α) (rhs : SparseVector α) : Engine α × SparseVector α :=
  let (factor, x) := e.factor.ftran rhs
  ({ e with factor := factor }.addTicks (x.ticks - rhs.ticks), x)

/-- Solve with the transpose of the basis matrix and count the work. -/
def btran (e : Engine α) (rhs : SparseVector α) : Engine α × SparseVector α :=
  let (factor, y) := e.factor.btran rhs
  ({ e with factor := factor }.addTicks (y.ticks - rhs.ticks), y)

/-- What the basic variables have to make up for: minus the sum of the columns
outside the basis times their values. -/
def nonbasicActivity (e : Engine α) : SparseVector α :=
  t.indices.foldl (fun v j =>
    if e.isBasic j || e.valueOf j == 0 then v
    else v.addAll ((t.column j).map fun (i, a) => (i, -a * e.valueOf j))) t.zeroRow

/-- Compute the basic values from the others. -/
def solveValues (e : Engine α) : Engine α :=
  let (e, x) := e.ftran (e.nonbasicActivity t)
  e.basicIndex.toList.zipIdx.foldl (fun e (j, position) => e.setValue j (x.get position)) e

/-- The costs of the basic variables, by position. -/
def basicCosts (e : Engine α) : SparseVector α :=
  e.basicIndex.toList.zipIdx.foldl (fun v (j, position) =>
    if e.costOf j == 0 then v else v.add position (e.costOf j)) t.zeroRow

/-- The reduced costs that go with multipliers. -/
def reducedCosts (e : Engine α) (multipliers : Array α) : Array α :=
  let columns := (List.range t.columnCount).map fun j =>
    e.costOf j - t.program.columns.lineDot j multipliers
  let rows := (List.range t.rowCount).map fun i =>
    e.costOf (t.columnCount + i) - multipliers.getD i 0
  e.basicIndex.foldl (fun d j => d.setIfInBounds j 0) (columns ++ rows).toArray

/-- Compute the multipliers and all reduced costs from the costs. -/
def solveDuals (e : Engine α) : Engine α :=
  let (e, y) := e.btran (e.basicCosts t)
  { e with multipliers := y.values, reducedCost := e.reducedCosts t y.values }

/-- Add the column of a variable times its value to activities of the rows. -/
def addActivity (e : Engine α) (activity : Array α) (j : Nat) : Array α :=
  (t.column j).foldl (fun r (i, a) => r.modify i (· + a * e.valueOf j)) activity

/-- How far the values are from solving the equations, relative to what the
variables outside the basis contribute. -/
def primalResidual (e : Engine α) : α :=
  let moving := t.indices.filter fun j => !(e.valueOf j == 0)
  let zero := Array.replicate t.rowCount (0 : α)
  let activity := moving.foldl (e.addActivity t) zero
  let nonbasic := (moving.filter fun j => !e.isBasic j).foldl (e.addActivity t) zero
  maxAbs activity.toList / (1 + maxAbs nonbasic.toList)

/-- How far the multipliers are from pricing the basic columns, relative to
their costs. -/
def dualResidual (e : Engine α) : α :=
  let basic := e.basicIndex.toList
  let priced := fun j => sum ((t.column j).map fun (i, a) => a * e.multipliers.getD i 0)
  maxAbs (basic.map fun j => e.costOf j - priced j) / (1 + maxAbs (basic.map e.costOf))

/-- Record the residuals if they are the largest so far. -/
def recordResiduals (e : Engine α) : Engine α :=
  { e with statistics := { e.statistics with
      maxPrimalResidual := larger e.statistics.maxPrimalResidual (e.primalResidual t)
      maxDualResidual := larger e.statistics.maxDualResidual (e.dualResidual t) } }

/-- By basis position, how far the variable there violates its bounds. -/
def infeasibilities (e : Engine α) : Array α :=
  e.basicIndex.map fun j =>
    (e.boundsOf j).violation t.parameters.primalTolerance (e.valueOf j)

/-- The objective value with the working costs. -/
def currentObjective (e : Engine α) : α :=
  sum (List.zipWith (· * ·) e.cost.toList e.value.toList)

/-- Row `position` of the basis inverse. -/
def inverseRow (e : Engine α) (position : Nat) : Engine α × SparseVector α :=
  e.btran (t.zeroRow.setOnly position 1)

/-- Compute the weights of steepest edge pricing: the squared norms of the rows
of the basis inverse, but one at least. -/
def weighRows (e : Engine α) : Engine α :=
  let (e, weights) := (List.range t.rowCount).foldl (fun (e, weights) position =>
    let (e, row) := e.inverseRow t position
    (e, weights.push (larger row.normSquared 1))) (e, #[])
  { e with weights := e.weights.withNorms weights }

end Engine
end DualSimplex
