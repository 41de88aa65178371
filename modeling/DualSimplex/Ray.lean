import DualSimplex.Program

/-!
# Rays

A dual ray is a vector of row multipliers which proves that no point satisfies
all bounds: the combination of rows that it makes is too small on every point
within the column bounds for any activity within the row bounds.

A primal ray is a direction that leads from any feasible point to better ones
without end.
-/

namespace DualSimplex

open Scalar

variable {α : Type} [Scalar α]

/-- What counts as zero, relative to the largest entry of a ray. -/
def rayZero : α := 1e-9

/-- Whether a combination of the rows is negative for all points within the column
bounds and activities within the row bounds. -/
def isDualRay (lp : LinearProgram α) (multipliers : Array α) : Bool :=
  let scale := multipliers.toList.foldl (fun m y => larger m (magnitude y)) 1
  let zero := rayZero * scale
  let columns := lp.columnBounds.toList.zipIdx.map fun (b, j) =>
    (lp.columns.lineDot j multipliers, b)
  let rows := List.zipWith (fun y b => (y, b.neg)) multipliers.toList lp.rowBounds.toList
  let terms := (columns ++ rows).filter fun (g, _) => zero < magnitude g
  match Bound.sum (terms.map fun (g, b) => b.supremum g) with
  | .negInf => true
  | .finite x => x < -zero
  | .posInf => false

/-- Whether values may change by `x` in their direction without end. -/
def recedes (slack x : α) (b : Interval α) : Bool :=
  (!b.lower.isFinite || -slack ≤ x) && (!b.upper.isFinite || x ≤ slack)

/-- Whether a direction keeps all bounds within a tolerance, relative to its
largest entry, and improves the objective. -/
def isPrimalRay (lp : LinearProgram α) (direction : Array α) (tolerance : α) : Bool :=
  let scale := maxAbs direction.toList
  if scale == 0 then false
  else
    let slack := tolerance * scale
    let costs := lp.costs.map lp.sense.orient
    let cost := sum (List.zipWith (fun d c => c * d) direction.toList costs.toList)
    if -rayZero * scale ≤ cost then false
    else
      (List.zip direction.toList lp.columnBounds.toList).all (fun (d, b) => recedes slack d b)
        && (List.zip (lp.activities direction).toList lp.rowBounds.toList).all
          fun (r, b) => recedes slack r b

end DualSimplex
