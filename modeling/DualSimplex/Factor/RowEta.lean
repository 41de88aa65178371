import DualSimplex.SparseVector

/-!
# Row etas

A basis change leaves behind a row that sticks out of the triangular factor.
The row operations that eliminate it are kept as one elementary matrix, the
identity but for a single row.
-/

namespace DualSimplex

open Scalar

/-- Add to a position during a solve, listing it if it was zero.  A position
that cancels stays listed under a mark. -/
def SparseVector.collect {α : Type} [Scalar α] (v : SparseVector α) (i : Nat) (delta : α) :
    SparseVector α :=
  let before := v.get i
  let after := before + delta
  let support := if before == 0 then v.support ++ [i] else v.support
  { v.put i (if after == 0 then vanished else after) with support := support }

/-- The identity matrix from which `values` are subtracted in row `pivot`.
None of them is on the diagonal. -/
structure RowEta (α : Type) where
  values : List (Nat × α)
  pivot : Nat

namespace RowEta

variable {α : Type} [Scalar α]

def size (r : RowEta α) : Nat :=
  r.values.length

/-- The inner product of the row with a vector. -/
def dot (r : RowEta α) (x : Array α) : α :=
  sum (r.values.map fun (i, a) => a * x.getD i 0)

/-- The product of the matrix with a column.  Reads every value. -/
def mulVec (r : RowEta α) (v : SparseVector α) : SparseVector α :=
  let total := r.dot v.values
  if total == 0 then v else v.collect r.pivot (-total)

/-- The product of a row with the matrix, and how many values that took. -/
def vecMul (r : RowEta α) (v : SparseVector α) : SparseVector α × Nat :=
  let pivotValue := v.get r.pivot
  if pivotValue == 0 then (v, 0)
  else (r.values.foldl (fun v (i, a) => v.collect i (-a * pivotValue)) v, r.size)

/-- The value of a column at the pivot after the elimination. -/
def pivotValue (r : RowEta α) (column : Array α) : α :=
  column.getD r.pivot 0 - r.dot column

end RowEta
end DualSimplex
