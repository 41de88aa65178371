import DualSimplex.Bound
import DualSimplex.Factor.LU

/-!
# Replacing a column

When a column of the matrix is replaced, its slot in the upper triangle is
turned off and the new column is appended as the last slot.  The row of the
slot then has entries left of its new diagonal value, which a row eta
eliminates.
-/

namespace DualSimplex

open Scalar

/-- Why a column cannot be replaced. -/
inductive ReplacementError (α : Type)
  /-- The new matrix has no usable diagonal value in the slot. -/
  | singular (diagonal : α)
  /-- The new diagonal value is not what the pivot element makes expect. -/
  | unstable (diagonal expected : α)

def ReplacementError.message {α : Type} [Binary.Encoded α] : ReplacementError α → String
  | singular diagonal =>
    "update would create a diagonal element of " ++ Decimal.Layout.scientific.format diagonal
  | unstable diagonal expected =>
    "update diagonal " ++ Decimal.Layout.scientific.format diagonal
      ++ " differs from expected " ++ Decimal.Layout.scientific.format expected

namespace LU

variable {α : Type} [Scalar α]

/-- How far the new diagonal value may be from the expected one, relatively. -/
def diagonalAgreement : α := 1e-6

/-- The row of a label under elimination: what is left of it by slot, and the
multiples of other rows taken off so far. -/
structure RowElimination (α : Type) where
  work : Array α
  multipliers : List (Nat × α)

/-- Take off the multiple of a slot's row that removes the entry there. -/
def RowElimination.step (u : UpperTriangle α) (e : RowElimination α) (slot : Nat) :
    RowElimination α :=
  let x := e.work.getD slot 0
  if isTiny x then e
  else
    let multiplier := x / u.diagonalAt slot
    let label := u.labelOf slot
    { work := (u.row label).foldl (fun w (later, a) => w.modify later (· - multiplier * a)) e.work
      multipliers := e.multipliers ++ [(label, multiplier)] }

/-- The multiples of later rows that remove the entries of a label's row off
its diagonal. -/
def rowMultipliers (lu : LU α) (label : Nat) : List (Nat × α) :=
  let work := (lu.upper.row label).foldl (fun w (slot, x) => w.setIfInBounds slot x)
    (Array.replicate lu.upper.slotCount 0)
  let e := (List.range lu.upper.slotCount).foldl (RowElimination.step lu.upper)
    { work := work, multipliers := [] }
  e.multipliers

/-- The factors of the matrix with another column at a position.  The column is
given by its spike and by the `pivot`, its solution at the position. -/
def update (lu : LU α) (position : Nat) (spike : SparseVector α) (pivot tolerance : α) :
    Except (ReplacementError α) (LU α) :=
  let label := lu.labels.apply position
  let leaving := lu.upper.slotOf label
  let eta : RowEta α := { values := lu.rowMultipliers label, pivot := label }
  let diagonal := eta.pivotValue spike.values
  let expected := lu.upper.diagonalAt leaving * pivot
  if magnitude diagonal < tolerance then .error (.singular diagonal)
  else if (Bound.discrepancy diagonal expected).exceeds diagonalAgreement then
    .error (.unstable diagonal expected)
  else
    let column := spike.entries.filter fun t => t.1 != label && isSignificant t.2
    .ok { lu with
      upper := ((lu.upper.eraseRow label).turnOff leaving).push label diagonal column
      etas := lu.etas ++ [eta] }

end LU
end DualSimplex
