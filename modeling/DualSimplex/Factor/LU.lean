import DualSimplex.Factor.Permutation
import DualSimplex.Factor.RowEta
import DualSimplex.Factor.UpperTriangle

/-!
# Factored matrices

A square matrix as the product of a lower triangle, row etas and an upper
triangle.  The factors are kept by the rows of the matrix, here called labels.
The lower triangle is a sequence of row operations, a step for every label, in
which the label is subtracted from some of those whose steps are still to come.
A column of the matrix is a position, and its label is the row it was pivoted
on, which no replacement of the column changes.
-/

namespace DualSimplex

open Scalar

/-- A step of an elimination: where it pivots, and the multipliers of the
labels below. -/
structure PivotStep (α : Type) where
  row : Nat
  column : Nat
  value : α
  lowerColumn : List (Nat × α)

structure LU (α : Type) where
  m : Nat
  /-- By step, the label it pivots on. -/
  rowByStep : Array Nat
  /-- By label, its step. -/
  stepByRow : Array Nat
  /-- By step, the labels below with their multipliers. -/
  lowerByStep : Array (List (Nat × α))
  /-- By label, the pivots that were subtracted from it with their
  multipliers. -/
  lowerByRow : Array (List (Nat × α))
  lowerCount : Nat
  upper : UpperTriangle α
  /-- From positions to labels. -/
  labels : Permutation
  /-- One for every basis change, the oldest first. -/
  etas : List (RowEta α)
  /-- The number of entries before the first basis change. -/
  freshCount : Nat

namespace LU

variable {α : Type} [Scalar α]

/-- The number of values in all etas. -/
def etaCount (lu : LU α) : Nat :=
  (lu.etas.flatMap RowEta.values).length

/-- The number of entries of both triangles, the upper diagonal included, and
of all etas. -/
def entryCount (lu : LU α) : Nat :=
  lu.lowerCount + lu.upper.entryCount + lu.m + lu.etaCount

def updateCount (lu : LU α) : Nat :=
  lu.etas.length

def pivotRow (lu : LU α) (step : Nat) : Nat :=
  lu.rowByStep.getD step 0

def lowerColumn (lu : LU α) (step : Nat) : List (Nat × α) :=
  lu.lowerByStep.getD step []

def lowerRow (lu : LU α) (label : Nat) : List (Nat × α) :=
  lu.lowerByRow.getD label []

/-- Put the steps of a complete elimination together.  `upperColumns` holds the
entries of the upper factor by position. -/
def ofSteps (steps : List (PivotStep α)) (upperColumns : Array (List (Nat × α))) : LU α :=
  let m := steps.length
  let lu : LU α := {
    m := m
    rowByStep := (steps.map PivotStep.row).toArray
    stepByRow := steps.zipIdx.foldl (fun xs (s, k) => xs.setIfInBounds s.row k)
      (Array.replicate m 0)
    lowerByStep := (steps.map PivotStep.lowerColumn).toArray
    lowerByRow := steps.foldl (fun rows s =>
      s.lowerColumn.foldl (fun rows (i, x) => rows.modify i (· ++ [(s.row, x)])) rows)
      (Array.replicate m [])
    lowerCount := (steps.flatMap PivotStep.lowerColumn).length
    upper := steps.foldl (fun u s => u.push s.row s.value (upperColumns.getD s.column []))
      (UpperTriangle.empty m)
    labels := Permutation.ofForward (steps.foldl
      (fun xs s => xs.setIfInBounds s.column s.row) (Array.replicate m 0))
    etas := []
    freshCount := 0 }
  { lu with freshCount := lu.entryCount }

/-- The factors of the identity matrix. -/
def identity (m : Nat) : LU α :=
  ofSteps ((List.range m).map fun i => { row := i, column := i, value := 1, lowerColumn := [] })
    (Array.replicate m [])

/-- The column of the upper triangle that belongs to a position, by label. -/
def upperColumn (lu : LU α) (position : Nat) : Array α :=
  let label := lu.labels.apply position
  let slot := lu.upper.slotOf label
  (lu.upper.column slot).foldl (fun xs (i, x) => xs.setIfInBounds i x)
    ((Array.replicate lu.m 0).setIfInBounds label (lu.upper.diagonalAt slot))

/-- Take the effect of an eta back. -/
def undoEta (column : Array α) (r : RowEta α) : Array α :=
  let shift := r.values.foldl (fun total (i, a) => total + a * column.getD i 0) 0
  column.modify r.pivot (· + shift)

/-- Take the effect of a step of the lower triangle back. -/
def undoStep (lu : LU α) (column : Array α) (step : Nat) : Array α :=
  let x := column.getD (lu.pivotRow step) 0
  (lu.lowerColumn step).foldl (fun column (i, a) => column.modify i (· + a * x)) column

/-- The column of the matrix at a position. -/
def matrixColumn (lu : LU α) (position : Nat) : Array α :=
  (List.range lu.m).reverse.foldl lu.undoStep
    (lu.etas.reverse.foldl undoEta (lu.upperColumn position))

/-- The rows of the matrix that is factored. -/
def toRows (lu : LU α) : List (List α) :=
  let columns := (List.range lu.m).map lu.matrixColumn
  (List.range lu.m).map fun i => columns.map fun c => c.getD i 0

section Format

variable [Binary.Encoded α]

def padded (n : Nat) : String :=
  let s := toString n
  String.ofList (List.replicate (4 - s.length) ' ') ++ s

def formatEntries (entries : List (Nat × α)) : String :=
  String.join (entries.map fun (i, x) => s!" {i}:" ++ Decimal.fixed 6 x)

def formatStep (lu : LU α) (step : Nat) : String :=
  padded step ++ " (row " ++ padded (lu.pivotRow step) ++ "):"
    ++ formatEntries (lu.lowerColumn step) ++ "\n"

def formatSlot (lu : LU α) (slot : Nat) : String :=
  let label := lu.upper.labelOf slot
  padded slot ++ " (row " ++ padded label ++ ", position " ++ padded (lu.labels.invert label)
    ++ ") diagonal " ++ Decimal.fixed 6 (lu.upper.diagonalAt slot) ++ ":"
    ++ formatEntries (lu.upper.column slot) ++ "\n"

/-- Both triangles, one line for every step and every slot in use. -/
def format (lu : LU α) : String :=
  s!"Lower triangular ({lu.m} steps):\n"
    ++ String.join ((List.range lu.lowerByStep.size).map lu.formatStep)
    ++ s!"Upper triangular ({lu.upper.slotCount} slots, {lu.updateCount} updates):\n"
    ++ String.join (lu.upper.slots.map lu.formatSlot)

end Format

end LU
end DualSimplex
