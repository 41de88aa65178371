import DualSimplex.Factor.Agenda
import DualSimplex.Factor.LU

/-!
# Triangular solves

Both factors are triangles, and both have to be solved with and with their
transposes.  A sweep goes through the ranks of a triangle in one direction.  If
the right-hand side is sparse it visits only the ranks it has to, which it
finds along the way; otherwise it visits all of them.
-/

namespace DualSimplex

open Scalar

/-- A triangle as the sweeps see it. -/
structure Triangle (α : Type) where
  /-- The ranks in use, ascending. -/
  ranks : List Nat
  /-- The number of all ranks, whether in use or not. -/
  rankCount : Nat
  /-- The position that belongs to a rank, and the rank of a position. -/
  place : Nat → Nat
  rank : Nat → Nat
  divisor : Nat → α
  /-- The entries in the column and in the row of a rank, by position. -/
  column : Nat → List (Nat × α)
  row : Nat → List (Nat × α)
  /-- What a sparse sweep leaves at a position whose value is tiny. -/
  retire : α → α

/-- A vector on its way through a sweep, and the entries touched so far. -/
structure Sweep (α : Type) where
  vector : SparseVector α
  touched : Nat

namespace Triangle

variable {α : Type} [Scalar α]

/-- Subtract multiples of a solution from other positions, and put those on the
agenda that were zero. -/
def spread (t : Triangle α) (d : Direction) (solution : α) (entries : List (Nat × α))
    (v : SparseVector α) (agenda : List Nat) : SparseVector α × List Nat :=
  entries.foldl (fun (v, agenda) (i, a) =>
    (v.collect i (-a * solution),
      if v.get i == 0 then d.insert (t.rank i) agenda else agenda)) (v, agenda)

/-- Visit the ranks of an agenda.  A rank is put on it at most once more, when
its position becomes nonzero, which bounds the fuel that is needed. -/
def visit (t : Triangle α) (d : Direction) (entries : Nat → List (Nat × α)) :
    Nat → List Nat → Sweep α → Sweep α
  | 0, _, s => s
  | _ + 1, [], s => s
  | fuel + 1, r :: agenda, s =>
    let i := t.place r
    let x := s.vector.get i
    if isTiny x then
      t.visit d entries fuel agenda { s with vector := s.vector.put i (t.retire x) }
    else
      let solution := x / t.divisor r
      let (v, agenda) := t.spread d solution (entries r) (s.vector.put i solution) agenda
      t.visit d entries fuel agenda
        { vector := v, touched := s.touched + (entries r).length + 1 }

/-- Sweep over the ranks that a sparse vector leads to. -/
def sparseSweep (t : Triangle α) (d : Direction) (entries : Nat → List (Nat × α))
    (v : SparseVector α) : Sweep α :=
  t.visit d entries (v.count + v.dim) (d.agenda (v.support.map t.rank))
    { vector := v, touched := 0 }

/-- Solve for one rank, and subtract its column. -/
def pushRank (t : Triangle α) (s : Sweep α) (r : Nat) : Sweep α :=
  let i := t.place r
  let x := s.vector.get i
  if x == 0 then s
  else
    let solution := x / t.divisor r
    { vector := (t.column r).foldl
        (fun v (k, a) => v.put k (v.get k - a * solution)) (s.vector.put i solution)
      touched := s.touched + (t.column r).length }

/-- Solve for one rank after subtracting what its column takes up. -/
def pullRank (t : Triangle α) (s : Sweep α) (r : Nat) : Sweep α :=
  let i := t.place r
  let inner := sum ((t.column r).map fun (k, a) => a * s.vector.get k)
  { vector := s.vector.put i ((s.vector.get i - inner) / t.divisor r)
    touched := s.touched + (t.column r).length }

/-- Sweep over all ranks. -/
def denseSweep (t : Triangle α) (d : Direction) (step : Sweep α → Nat → Sweep α)
    (v : SparseVector α) : Sweep α :=
  let s := (d.order t.ranks).foldl step { vector := v, touched := 0 }
  { vector := s.vector.reindex, touched := s.touched + t.rankCount }

/-- Solve with the triangle. -/
def solve (t : Triangle α) (d : Direction) (v : SparseVector α) : Sweep α :=
  if v.isSparse v.count then t.sparseSweep d t.column v else t.denseSweep d t.pushRank v

/-- Solve with the transpose of the triangle. -/
def solveTransposed (t : Triangle α) (d : Direction) (v : SparseVector α) : Sweep α :=
  if v.isSparse v.count then t.sparseSweep d t.row v else t.denseSweep d t.pullRank v

end Triangle

namespace LU

variable {α : Type} [Scalar α]

/-- The lower factor.  Its diagonal is one. -/
def lowerTriangle (lu : LU α) : Triangle α where
  ranks := List.range lu.m
  rankCount := lu.m
  place := lu.pivotRow
  rank label := lu.stepByRow.getD label 0
  divisor _ := 1
  column := lu.lowerColumn
  row step := lu.lowerRow (lu.pivotRow step)
  retire x := x

/-- The upper factor. -/
def upperTriangle (lu : LU α) : Triangle α where
  ranks := lu.upper.slots
  rankCount := lu.upper.slotCount
  place := lu.upper.labelOf
  rank := lu.upper.slotOf
  divisor := lu.upper.diagonalAt
  column := lu.upper.column
  row slot := (lu.upper.row (lu.upper.labelOf slot)).map fun (later, x) =>
    (lu.upper.labelOf later, x)
  retire _ := vanished

/-- Move the listed values of a vector. -/
def relocate (f : Nat → Nat) (v : SparseVector α) : SparseVector α :=
  let cleared := v.support.foldl (fun xs i => xs.setIfInBounds i 0) v.values
  { v with
    values := v.entries.foldl (fun xs (i, x) => xs.setIfInBounds (f i) x) cleared
    support := v.support.map f }

/-- The solution of a system, and the column on its way to it that a basis
change needs. -/
structure Solved (α : Type) where
  solution : SparseVector α
  spike : SparseVector α

/-- Solve with the matrix.  The right-hand side is given by row and the solution
by position. -/
def ftran (lu : LU α) (rhs : SparseVector α) : Solved α :=
  let lower := lu.lowerTriangle.solve .ascending rhs
  let spike := lu.etas.foldl (fun v r => r.mulVec v) lower.vector
  let upper := lu.upperTriangle.solve .descending spike
  let touched := lower.touched + lu.etaCount + upper.touched
  { solution := (relocate lu.labels.invert upper.vector).dropTiny.addTicks (Float.ofNat touched)
    spike := (SparseVector.zero lu.m SparseVector.defaultDensity).assign spike }

/-- Apply an eta from the left within a sweep. -/
def applyEta (s : Sweep α) (r : RowEta α) : Sweep α :=
  let (v, touched) := r.vecMul s.vector
  { vector := v, touched := s.touched + touched }

/-- Solve with the transpose of the matrix.  The right-hand side is given by
position and the solution by row. -/
def btran (lu : LU α) (rhs : SparseVector α) : SparseVector α :=
  let upper := lu.upperTriangle.solveTransposed .ascending (relocate lu.labels.apply rhs)
  let middle := lu.etas.reverse.foldl applyEta upper
  let lower := lu.lowerTriangle.solveTransposed .descending middle.vector
  lower.vector.dropTiny.addTicks (Float.ofNat (middle.touched + lower.touched))

end LU
end DualSimplex
