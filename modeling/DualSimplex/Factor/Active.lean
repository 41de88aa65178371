import DualSimplex.Factor.CountBuckets
import DualSimplex.SparseVector

/-!
# Active submatrices

What is left of a matrix while it is being factored: the rows and columns that
have not been pivoted on.  Every column holds its entries, every row the
columns in which it has some, and both are grouped by how many they hold.

The order within a line is free, and it decides which of several equally good
pivots is taken.  An entry that goes leaves its place to the last one.
-/

namespace DualSimplex

open Scalar

/-- Remove the first element that satisfies a condition, and put the last one
in its place. -/
def swapRemove {β : Type} (p : β → Bool) (xs : List β) : List β :=
  match xs.span fun x => !p x with
  | (_, []) => xs
  | (front, _ :: rest) =>
    match rest.getLast? with
    | none => front
    | some last => front ++ last :: rest.dropLast

/-- The submatrix of a matrix with `m` rows and columns. -/
structure Active (α : Type) where
  m : Nat
  /-- By column, its entries as row and value. -/
  columns : Array (List (Nat × α))
  /-- By row, the columns with an entry in it. -/
  rows : Array (List Nat)
  /-- By column, the largest magnitude of its entries. -/
  columnPeaks : Array α
  columnsByCount : CountBuckets
  rowsByCount : CountBuckets

/-- What a pivot contributes to the factors. -/
structure Elimination (α : Type) where
  active : Active α
  /-- The row of the upper factor, as column and value. -/
  upperRow : List (Nat × α)
  /-- The column of the lower factor, as row and multiplier. -/
  lowerColumn : List (Nat × α)

namespace Active

variable {α : Type} [Scalar α]

def column (a : Active α) (j : Nat) : List (Nat × α) :=
  a.columns.getD j []

def row (a : Active α) (i : Nat) : List Nat :=
  a.rows.getD i []

def largest (column : List (Nat × α)) : α :=
  maxAbs (column.map Prod.snd)

/-- The buckets in which item `k` is counted as the length of the `k`th line,
each ordered by item. -/
def groupLines {β : Type} (lines : Array (List β)) : CountBuckets :=
  (List.range lines.size).foldr
    (fun k buckets => buckets.insert k (lines.getD k []).length)
    (CountBuckets.empty lines.size lines.size)

/-- The whole of a matrix given by its columns, less its explicit zeros. -/
def ofColumns (columns : List (List (Nat × α))) : Active α :=
  let m := columns.length
  let columns := (columns.map fun column => column.filter fun t => !(t.2 == 0)).toArray
  let rows := columns.toList.zipIdx.foldl (fun rows (column, j) =>
    column.foldl (fun rows t => rows.modify t.1 (· ++ [j])) rows) (Array.replicate m [])
  { m := m
    columns := columns
    rows := rows
    columnPeaks := columns.map largest
    columnsByCount := groupLines columns
    rowsByCount := groupLines rows }

/-- The value at a row and column, zero if there is no entry. -/
def value (a : Active α) (i j : Nat) : α :=
  ((a.column j).lookup i).getD 0

/-- Bring the counts and the largest magnitudes up to date for lines that have
changed. -/
def recount (a : Active α) (columns rows : List Nat) : Active α :=
  { a with
    columnPeaks := columns.foldl
      (fun peaks j => peaks.setIfInBounds j (largest (a.column j))) a.columnPeaks
    columnsByCount := columns.foldl (fun l j => l.update j (a.column j).length) a.columnsByCount
    rowsByCount := rows.foldl (fun l i => l.update i (a.row i).length) a.rowsByCount }

def dropEntry (a : Active α) (i j : Nat) : Active α :=
  { a with columns := a.columns.modify j (swapRemove fun t => t.1 == i) }

def dropPosition (a : Active α) (i j : Nat) : Active α :=
  { a with rows := a.rows.modify i (swapRemove fun k => k == j) }

/-- Take a row out of the columns that it has entries in.  The values taken out
come with it, as column and value. -/
def takeRow (a : Active α) (i : Nat) (columns : List Nat) : Active α × List (Nat × α) :=
  columns.foldl (fun (a, taken) j =>
    match (a.column j).lookup i with
    | some x => (a.dropEntry i j, taken ++ [(j, x)])
    | none => (a, taken)) ({ a with rows := a.rows.setIfInBounds i [] }, [])

/-- Add to the entry at a row and column.  Nothing tiny is kept. -/
def addAt (a : Active α) (i j : Nat) (delta : α) : Active α :=
  match (a.column j).lookup i with
  | some x =>
    let after := x + delta
    if isTiny after then (a.dropEntry i j).dropPosition i j
    else
      { a with columns := a.columns.modify j fun column =>
          column.set (column.findIdx fun t => t.1 == i) (i, after) }
  | none =>
    if isSignificant delta then
      { a with
        columns := a.columns.modify j (· ++ [(i, delta)])
        rows := a.rows.modify i (· ++ [j]) }
    else a

/-- Subtract the product of a column of the lower and a row of the upper
factor. -/
def subtractProduct (a : Active α) (lowerColumn upperRow : List (Nat × α)) : Active α :=
  lowerColumn.foldl (fun a (i, multiplier) =>
    upperRow.foldl (fun a (j, upper) => a.addAt i j (-multiplier * upper)) a) a

/-- Take the row and the column of a pivot out of the submatrix, and subtract from
the rest what they account for. -/
def eliminate (a : Active α) (row column : Nat) (pivot : α) : Elimination α :=
  let others := (a.row row).filter fun j => j != column
  let (a, upperRow) := a.takeRow row others
  let below := (a.column column).filter fun t => t.1 != row
  let lowerColumn := below.map fun (i, x) => (i, x / pivot)
  let a := below.foldl (fun a t => a.dropPosition t.1 column) a
  let a := { a with columns := a.columns.setIfInBounds column [] }
  let a := a.subtractProduct lowerColumn upperRow
  let a := { a with
    columnsByCount := a.columnsByCount.remove column
    rowsByCount := a.rowsByCount.remove row }
  { active := a.recount others (below.map Prod.fst)
    upperRow := upperRow
    lowerColumn := lowerColumn }

/-- Give up a column without pivoting on it. -/
def giveUp (a : Active α) (column : Nat) : Active α :=
  let rows := (a.column column).map Prod.fst
  let a := rows.foldl (fun a i => a.dropPosition i column) a
  let a := { a with
    columns := a.columns.setIfInBounds column []
    columnsByCount := a.columnsByCount.remove column }
  a.recount [] rows

end Active
end DualSimplex
