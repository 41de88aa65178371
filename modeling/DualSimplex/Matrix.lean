import DualSimplex.SparseVector

/-!
# Compressed matrices

A matrix is stored line by line, a line being a column or a row as the owner
sees fit.  `transpose` gives the same matrix by lines of the other kind.  The
products of a vector with all columns can be had from either form.
-/

namespace DualSimplex

open Scalar

/-- The entries of the lines one after the other: those of line `k` are found
from `start[k]` up to but not including `start[k + 1]`.  Along a line the
positions are below `width`. -/
structure Matrix (α : Type) where
  start : Array Nat
  index : Array Nat
  value : Array α
  width : Nat

namespace Matrix

variable {α : Type} [Scalar α]

def lineCount (a : Matrix α) : Nat :=
  a.start.size - 1

def entryCount (a : Matrix α) : Nat :=
  a.index.size

/-- The entries of a line in stored order. -/
def line (a : Matrix α) (k : Nat) : List (Nat × α) :=
  let first := a.start.getD k 0
  (List.range (a.start.getD (k + 1) 0 - first)).map fun d =>
    (a.index.getD (first + d) 0, a.value.getD (first + d) 0)

def lines (a : Matrix α) : List (List (Nat × α)) :=
  (List.range a.lineCount).map a.line

/-- Append a line. -/
def push (a : Matrix α) (line : List (Nat × α)) : Matrix α :=
  let index := line.foldl (fun xs t => xs.push t.1) a.index
  { a with
    start := a.start.push index.size
    index := index
    value := line.foldl (fun xs t => xs.push t.2) a.value }

/-- The matrix with the given lines. -/
def ofLines (width : Nat) (lines : List (List (Nat × α))) : Matrix α :=
  lines.foldl push { start := #[0], index := #[], value := #[], width := width }

/-- The nonzeros of column `j` of a matrix given by dense rows.  A row that is
too short has no entry there. -/
def denseColumn (rows : List (List α)) (j : Nat) : List (Nat × α) :=
  rows.zipIdx.filterMap fun (row, i) =>
    match row[j]? with
    | some x => if x == 0 then none else some (i, x)
    | none => none

/-- The columns of a matrix given by dense rows. -/
def ofDense (rows : List (List α)) (columnCount : Nat) : Matrix α :=
  ofLines rows.length ((List.range columnCount).map (denseColumn rows))

/-- How many entries there are at each position, moved up by one place. -/
def tally (a : Matrix α) : Array Nat :=
  a.index.foldl (fun counts i => counts.modify (i + 1) (· + 1)) (Array.replicate (a.width + 1) 0)

/-- Every count plus all those before it. -/
def accumulateCounts (counts : Array Nat) : Array Nat :=
  (List.range (counts.size - 1)).foldl
    (fun c i => c.modify (i + 1) (· + c.getD i 0)) counts

/-- A transposition under way: where the next entry of each new line goes. -/
structure Scatter (α : Type) where
  next : Array Nat
  index : Array Nat
  value : Array α

/-- Put an entry of line `k` into its new line. -/
def Scatter.place (s : Scatter α) (k : Nat) (entry : Nat × α) : Scatter α :=
  let slot := s.next.getD entry.1 0
  { next := s.next.modify entry.1 (· + 1)
    index := s.index.setIfInBounds slot k
    value := s.value.setIfInBounds slot entry.2 }

/-- The same matrix by lines of the other kind, by counting sort: along a new
line the positions increase, and entries of equal position keep their order. -/
def transpose (a : Matrix α) : Matrix α :=
  let start := accumulateCounts a.tally
  let empty : Scatter α := {
    next := start
    index := Array.replicate a.index.size 0
    value := Array.replicate a.value.size 0 }
  let s := (List.range a.lineCount).foldl
    (fun s k => (a.line k).foldl (fun s entry => s.place k entry) s) empty
  { start := start, index := s.index, value := s.value, width := a.lineCount }

/-- The inner product of a line with a dense vector. -/
def lineDot (a : Matrix α) (k : Nat) (dense : Array α) : α :=
  sum ((a.line k).map fun (i, x) => x * dense.getD i 0)

/-- The products of a vector with all lines, each by itself.  They are written
to `result`, which should be zero. -/
def priceByColumn (columns : Matrix α) (rho result : SparseVector α) : SparseVector α :=
  let priced := (List.range columns.lineCount).foldl (fun r j =>
    let x := columns.lineDot j rho.values
    if x == 0 then r else r.setOnly j x) result
  priced.addTicks (Float.ofNat columns.entryCount)

/-- Add a term to a product under way.  A position that cancels stays listed
under a mark. -/
def addTerm (result : SparseVector α) (j : Nat) (term : α) : SparseVector α :=
  let before := result.get j
  let after := before + term
  let support := if before == 0 then result.support ++ [j] else result.support
  { result.put j (if after == 0 then cancelled else after) with support := support }

/-- The products of a vector with all columns, by adding up the rows in its
support.  They are written to `result`, which should be zero, and lose their
tiny values. -/
def priceByRow (rows : Matrix α) (rho result : SparseVector α) : SparseVector α :=
  let used := rho.support.filter fun i => !(rho.get i == 0)
  let priced := used.foldl (fun r i =>
    let multiplier := rho.get i
    (rows.line i).foldl (fun r (j, x) => addTerm r j (multiplier * x)) r) result
  (priced.addTicks (Float.ofNat (used.flatMap rows.line).length)).dropTiny

end Matrix
end DualSimplex
