import DualSimplex.Factor.LU
import DualSimplex.Factor.PivotSearch

/-!
# Factoring a matrix

Pivots are chosen one after the other and eliminated.  Columns that offer no
pivot are dependent on the others.  If there are any the matrix is singular,
and they are paired with the rows that were left over, whose unit columns can
take their places.
-/

namespace DualSimplex

open Scalar

/-- The size and the accuracy to be expected of new factors. -/
structure FactorSummary (α : Type) where
  /-- Entries of the matrix, and of its factors. -/
  basisCount : Nat
  factorCount : Nat
  fillFactor : Float
  /-- The largest magnitude in the upper factor over that in the matrix. -/
  growth : α
  /-- The entries of the matrix plus the entries each pivot may have changed. -/
  ticks : Float

/-- A factorization under way.  Steps and dependent columns are listed as they
come up. -/
structure Factoring (α : Type) where
  active : Active α
  steps : List (PivotStep α)
  upperColumns : Array (List (Nat × α))
  dependent : List Nat
  ticks : Nat

namespace Factoring

variable {α : Type} [Scalar α]

/-- The number of lines that the pivot search looks at. -/
def lineLimit : Nat := 4

def start (columns : List (List (Nat × α))) : Factoring α where
  active := Active.ofColumns columns
  steps := []
  upperColumns := Array.replicate columns.length []
  dependent := []
  ticks := columns.flatten.length

/-- Eliminate with a pivot. -/
def take (f : Factoring α) (p : Pivot α) : Factoring α :=
  let e := f.active.eliminate p.row p.column p.value
  let step : PivotStep α :=
    { row := p.row, column := p.column, value := p.value, lowerColumn := e.lowerColumn }
  { f with
    active := e.active
    steps := f.steps ++ [step]
    upperColumns := e.upperRow.foldl (fun columns (j, x) =>
      columns.modify j (· ++ [(p.row, x)])) f.upperColumns
    ticks := f.ticks + (e.upperRow.length + 1) * (e.lowerColumn.length + 1) }

/-- Whether a column has neither been pivoted on nor given up. -/
def isOpen (f : Factoring α) (j : Nat) : Bool :=
  !(f.steps.any fun s => s.column == j) && !f.dependent.contains j

/-- Decide on the remaining columns.  Each turn decides on one at least, so as
many turns as columns are enough. -/
def run (rule : PivotSearch α) : Nat → Factoring α → Factoring α
  | 0, f => f
  | turns + 1, f =>
    if f.active.m ≤ f.steps.length + f.dependent.length then f
    else
      match rule.choose f.active with
      | .pivot p => run rule turns (f.take p)
      | .emptyColumn j =>
        run rule turns
          { f with active := f.active.giveUp j, dependent := f.dependent ++ [j] }
      | .exhausted =>
        { f with dependent := f.dependent ++ (List.range f.active.m).filter f.isOpen }

/-- The dependent columns, each with a row that was not pivoted on. -/
def pairs (f : Factoring α) : List (Nat × Nat) :=
  let rows := (List.range f.active.m).filter fun i => !(f.steps.any fun s => s.row == i)
  (f.dependent.mergeSort (· ≤ ·)).zip rows

end Factoring

namespace LU

variable {α : Type} [Scalar α]

/-- What there is to say about new factors of a matrix with these columns. -/
def summary (lu : LU α) (columns : List (List (Nat × α))) (ticks : Nat) : FactorSummary α :=
  let basisCount := columns.flatten.length
  let basisMax := maxAbs (columns.map fun column => maxAbs (column.map Prod.snd))
  let upperMax := maxAbs (lu.upper.diagonal.toList ++ lu.upper.columns.toList.flatten.map Prod.snd)
  { basisCount := basisCount
    factorCount := lu.entryCount
    fillFactor :=
      if basisCount = 0 then 1 else Float.ofNat lu.entryCount / Float.ofNat basisCount
    growth := if 0 < basisMax then upperMax / basisMax else 1
    ticks := Float.ofNat ticks }

/-- Factor the matrix with the given columns, whose entries are row and value.
If it is singular the answer is a list of the dependent columns, each with a
row that was not pivoted on. -/
def factor (columns : List (List (Nat × α))) (threshold tolerance : α) :
    Except (List (Nat × Nat)) (LU α × FactorSummary α) :=
  let rule : PivotSearch α := {
    threshold := threshold
    tolerance := tolerance
    lineLimit := Factoring.lineLimit }
  let f := Factoring.run rule columns.length (Factoring.start columns)
  if f.dependent.isEmpty then
    let lu := ofSteps f.steps f.upperColumns
    .ok (lu, lu.summary columns f.ticks)
  else .error f.pairs

end LU
end DualSimplex
