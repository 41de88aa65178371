import DualSimplex.Factor.Active

/-!
# Pivot search

A pivot should be large within its column, for accuracy, and its row and column
should have few other entries, since the product of their numbers bounds the
fill that it causes.  The search goes through columns and rows by increasing
count and stops as soon as nothing cheaper can follow, or when it has looked at
enough lines.
-/

namespace DualSimplex

open Scalar

/-- What makes an entry eligible, and how long to search. -/
structure PivotSearch (α : Type) where
  /-- The least magnitude relative to the largest in the column. -/
  threshold : α
  /-- The least magnitude. -/
  tolerance : α
  /-- How many lines with eligible entries are looked at. -/
  lineLimit : Nat

structure Pivot (α : Type) where
  row : Nat
  column : Nat
  value : α

inductive PivotDecision (α : Type)
  | pivot (p : Pivot α)
  /-- A column has no entries left. -/
  | emptyColumn (column : Nat)
  /-- No entry is eligible. -/
  | exhausted

/-- A pivot with the fill that it may cause. -/
structure Offer (α : Type) where
  cost : Nat
  pivot : Pivot α

inductive Search (α : Type)
  /-- The cheapest offer so far, and the number of lines that had any. -/
  | running (best : Option (Offer α)) (searched : Nat)
  | settled (p : Pivot α)

namespace PivotSearch

variable {α : Type} [Scalar α]

def accepts (rule : PivotSearch α) (x peak : α) : Bool :=
  rule.tolerance ≤ magnitude x && rule.threshold * peak ≤ magnitude x

/-- Whether a cost is below that of the best offer, if there is one. -/
def improves (cost : Nat) : Option (Offer α) → Bool
  | none => true
  | some best => cost < best.cost

/-- Go through a column with `count` entries.  The answer is the best offer and
whether the column has an eligible entry. -/
def scanColumn (rule : PivotSearch α) (a : Active α) (count column : Nat)
    (best : Option (Offer α)) : Option (Offer α) × Bool :=
  let peak := a.columnPeaks.getD column 0
  (a.column column).foldl (fun (best, found) (row, x) =>
    if rule.accepts x peak then
      let cost := (count - 1) * ((a.row row).length - 1)
      if improves cost best then
        (some { cost := cost, pivot := { row := row, column := column, value := x } }, true)
      else (best, true)
    else (best, found)) (best, false)

/-- Go through a row with `count` entries.  Only an entry that improves on the
best offer counts as found. -/
def scanRow (rule : PivotSearch α) (a : Active α) (count row : Nat)
    (best : Option (Offer α)) : Option (Offer α) × Bool :=
  (a.row row).foldl (fun (best, found) column =>
    let cost := (count - 1) * ((a.column column).length - 1)
    let x := a.value row column
    if improves cost best && rule.accepts x (a.columnPeaks.getD column 0) then
      (some { cost := cost, pivot := { row := row, column := column, value := x } }, true)
    else (best, found)) (best, false)

/-- Decide after a line whether to go on.  No offer that is still to come costs
less than `bound`. -/
def afterLine (rule : PivotSearch α) (bound searched : Nat) :
    Option (Offer α) × Bool → Search α
  | (none, found) => .running none (if found then searched + 1 else searched)
  | (some best, found) =>
    if best.cost ≤ bound || (found && rule.lineLimit ≤ searched + 1) then .settled best.pivot
    else .running (some best) (if found then searched + 1 else searched)

def columnStep (rule : PivotSearch α) (a : Active α) (count : Nat) (s : Search α)
    (column : Nat) : Search α :=
  match s with
  | .running best searched =>
    rule.afterLine ((count - 1) * (count - 1)) searched (rule.scanColumn a count column best)
  | settled => settled

def rowStep (rule : PivotSearch α) (a : Active α) (count : Nat) (s : Search α)
    (row : Nat) : Search α :=
  match s with
  | .running best searched =>
    rule.afterLine (count * (count - 1)) searched (rule.scanRow a count row best)
  | settled => settled

/-- Go through the columns and then the rows with `count` entries. -/
def countStep (rule : PivotSearch α) (a : Active α) (s : Search α) (count : Nat) : Search α :=
  (a.rowsByCount.items count).foldl (rule.rowStep a count)
    ((a.columnsByCount.items count).foldl (rule.columnStep a count) s)

/-- Choose what to do next with an active submatrix. -/
def choose (rule : PivotSearch α) (a : Active α) : PivotDecision α :=
  match a.columnsByCount.first 0 with
  | some column => .emptyColumn column
  | none =>
    match (List.range' 1 a.m).foldl (rule.countStep a) (.running none 0) with
    | .settled p => .pivot p
    | .running (some best) _ => .pivot best.pivot
    | .running none _ => .exhausted

end PivotSearch
end DualSimplex
