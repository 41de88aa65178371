import DualSimplex.Factor.Factoring
import DualSimplex.Factor.Replacement
import DualSimplex.Factor.Triangle

/-!
# The factored basis

The factors of the basis matrix through the basis changes of a solve.  They are
updated with every change, and made anew when the updates are too many, have
made the factors too large, or have made solving too expensive.
-/

namespace DualSimplex

open Scalar

structure FactorPolicy (α : Type) where
  /-- The relative threshold for pivots, and how far it may be raised. -/
  pivotThreshold : α
  thresholdCeiling : α
  /-- The least magnitude of a pivot or of a new diagonal value. -/
  pivotTolerance : α
  maxUpdates : Nat
  maxFillGrowth : Float

/-- Why the basis should be factored anew. -/
inductive RenewalReason
  | updateLimit
  | fillGrowth
  | tickBudget

/-- Why a basis matrix was not factored. -/
inductive FactorFailure (α : Type)
  /-- It is singular: dependent positions, and rows whose unit columns can take
  their places. -/
  | singularBasis (pairs : List (Nat × Nat))
  /-- The factors have grown too much.  The threshold has been raised, and
  another attempt may succeed. -/
  | pivotToleranceViolation (growth threshold : α)

def FactorFailure.message {α : Type} [Binary.Encoded α] : FactorFailure α → String
  | singularBasis pairs =>
    s!"basis matrix is singular, {pairs.length} columns are dependent"
  | pivotToleranceViolation growth threshold =>
    "element growth of " ++ Decimal.Layout.scientific.format growth
      ++ " in the factor, pivot threshold raised to " ++ Decimal.Layout.plain.format threshold

structure FactoredBasis (α : Type) where
  lu : LU α
  parameters : FactorPolicy α
  /-- The relative threshold in use.  It is only ever raised. -/
  threshold : α
  /-- What the next update takes its column from. -/
  spike : SparseVector α
  /-- Work of the last factorization, and of the solves since. -/
  factorWork : Float
  solveWork : Float

namespace FactoredBasis

variable {α : Type} [Scalar α]

/-- The growth from which on the threshold is raised. -/
def tolerableGrowth : α := 1e12

/-- How much more than factoring the solves may cost. -/
def workRatio : Float := 10

/-- The number of updates from which on the cost of the solves counts. -/
def workGrace : Nat := 20

/-- The factors of the identity matrix. -/
def identity (m : Nat) (parameters : FactorPolicy α) : FactoredBasis α where
  lu := LU.identity m
  parameters := parameters
  threshold := parameters.pivotThreshold
  spike := SparseVector.zero m SparseVector.defaultDensity
  factorWork := Float.ofNat m
  solveWork := 0

def m (f : FactoredBasis α) : Nat :=
  f.lu.m

def updateCount (f : FactoredBasis α) : Nat :=
  f.lu.updateCount

/-- Raise the threshold, unless it has reached its ceiling. -/
def raise? (f : FactoredBasis α) : Option (FactoredBasis α) :=
  if f.parameters.thresholdCeiling ≤ f.threshold then none
  else some { f with threshold := smaller (2.0 * f.threshold) f.parameters.thresholdCeiling }

theorem eq_of_raise {f raised : FactoredBasis α} (h : f.raise? = some raised) :
    raised = { f with threshold := raised.threshold } := by
  unfold raise? at h
  split at h
  · exact absurd h nofun
  · rw [← Option.some.inj h]

/-- Factor a matrix given by its columns.  If that fails the old factors stay,
though the threshold may have been raised. -/
def factorAnew (f : FactoredBasis α) (columns : List (List (Nat × α))) :
    FactoredBasis α × Except (FactorFailure α) (FactorSummary α) :=
  match LU.factor columns f.threshold f.parameters.pivotTolerance with
  | .error pairs => (f, .error (.singularBasis pairs))
  | .ok (lu, summary) =>
    let accept : FactoredBasis α := { f with
      lu := lu
      factorWork := larger summary.ticks (Float.ofNat f.m)
      solveWork := 0 }
    if tolerableGrowth < summary.growth then
      match f.raise? with
      | some raised => (raised, .error (.pivotToleranceViolation summary.growth raised.threshold))
      | none => (accept, .ok summary)
    else (accept, .ok summary)

/-- Count the work that a solve has added to its vector. -/
def charge (f : FactoredBasis α) (before after : SparseVector α) : FactoredBasis α :=
  { f with solveWork := f.solveWork + (after.ticks - before.ticks) }

/-- Solve with the basis matrix. -/
def ftran (f : FactoredBasis α) (rhs : SparseVector α) : FactoredBasis α × SparseVector α :=
  let x := (f.lu.ftran rhs).solution
  (f.charge rhs x, x)

/-- Solve with the basis matrix for a column that may be put into it. -/
def ftranSpike (f : FactoredBasis α) (rhs : SparseVector α) : FactoredBasis α × SparseVector α :=
  let s := f.lu.ftran rhs
  ({ f.charge rhs s.solution with spike := f.spike.assign s.spike }, s.solution)

/-- Solve with the transpose of the basis matrix. -/
def btran (f : FactoredBasis α) (rhs : SparseVector α) : FactoredBasis α × SparseVector α :=
  let y := f.lu.btran rhs
  (f.charge rhs y, y)

/-- Take over a basis change.  The entering column is that of the last call of
`ftranSpike`, whose solution has the value `pivot` at the position. -/
def update (f : FactoredBasis α) (position : Nat) (pivot : α) :
    Except (ReplacementError α) (FactoredBasis α) :=
  match f.lu.update position f.spike pivot f.parameters.pivotTolerance with
  | .ok lu => .ok { f with lu := lu }
  | .error e => .error e

/-- Whether the matrix should be factored anew before the next basis change. -/
def renewalReason? (f : FactoredBasis α) : Option RenewalReason :=
  let allowed := f.parameters.maxFillGrowth * Float.ofNat f.lu.freshCount
  if f.parameters.maxUpdates ≤ f.updateCount then some .updateLimit
  else if allowed < Float.ofNat f.lu.entryCount then some .fillGrowth
  else if workGrace ≤ f.updateCount && workRatio * f.factorWork < f.solveWork then
    some .tickBudget
  else none

/-- How far the solution for the sum of all columns is from all ones. -/
def residual (f : FactoredBasis α) (columns : List (List (Nat × α))) : α :=
  let rhs := SparseVector.ofTerms f.m columns.flatten
  maxAbs (((f.lu.ftran rhs).solution.values.toList).map fun x => x - 1)

end FactoredBasis
end DualSimplex
