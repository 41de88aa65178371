import DualSimplex.Scalar

/-!
# Reports

What a solve counts on its way: violated conditions, the numerical
difficulties it met, and the work it did.
-/

namespace DualSimplex

open Scalar

/-- By how much a set of conditions is violated: how many of them, by how much at
most, and by how much in all. -/
structure Infeasibilities (α : Type) where
  count : Nat
  max : α
  sum : α

namespace Infeasibilities

variable {α : Type} [Scalar α]

def none : Infeasibilities α :=
  { count := 0, max := 0, sum := 0 }

/-- Take a violation into account.  One within the tolerance is neither counted
nor summed. -/
def register (s : Infeasibilities α) (violation tolerance : α) : Infeasibilities α :=
  let counted := tolerance < violation
  { count := if counted then s.count + 1 else s.count
    max := larger s.max violation
    sum := if counted then s.sum + violation else s.sum }

end Infeasibilities

/-- What rounding can do to a solve without ending it. -/
inductive Difficulty
  /-- Dependent columns of the basis were replaced by logical variables. -/
  | singularBasis
  /-- The factorization refused to take over a basis change. -/
  | updateSingular
  /-- A fresh factorization did not solve accurately. -/
  | residualTooLarge
  /-- Two computations of a pivot element came to different results. -/
  | pivotMismatch
  /-- Reduced costs were of the wrong sign after they were computed anew. -/
  | dualInfeasibilityAfterRebuild
  /-- A variable kept coming back into the basis. -/
  | cycleDetected
  /-- The next factorizations give more weight to accuracy. -/
  | pivotThresholdEscalation
  /-- A ray did not prove what it should. -/
  | unboundedRayRejected
  deriving DecidableEq

namespace Difficulty

def all : List Difficulty :=
  [singularBasis, updateSingular, residualTooLarge, pivotMismatch,
    dualInfeasibilityAfterRebuild, cycleDetected, pivotThresholdEscalation, unboundedRayRejected]

def name : Difficulty → String
  | singularBasis => "SingularBasis"
  | updateSingular => "UpdateSingular"
  | residualTooLarge => "ResidualTooLarge"
  | pivotMismatch => "PivotMismatch"
  | dualInfeasibilityAfterRebuild => "DualInfeasibilityAfterRebuild"
  | cycleDetected => "CycleDetected"
  | pivotThresholdEscalation => "PivotThresholdEscalation"
  | unboundedRayRejected => "UnboundedRayRejected"

end Difficulty

/-- Counters of a solve.  Work is measured in entries touched and is always
counted in floating point, whatever the solve computes with. -/
structure Statistics (α : Type) where
  /-- Basis changes. -/
  iterations : Nat
  /-- Those of the iterations that were made in the auxiliary problem. -/
  phaseOneIterations : Nat
  boundFlips : Nat
  /-- Factorizations from scratch, of which a solve starts with one. -/
  refactorizations : Nat
  ticks : Float
  /-- Size of each fresh factorization over that of its basis matrix. -/
  fillFactors : List Float
  /-- The difficulties met, the latest first. -/
  events : List Difficulty
  objectiveTrace : List α
  maxPrimalResidual : α
  maxDualResidual : α

namespace Statistics

variable {α : Type} [Scalar α]

def empty : Statistics α where
  iterations := 0
  phaseOneIterations := 0
  boundFlips := 0
  refactorizations := 0
  ticks := 0
  fillFactors := []
  events := []
  objectiveTrace := []
  maxPrimalResidual := 0
  maxDualResidual := 0

def note (s : Statistics α) (e : Difficulty) : Statistics α :=
  { s with events := e :: s.events }

/-- How often a difficulty was met. -/
def timesMet (s : Statistics α) (e : Difficulty) : Nat :=
  s.events.count e

def addTicks (s : Statistics α) (ticks : Float) : Statistics α :=
  { s with ticks := s.ticks + ticks }

end Statistics
end DualSimplex
