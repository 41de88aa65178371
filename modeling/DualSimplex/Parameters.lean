import DualSimplex.Scalar
import DualSimplex.Decimal.Layout

/-!
# Parameters

What a caller may choose about a solve.  What the solver compares with its
own numbers is of their type; shares and ratios of work are always floating
point.
-/

namespace DualSimplex

open Scalar

/-- How the variable that leaves the basis is chosen. -/
inductive PricingRule
  /-- By the largest infeasibility. -/
  | dantzig
  /-- By the largest infeasibility against an approximate weight. -/
  | devex
  /-- By the largest infeasibility against the norm of its row of the basis
  inverse. -/
  | steepestEdge
  deriving DecidableEq

structure Parameters (α : Type) where
  pricingRule : PricingRule
  /-- The largest violation of a bound that is no infeasibility. -/
  primalTolerance : α
  /-- The same for reduced costs of the wrong sign. -/
  dualTolerance : α
  /-- The least magnitude of a pivot element. -/
  pivotTolerance : α
  /-- The least size of a pivot in a factorization, relative to its column, and
  how far it may be raised. -/
  pivotThreshold : α
  pivotThresholdCeiling : α
  /-- Basis changes between factorizations. -/
  maxUpdates : Nat
  /-- How far the factors may grow before the basis is factored anew. -/
  maxFillGrowth : Float
  iterationLimit : Option Nat
  /-- A limit in seconds.  Time does not pass for a solve, so only a limit of
  zero has an effect: it has been reached from the start. -/
  timeLimit : Option Nat
  /-- Whether the caller wants the solve to stop. -/
  interrupt : Bool
  /-- The share of positions up to which vectors count as sparse. -/
  density : Float
  /-- Whether costs are perturbed before the first iteration of phase two. -/
  perturbation : Bool
  randomSeed : UInt64
  /-- A variable that enters the basis more than `cycleThreshold` times within
  `cycleWindow` basis changes is taken as a sign of cycling. -/
  cycleWindow : Nat
  cycleThreshold : Nat
  /-- Whether the report lists the objective value of every basis. -/
  traceObjective : Bool

/-- The tolerances that have to be positive. -/
inductive ToleranceName
  | primal
  | dual
  | pivot

def ToleranceName.text : ToleranceName → String
  | .primal => "primal feasibility tolerance"
  | .dual => "dual feasibility tolerance"
  | .pivot => "pivot tolerance"

/-- The parameters that have a least value. -/
inductive CounterName
  | maxUpdates
  | maxFillGrowth
  | cycleWindow
  | cycleThreshold

def CounterName.text : CounterName → String
  | .maxUpdates => "max updates"
  | .maxFillGrowth => "max fill growth"
  | .cycleWindow => "cycle window"
  | .cycleThreshold => "cycle threshold"

/-- Why parameters are refused. -/
inductive ParameterError (α : Type)
  | tolerance (name : ToleranceName) (value : α)
  | density (value : Float)
  | threshold (value : α)
  | ceiling (value : α)
  | thresholdCeiling (threshold ceiling : α)
  | tooSmall (name : CounterName) (value : Float)

def ParameterError.message {α : Type} [Binary.Encoded α] : ParameterError α → String
  | tolerance name value =>
    "tolerance " ++ name.text ++ " should be positive and finite, was "
      ++ Decimal.Layout.plain.format value
  | density value => fraction "density threshold" (Decimal.Layout.plain.format value)
  | threshold value => fraction "pivot threshold" (Decimal.Layout.plain.format value)
  | ceiling value => fraction "pivot threshold ceiling" (Decimal.Layout.plain.format value)
  | thresholdCeiling value limit =>
    "pivot threshold " ++ Decimal.Layout.plain.format value ++ " exceeds its ceiling "
      ++ Decimal.Layout.plain.format limit
  | tooSmall name value =>
    name.text ++ " should be at least 1, was " ++ Decimal.Layout.plain.format value
where
  fraction (name value : String) : String :=
    name ++ " should be in (0, 1], was " ++ value

namespace Parameters

variable {α : Type} [Scalar α]

def default : Parameters α where
  pricingRule := .steepestEdge
  primalTolerance := 1e-7
  dualTolerance := 1e-7
  pivotTolerance := 1e-9
  pivotThreshold := 0.1
  pivotThresholdCeiling := 0.5
  maxUpdates := 100
  maxFillGrowth := 1.5
  iterationLimit := none
  timeLimit := none
  interrupt := false
  density := 0.1
  perturbation := true
  randomSeed := 0
  cycleWindow := 64
  cycleThreshold := 8
  traceObjective := false

/-- Whether a value lies in `(0, 1]`. -/
def isFraction {β : Type} [Scalar β] (x : β) : Bool :=
  0 < x && x ≤ 1

def checkTolerance (name : ToleranceName) (x : α) : Except (ParameterError α) Unit :=
  if isFinite x && 0 < x then pure () else throw (.tolerance name x)

def checkAtLeastOne (name : CounterName) (x : Float) : Except (ParameterError α) Unit :=
  if (1 : Float) ≤ x then pure () else throw (.tooSmall name x)

/-- Whether every parameter is in its range, or the first that is not. -/
def validate (p : Parameters α) : Except (ParameterError α) Unit := do
  checkTolerance .primal p.primalTolerance
  checkTolerance .dual p.dualTolerance
  checkTolerance .pivot p.pivotTolerance
  if !isFraction p.density then throw (.density p.density)
  if !isFraction p.pivotThreshold then throw (.threshold p.pivotThreshold)
  if !isFraction p.pivotThresholdCeiling then throw (.ceiling p.pivotThresholdCeiling)
  if p.pivotThresholdCeiling < p.pivotThreshold then
    throw (.thresholdCeiling p.pivotThreshold p.pivotThresholdCeiling)
  checkAtLeastOne .maxUpdates (Float.ofNat p.maxUpdates)
  checkAtLeastOne .maxFillGrowth p.maxFillGrowth
  checkAtLeastOne .cycleWindow (Float.ofNat p.cycleWindow)
  checkAtLeastOne .cycleThreshold (Float.ofNat p.cycleThreshold)

end Parameters
end DualSimplex
