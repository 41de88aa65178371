import DualSimplex.EdgeWeights
import DualSimplex.EntryHistory
import DualSimplex.Factor.FactoredBasis
import DualSimplex.Random
import DualSimplex.Solution

/-!
# The engine

A program is solved in the form `[A I] x = 0`.  Behind the columns come the
logical variables of the rows: the logical variable of a row is minus its
activity, so its bounds are the negated bounds of the row.  Costs are those of
a minimization.

The engine holds the working data of a solve.  Its costs and bounds may differ
from those of the program for a while: costs are perturbed or adjusted, bounds
are relaxed or replaced.
-/

namespace DualSimplex

open Scalar

/-- A program and how to solve it. -/
structure Job (α : Type) where
  program : LinearProgram α
  parameters : Parameters α

namespace Job

variable {α : Type} [Scalar α] (t : Job α)

def rowCount : Nat := t.program.rowCount

def columnCount : Nat := t.program.columnCount

/-- The number of variables, the logical ones included. -/
def size : Nat := t.columnCount + t.rowCount

/-- All variables, in order. -/
def indices : List Nat := List.range t.size

/-- What a unit of a variable adds to the equations. -/
def column (j : Nat) : List (Nat × α) :=
  if j < t.columnCount then t.program.columns.line j else [(j - t.columnCount, 1)]

/-- The costs of all variables. -/
def costs : Array α :=
  t.program.costs.map t.program.sense.orient ++ Array.replicate t.rowCount 0

/-- The bounds of all variables. -/
def bounds : Array (Interval α) :=
  t.program.columnBounds ++ t.program.rowBounds.map Interval.neg

/-- The zero vector over the rows. -/
def zeroRow : SparseVector α := SparseVector.zero t.rowCount t.parameters.density

end Job

/-- Whether the bounds are those of the auxiliary problem, in which a dual
feasible basis is looked for. -/
inductive Phase
  | one
  | two
  deriving DecidableEq

/-- The working data of a solve. -/
structure Engine (α : Type) where
  cost : Array α
  bounds : Array (Interval α)
  /-- Variables whose bounds were relaxed, with the bounds before.  The latest
  one comes first. -/
  relaxed : List (Nat × Interval α)
  phase : Phase
  status : Array VariableStatus
  /-- By basis position. -/
  basicIndex : Array Nat
  value : Array α
  reducedCost : Array α
  /-- By row, what a unit of its activity is worth. -/
  multipliers : Array α
  factor : FactoredBasis α
  /-- Whether the factors are those of the present basis. -/
  factorValid : Bool
  weights : EdgeWeights α
  history : EntryHistory
  random : Random
  perturbed : Bool
  /-- Recoveries in a row without a basis change. -/
  recoveries : Nat
  dualRay : Option (Array α)
  primalRay : Option (Array α)
  statistics : Statistics α

namespace Engine

variable {α : Type} [Scalar α]

def costOf (e : Engine α) (j : Nat) : α :=
  e.cost.getD j 0

def boundsOf (e : Engine α) (j : Nat) : Interval α :=
  e.bounds.getD j { lower := .negInf, upper := .posInf }

def statusOf (e : Engine α) (j : Nat) : VariableStatus :=
  e.status.getD j .basic

def isBasic (e : Engine α) (j : Nat) : Bool :=
  (e.statusOf j).isBasic

def valueOf (e : Engine α) (j : Nat) : α :=
  e.value.getD j 0

def reducedCostOf (e : Engine α) (j : Nat) : α :=
  e.reducedCost.getD j 0

/-- Which variable a basis position belongs to. -/
def basicAt (e : Engine α) (position : Nat) : Nat :=
  e.basicIndex.getD position 0

/-- How far the reduced cost of a variable is from what its status asks. -/
def dualInfeasibility (e : Engine α) (j : Nat) : α :=
  (e.statusOf j).dualInfeasibility (e.reducedCostOf j)

def setStatus (e : Engine α) (j : Nat) (s : VariableStatus) : Engine α :=
  { e with status := e.status.setIfInBounds j s }

def setValue (e : Engine α) (j : Nat) (x : α) : Engine α :=
  { e with value := e.value.setIfInBounds j x }

def setBounds (e : Engine α) (j : Nat) (b : Interval α) : Engine α :=
  { e with bounds := e.bounds.setIfInBounds j b }

/-- Put a variable outside the basis, at the bound that the status names. -/
def rest (e : Engine α) (j : Nat) (s : VariableStatus) : Engine α :=
  (e.setStatus j s).setValue j ((e.boundsOf j).restingValue s)

/-- Put a variable outside the basis where it was, or, if its bounds do not
allow that, where a variable with its bounds belongs. -/
def restAgain (e : Engine α) (j : Nat) : Engine α :=
  let b := e.boundsOf j
  let s := e.statusOf j
  e.rest j (if b.allows s then s else b.restingStatus)

def note (e : Engine α) (event : Difficulty) : Engine α :=
  { e with statistics := e.statistics.note event }

def addTicks (e : Engine α) (ticks : Float) : Engine α :=
  { e with statistics := e.statistics.addTicks ticks }

/-- The engine at the start of a solve from a basis. -/
def start (t : Job α) (basis : Basis) : Engine α :=
  let p := t.parameters
  let status := basis.columns ++ basis.rows.map VariableStatus.opposite
  { cost := t.costs
    bounds := t.bounds
    relaxed := []
    phase := .two
    status := status
    basicIndex := (t.indices.filter fun j => (status.getD j .basic).isBasic).toArray
    value := Array.zipWith (fun b s => b.restingValue s) t.bounds status
    reducedCost := Array.replicate t.size 0
    multipliers := Array.replicate t.rowCount 0
    factor := FactoredBasis.identity t.rowCount {
      pivotThreshold := p.pivotThreshold
      thresholdCeiling := p.pivotThresholdCeiling
      pivotTolerance := p.pivotTolerance
      maxUpdates := p.maxUpdates
      maxFillGrowth := p.maxFillGrowth }
    factorValid := false
    weights := EdgeWeights.ofRule p.pricingRule t.rowCount
    history := EntryHistory.empty p.cycleWindow p.cycleThreshold
    random := Random.ofSeed p.randomSeed
    perturbed := false
    recoveries := 0
    dualRay := none
    primalRay := none
    statistics := Statistics.empty }

end Engine

/-- What comes of a step that may have to give up.  The engine is there in
either case. -/
inductive Progress (α : Type)
  | going (e : Engine α)
  | stopped (e : Engine α) (status : SolveStatus)

namespace Progress

variable {α : Type}

def engine : Progress α → Engine α
  | going e => e
  | stopped e _ => e

/-- Go on unless the step has given up. -/
def andThen (p : Progress α) (f : Engine α → Progress α) : Progress α :=
  match p with
  | going e => f e
  | stopped e status => stopped e status

/-- Go on with something that cannot fail. -/
def map (p : Progress α) (f : Engine α → Engine α) : Progress α :=
  p.andThen fun e => going (f e)

end Progress
end DualSimplex
