import DualSimplex.Engine.Relaxation
import DualSimplex.RatioTest

/-!
# Iterations

In an iteration a variable leaves the basis that violates a bound, and another
one enters it.  The leaving row is priced out over all variables, the ratio
test finds the entering variable and the length of the dual step, and then
multipliers, reduced costs, values, weights and factors are brought up to date.
-/

namespace DualSimplex

open Scalar

/-- What an iteration comes to. -/
inductive Step (α : Type)
  /-- There may be more to do. -/
  | next (e : Engine α)
  /-- No basic variable violates its bounds. -/
  | solved (e : Engine α)
  /-- No variable can enter.  The multipliers of the rows are given. -/
  | unbounded (e : Engine α) (ray : Array α)
  | stopped (e : Engine α) (status : SolveStatus)

def Progress.toStep {α : Type} : Progress α → Step α
  | .going e => .next e
  | .stopped e status => .stopped e status

/-- The row of a basis position, priced out: of the basis inverse, and its
products with the columns. -/
structure PivotRow (α : Type) where
  rho : SparseVector α
  columns : SparseVector α

namespace PivotRow

variable {α : Type} [Scalar α] (t : Job α)

/-- The entry of a variable. -/
def entry (r : PivotRow α) (j : Nat) : α :=
  if j < t.columnCount then r.columns.get j else r.rho.get (j - t.columnCount)

/-- The variables with an entry: the columns, then the logical variables. -/
def support (r : PivotRow α) : List Nat :=
  r.columns.support ++ r.rho.support.map (t.columnCount + ·)

end PivotRow

/-- A basis change that the ratio test has decided on. -/
structure Exchange (α : Type) where
  position : Nat
  leaving : Nat
  /-- One if the leaving variable lies above its upper bound, minus one if it
  lies below its lower one. -/
  direction : α
  entering : Nat
  /-- The length of the dual step. -/
  step : α
  flips : List Nat
  row : PivotRow α
  /-- The solution for the entering column. -/
  column : SparseVector α

def Exchange.pivot {α : Type} [Scalar α] (x : Exchange α) : α :=
  x.column.get x.position

namespace Engine

variable {α : Type} [Scalar α] (t : Job α)

/-- How far the pivot elements from the column and from the row may be apart,
relatively. -/
def elementAgreement : α := 1e-7

/-- Recoveries in a row after which a solve gives up. -/
def maxRecoveries : Nat := 10

/-- The products of a row of the basis inverse with all columns, computed by
row if it is sparse. -/
def price (e : Engine α) (rho : SparseVector α) : Engine α × PivotRow α :=
  let zero := SparseVector.zero t.columnCount t.parameters.density
  let columns :=
    if rho.isSparse rho.count then t.program.rows.priceByRow rho zero
    else t.program.columns.priceByColumn rho zero
  (e.addTicks columns.ticks, { rho := rho, columns := columns })

/-- The sign that the entries of variables get which can move as the dual step
grows. -/
def movingSign? (signed : α) : VariableStatus → Option α
  | .atLower => some 1
  | .atUpper => some (-1)
  | .free => some (sign signed)
  | .fixed | .basic => none

/-- A variable as a candidate for entering, if its reduced cost moves towards
zero and its entry is large enough for a pivot. -/
def candidate? (e : Engine α) (r : PivotRow α) (direction : α) (j : Nat) :
    Option (Candidate α) :=
  let alpha := r.entry t j
  let signed := direction * alpha
  match movingSign? signed (e.statusOf j) with
  | none => none
  | some moving =>
    if moving * signed ≤ t.parameters.pivotTolerance then none
    else some {
      variableIndex := j
      alpha := magnitude alpha
      ratio := moving * e.reducedCostOf j / magnitude alpha
      range := (e.boundsOf j).range }

def ratioTest (e : Engine α) (r : PivotRow α) (direction : α) : RatioTest α :=
  ((r.support t).filterMap (e.candidate? t r direction)).foldl RatioTest.push RatioTest.empty

/-- Solve for the column of an entering variable and keep what the update of
the factors needs. -/
def ftranEntering (e : Engine α) (j : Nat) : Engine α × SparseVector α :=
  let (factor, x) := e.factor.ftranSpike (t.zeroRow.addAll (t.column j))
  ({ e with factor := factor }.addTicks x.ticks, x)

/-- Change the reduced cost of a variable outside the basis. -/
def lowerReducedCost (e : Engine α) (j : Nat) (amount : α) : Engine α :=
  if e.isBasic j then e
  else { e with reducedCost := e.reducedCost.modify j (· - amount) }

/-- Move multipliers and reduced costs along the pivot row. -/
def dualStep (e : Engine α) (r : PivotRow α) (signedStep : α) : Engine α :=
  let e := r.columns.entries.foldl (fun e (j, x) => e.lowerReducedCost j (signedStep * x)) e
  r.rho.entries.foldl (fun e (i, x) =>
    let e := e.lowerReducedCost (t.columnCount + i) (signedStep * x)
    { e with multipliers := e.multipliers.modify i (· + signedStep * x) }) e

/-- Take the dual step of a basis change. -/
def moveDuals (e : Engine α) (x : Exchange α) : Engine α :=
  let signedStep := x.step * x.direction
  let e := if signedStep == 0 then e else e.dualStep t x.row signedStep
  let reducedCost := e.reducedCost.setIfInBounds x.leaving (-signedStep)
  { e with reducedCost := reducedCost.setIfInBounds x.entering 0 }

/-- Move a variable to its other bound, and add its column times the change to
a vector. -/
def flipInto (s : Engine α × SparseVector α) (j : Nat) : Engine α × SparseVector α :=
  let (e, v) := s
  match e.statusOf j with
  | .atLower | .atUpper =>
    let flipped := e.flip j
    let change := flipped.valueOf j - e.valueOf j
    (flipped, v.addAll ((t.column j).map fun (i, a) => (i, a * change)))
  | _ => s

/-- Subtract from the basic values, given by position. -/
def lowerBasicValues (e : Engine α) (amounts : List (Nat × α)) : Engine α :=
  amounts.foldl (fun e (position, x) =>
    { e with value := e.value.modify (e.basicAt position) (· - x) }) e

/-- Flip the variables that the ratio test has passed. -/
def flipPassed (e : Engine α) (flips : List Nat) : Engine α :=
  if flips.isEmpty then e
  else
    let (e, v) := flips.foldl (flipInto t) (e, t.zeroRow)
    let (e, change) := e.ftran v
    e.lowerBasicValues change.entries

/-- The bound that the leaving variable violates. -/
def target (e : Engine α) (x : Exchange α) : α :=
  let b := e.boundsOf x.leaving
  (if 0 < x.direction then b.upper else b.lower).value

/-- Let the entering variable take the step that brings the leaving one to its
bound. -/
def movePrimal (e : Engine α) (x : Exchange α) : Engine α :=
  let target := e.target x
  let theta := (e.valueOf x.leaving - target) / x.pivot
  let e := e.lowerBasicValues (x.column.entries.map fun (p, a) => (p, theta * a))
  { e with value := (e.value.modify x.entering (· + theta)).setIfInBounds x.leaving target }

/-- Where the leaving variable stands afterwards. -/
def leavingStatus (e : Engine α) (x : Exchange α) : VariableStatus :=
  if (e.boundsOf x.leaving).isPoint then .fixed
  else if 0 < x.direction then .atUpper else .atLower

/-- Put the entering variable into the basis. -/
def exchange (e : Engine α) (x : Exchange α) : Engine α :=
  let leavingStatus := e.leavingStatus x
  let e := { e with basicIndex := e.basicIndex.setIfInBounds x.position x.entering }
  (e.setStatus x.entering .basic).setStatus x.leaving leavingStatus

/-- Count a basis change. -/
def countPivot (e : Engine α) (flips : Nat) : Engine α :=
  { e with
    recoveries := 0
    statistics := { e.statistics with
      iterations := e.statistics.iterations + 1
      phaseOneIterations :=
        e.statistics.phaseOneIterations + (if e.phase = .one then 1 else 0)
      boundFlips := e.statistics.boundFlips + flips } }

/-- The product of the basis inverse with the pivot row, if the weights need
it. -/
def tau? (e : Engine α) (rho : SparseVector α) : Engine α × Option (SparseVector α) :=
  if e.weights.areNorms then
    let (e, tau) := e.ftran (t.zeroRow.assign rho)
    (e, some tau)
  else (e, none)

/-- Change everything but the factors. -/
def applyExchange (e : Engine α) (x : Exchange α) : Engine α × WeightQuality :=
  let (e, tau) := e.tau? t x.row.rho
  let e := ((e.moveDuals t x).flipPassed t x.flips).movePrimal x
  let (weights, quality) := e.weights.update x.position x.column tau
  ((({ e with weights := weights }).exchange x).countPivot x.flips.length, quality)

/-- Bring the factors up to date, or factor the new basis if that fails. -/
def updateFactor (e : Engine α) (x : Exchange α) (quality : WeightQuality) : Progress α :=
  match e.factor.update x.position x.pivot with
  | .ok factor =>
    let e := { e with factor := factor }
    .going (if quality = .excessive then e.weighRows t else e)
  | .error _ => { e.note .updateSingular with factorValid := false }.renewAndSettle t

/-- Record the objective value if it is wanted. -/
def traceObjective (e : Engine α) : Engine α :=
  if t.parameters.traceObjective then
    { e with statistics := { e.statistics with
        objectiveTrace := e.statistics.objectiveTrace ++ [e.currentObjective] } }
  else e

/-- Look out for cycling. -/
def watchCycle (e : Engine α) (entering : Nat) : Progress α :=
  let (history, suspected) := e.history.record entering
  let e := { e with history := history }
  if suspected then e.leaveCycle t else .going e

/-- Make a basis change. -/
def performExchange (e : Engine α) (x : Exchange α) : Progress α :=
  let (e, quality) := e.applyExchange t x
  ((e.updateFactor t x quality).map fun e => e.traceObjective t).andThen fun e =>
    e.watchCycle t x.entering

/-- Whether a pivot element is too small. -/
def isTooSmall (pivot : α) : Bool :=
  magnitude pivot < t.parameters.pivotTolerance

/-- Whether the pivot element cannot be relied on. -/
def isDoubtful (x : Exchange α) : Bool :=
  isTooSmall t x.pivot ||
    (Bound.discrepancy x.pivot (x.row.entry t x.entering)).exceeds elementAgreement

/-- Count a recovery, unless there have been too many. -/
def countRecovery (e : Engine α) : Progress α :=
  let e := { e with recoveries := e.recoveries + 1 }
  if maxRecoveries < e.recoveries then .stopped e .numericalError else .going e

/-- Make a basis change if its pivot element can be relied on.  Otherwise factor
anew, and if that cannot help relax the violated bound, so that another row is
chosen. -/
def tryExchange (e : Engine α) (x : Exchange α) : Progress α :=
  if isDoubtful t x then
    let e := e.note .pivotMismatch
    if 0 < e.factor.updateCount then e.renewAndSettle t
    else if isTooSmall t x.pivot then e.countRecovery.map fun e => e.relaxBound x.leaving
    else e.performExchange t x
  else e.performExchange t x

/-- Whether another basis change would exceed the limit. -/
def atIterationLimit (e : Engine α) : Bool :=
  match t.parameters.iterationLimit with
  | some limit => limit ≤ e.statistics.iterations
  | none => false

/-- An iteration in which the variable at `position`, with the violation
`delta`, leaves. -/
def iterateAt (e : Engine α) (position : Nat) (delta : α) : Step α :=
  let direction := sign delta
  let (e, rho) := e.inverseRow t position
  let (e, row) := e.price t rho
  let (test, result) := (e.ratioTest t row direction).run (magnitude delta)
    t.parameters.dualTolerance t.parameters.primalTolerance
  match result with
  | .unbounded => .unbounded e (rho.values.map (direction * ·))
  | .entering entering _ step =>
    if e.atIterationLimit t then .stopped e .iterationLimit
    else
      let leaving := e.basicAt position
      let (e, column) := e.ftranEntering t entering
      (e.tryExchange t {
        position := position
        leaving := leaving
        direction := direction
        entering := entering
        step := step
        flips := test.flips
        row := row
        column := column }).toStep

/-- An iteration. -/
def iterate (e : Engine α) : Step α :=
  let infeasibilities := e.infeasibilities t
  match e.weights.choosePosition infeasibilities e.basicIndex with
  | none => .solved e
  | some position => e.iterateAt t position (infeasibilities.getD position 0)

/-- The status with which a solve has to stop at an iteration boundary. -/
def limitReached? : Option SolveStatus :=
  if t.parameters.interrupt then some .userInterrupt
  else if t.parameters.timeLimit = some 0 then some .timeLimit
  else none

/-- Start over from the basis if the factors are due for it. -/
def renewIfDue (e : Engine α) : Progress α :=
  match e.factor.renewalReason? with
  | some _ => e.renewAndSettle t
  | none => .going e

/-- What happens from one iteration boundary to the next. -/
def advance (e : Engine α) : Step α :=
  match limitReached? t with
  | some status => .stopped e status
  | none =>
    match e.renewIfDue t with
    | .going e => e.iterate t
    | .stopped e status => .stopped e status

end Engine
end DualSimplex
