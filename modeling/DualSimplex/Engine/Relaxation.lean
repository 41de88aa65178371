import DualSimplex.Engine.Repair

/-!
# Perturbed costs and relaxed bounds

Two small changes of the program help a solve along.  Costs are perturbed so that
no two reduced costs vanish at once, each by a random amount that makes its
variable rest all the better.  A bound that a basic variable violates by little
is relaxed to the value of the variable, which so becomes feasible.  No result
is reported before the costs and bounds of the program are back.
-/

namespace DualSimplex

open Scalar

namespace Engine

variable {α : Type} [Scalar α] (t : Job α)

/-- The least relative perturbation of a cost. -/
def leastPerturbation : α := 5e-8

/-- How many times the tolerance an infeasibility may be that a relaxed bound
removes. -/
def relaxationFactor : α := 1e3

/-- The direction in which a reduced cost may move for ever. -/
def perturbationDirection? : VariableStatus → Option α
  | .atLower => some 1
  | .atUpper => some (-1)
  | _ => none

/-- Perturb the cost of a variable at a bound by between one and two times a
small share of one more than its magnitude. -/
def perturb (e : Engine α) (j : Nat) : Engine α :=
  match (perturbationDirection? (e.statusOf j) : Option α) with
  | none => e
  | some direction =>
    let (u, random) : α × Random := e.random.fraction
    let change := direction * leastPerturbation * (1 + u) * (1 + magnitude (e.costOf j))
    { e with
      random := random
      cost := e.cost.modify j (· + change)
      reducedCost := e.reducedCost.modify j (· + change) }

/-- Perturb the costs of all variables at a bound. -/
def perturbAll (e : Engine α) : Engine α :=
  { t.indices.foldl perturb e with perturbed := true }

/-- Take back all changes of costs. -/
def resetCosts (e : Engine α) : Engine α :=
  { e with cost := t.costs }

/-- Relax the bound that a basic variable violates to its value. -/
def relaxBound (e : Engine α) (j : Nat) : Engine α :=
  let x := e.valueOf j
  let b := e.boundsOf j
  let keep : Engine α := { e with relaxed := (j, b) :: e.relaxed }
  if b.lower.exceeds x then keep.setBounds j { b with lower := .finite x }
  else if b.upper.isBelow x then keep.setBounds j { b with upper := .finite x }
  else e

/-- Give a variable the bounds `b` back, and move it to one of them if it
rests. -/
def undoRelaxation (e : Engine α) (j : Nat) (b : Interval α) : Engine α :=
  let e := e.setBounds j b
  if e.isBasic j then e else e.restAgain j

/-- Take all relaxations back, the latest first.  There is no result if there
are none.  The basic values are not brought up to date. -/
def undoRelaxations? (e : Engine α) : Option (Engine α) :=
  if e.relaxed.isEmpty then none
  else some { e.relaxed.foldl (fun e (j, b) => e.undoRelaxation j b) e with relaxed := [] }

/-- The basic variables that are infeasible, but not by much. -/
def slightlyInfeasible (e : Engine α) : List Nat :=
  let limit := relaxationFactor * t.parameters.primalTolerance
  let small := (e.infeasibilities t).toList.zipIdx.filter fun (x, _) =>
    !(x == 0) && magnitude x ≤ limit
  small.map fun (_, position) => e.basicAt position

/-- Do something about a variable that enters the basis too often: perturb the
costs, or if that has been done relax bounds. -/
def leaveCycle (e : Engine α) : Progress α :=
  ((e.note .cycleDetected).renewAndSettle t).map fun e =>
    if t.parameters.perturbation && !e.perturbed && e.phase = .two then e.perturbAll t
    else (e.slightlyInfeasible t).foldl relaxBound e

end Engine
end DualSimplex
