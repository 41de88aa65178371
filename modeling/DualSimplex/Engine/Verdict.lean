import DualSimplex.Engine.Recession

/-!
# Verdicts

At the end perturbations and relaxations are taken back, and the result is
looked at again on the program as it was given.
-/

namespace DualSimplex

open Scalar

namespace Engine

variable {α : Type} [Scalar α] (t : Job α)

/-- How many times the tolerance a reduced cost of the wrong sign may be at the
start and still be removed by adjusting its cost. -/
def adjustableFactor : α := 100.0

/-- How many times the tolerance an infeasibility may be in the last review. -/
def acceptanceFactor : α := 10.0

/-- The violations of the bounds of the program. -/
def primalInfeasibilities (e : Engine α) : Infeasibilities α :=
  let bounds := t.bounds
  t.indices.foldl (fun s j =>
    let b := bounds.getD j { lower := .negInf, upper := .posInf }
    s.register (b.distance (e.valueOf j)) t.parameters.primalTolerance) Infeasibilities.none

/-- The reduced costs of the wrong sign. -/
def dualInfeasibilities (e : Engine α) : Infeasibilities α :=
  t.indices.foldl (fun s j =>
    s.register (e.dualInfeasibility j) t.parameters.dualTolerance) Infeasibilities.none

/-- Factor the basis of the start. -/
def prepare (e : Engine α) : Progress α :=
  (e.renew t).map fun e =>
    if e.weights.areNorms && e.basicIndex.any fun j => j < t.columnCount then
      e.weighRows t
    else e

/-- Whether phase one is needed: a variable that cannot move to another bound
has a reduced cost that is plainly of the wrong sign. -/
def needsPhaseOne (e : Engine α) : Bool :=
  let limit := adjustableFactor * t.parameters.dualTolerance
  t.indices.any fun j => !e.hasTwoBounds j && limit < e.dualInfeasibility j

/-- What is found when perturbations and relaxations have been taken back. -/
inductive Review (α : Type)
  | optimal (e : Engine α)
  | primalInfeasible (e : Engine α)
  | dualInfeasible (e : Engine α)
  | failed (e : Engine α)

/-- Take relaxations back and bring the basic values up to date. -/
def withoutRelaxations (e : Engine α) : Engine α :=
  match e.undoRelaxations? with
  | some e => (resetCosts t e).solveValues t
  | none => resetCosts t e

/-- Whether the infeasibilities are small enough to end with. -/
def isAcceptable (e : Engine α) : Bool :=
  (e.primalInfeasibilities t).max ≤ acceptanceFactor * t.parameters.primalTolerance
    && (e.dualInfeasibilities t).max ≤ acceptanceFactor * t.parameters.dualTolerance

/-- Take perturbations and relaxations back, and move variables with two bounds
and a reduced cost of the wrong sign to their other bound.  The last review
accepts a result that is slightly infeasible. -/
def review (e : Engine α) (isLast : Bool) : Review α :=
  let e := (e.withoutRelaxations t).solveDuals t
  let wrong := e.dualInfeasible t
  let flips := wrong.filter e.hasTwoBounds
  let dualInfeasible := wrong.any fun j => !e.hasTwoBounds j
  let e := flips.foldl flip e
  let e := if flips.isEmpty then e else e.solveValues t
  let primalInfeasible := (e.infeasibilities t).any fun x => !(x == 0)
  if !dualInfeasible && !primalInfeasible then .optimal e
  else if isLast then (if e.isAcceptable t then .optimal e else .failed e)
  else if dualInfeasible then .dualInfeasible e
  else .primalInfeasible e

/-- Set all costs to zero, for which every basis is dual feasible. -/
def dropCosts (e : Engine α) : Engine α :=
  { e with cost := e.cost.map fun _ => 0 }.solveDuals t

/-- Compute the basic values anew if the factors allow it. -/
def refreshValues (e : Engine α) : Engine α :=
  if e.factorValid then e.solveValues t else e

/-- Bring the engine back to the program as it was given. -/
def conclude (e : Engine α) : Engine α :=
  let e := if e.phase = .one then (e.restoreBounds t).refreshValues t else e
  let e :=
    match e.undoRelaxations? with
    | some e => e.refreshValues t
    | none => e
  let e := resetCosts t e
  if e.factorValid then e.solveDuals t else e

/-- The result of a solve that has ended with a status. -/
def solution (e : Engine α) (status : SolveStatus) : Solution α :=
  let n := t.columnCount
  let columnValues := e.value.take n
  { status := status
    objective := t.program.objective columnValues
    columnValues := columnValues
    rowValues := (e.value.drop n).map (- ·)
    columnDuals := (e.reducedCost.take n).map t.program.sense.orient
    rowDuals := e.multipliers.map t.program.sense.orient
    basis := {
      columns := e.status.take n
      rows := (e.status.drop n).map VariableStatus.opposite }
    basicIndex := e.basicIndex
    dualRay := e.dualRay
    primalRay := e.primalRay
    primalInfeasibilities := e.primalInfeasibilities t
    dualInfeasibilities := e.dualInfeasibilities t
    statistics := e.statistics }

end Engine
end DualSimplex
