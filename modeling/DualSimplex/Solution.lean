import DualSimplex.Basis
import DualSimplex.Report

/-!
# Solutions

How a solve ended, and the point it ended at.
-/

namespace DualSimplex

inductive SolveStatus
  /-- The basis is primal and dual feasible. -/
  | optimal
  /-- A combination of rows shows that the bounds contradict each other. -/
  | primalInfeasible
  /-- There is a feasible point, and a direction that improves the objective
  from it for ever. -/
  | dualInfeasible
  | iterationLimit
  | timeLimit
  /-- The caller asked to stop. -/
  | userInterrupt
  /-- No way of recovering was left. -/
  | numericalError
  | outOfMemory
  deriving DecidableEq

namespace SolveStatus

def all : List SolveStatus :=
  [optimal, primalInfeasible, dualInfeasible, iterationLimit, timeLimit, userInterrupt,
    numericalError, outOfMemory]

def text : SolveStatus → String
  | optimal => "optimal"
  | primalInfeasible => "primal infeasible"
  | dualInfeasible => "dual infeasible"
  | iterationLimit => "iteration limit"
  | timeLimit => "time limit"
  | userInterrupt => "user interrupt"
  | numericalError => "numerical error"
  | outOfMemory => "out of memory"

end SolveStatus

/-- The final iterate of a solve.  Only an `optimal` point is promised to be
feasible. -/
structure Solution (α : Type) where
  status : SolveStatus
  objective : α
  columnValues : Array α
  /-- The row activities. -/
  rowValues : Array α
  /-- The reduced costs of the columns. -/
  columnDuals : Array α
  /-- Multipliers of the rows, such that the column duals are the costs less
  the multipliers times the matrix. -/
  rowDuals : Array α
  basis : Basis
  /-- By basis position, the number of the variable there.  Logical variables
  are numbered behind the columns, in the order of their rows. -/
  basicIndex : Array Nat
  dualRay : Option (Array α)
  primalRay : Option (Array α)
  primalInfeasibilities : Infeasibilities α
  dualInfeasibilities : Infeasibilities α
  statistics : Statistics α

end DualSimplex
