import DualSimplex.Engine.Run

/-!
# Solving

The entry points: solve a linear program from a basis, or from the slack basis.
Input that is out of range is refused before a solve starts.

Nothing bounds the length of a solve in advance, so it is given a budget of
steps.  A result does not depend on the budget; there is none if the budget was
too small.
-/

namespace DualSimplex

/-- Why a solve did not start. -/
inductive SolveError (α : Type)
  | input (e : InputError α)
  | parameter (e : ParameterError α)

variable {α : Type} [Scalar α]

/-- Solve a program from a basis. -/
def solveWithBasis (budget : Nat) (lp : LinearProgram α) (basis : Basis)
    (parameters : Parameters α) : Except (SolveError α) (Option (Solution α)) :=
  match parameters.validate with
  | .error e => .error (.parameter e)
  | .ok _ =>
    match basis.validate lp with
    | .error e => .error (.input e)
    | .ok _ =>
      let t : Job α := { program := lp, parameters := parameters }
      .ok (((Run.begin t basis).outcome? t budget).map fun (status, e) =>
        (e.conclude t).solution t status)

/-- Solve a program from the slack basis. -/
def solve (budget : Nat) (lp : LinearProgram α) (parameters : Parameters α) :
    Except (SolveError α) (Option (Solution α)) :=
  solveWithBasis budget lp (Basis.slack lp) parameters

end DualSimplex
