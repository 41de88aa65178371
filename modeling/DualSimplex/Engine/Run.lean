import DualSimplex.Engine.Verdict

/-!
# Runs

A solve goes through stages.  It tries to make the first basis dual feasible,
in phase one if need be, and then iterates in phase two until the basis is
primal feasible.  Perturbations and relaxations are taken back, and if that
leaves something to do it goes back.  A primal ray found in phase one proves the
program unbounded only if it is feasible, which is checked with all costs zero.

A run is a machine with one step from each iteration boundary to the next.
-/

namespace DualSimplex

inductive Stage
  | start
  /-- About to iterate in the auxiliary problem, and iterating in it. -/
  | enterAuxiliary
  | auxiliary
  /-- About to iterate in phase two, and iterating in it. -/
  | enterMain
  | main
  | review
  /-- About to look for a feasible point, and looking for it. -/
  | enterFeasibility
  | feasibility
  | done (status : SolveStatus)
  deriving DecidableEq

structure Run (α : Type) where
  engine : Engine α
  stage : Stage
  reviews : Nat

namespace Run

variable {α : Type} [Scalar α] (t : Job α)

/-- Reviews before one that accepts a result that is slightly infeasible. -/
def maxReviews : Nat := 4

def goTo (r : Run α) (e : Engine α) (stage : Stage) : Run α :=
  { r with engine := e, stage := stage }

/-- Go to a stage unless the engine had to give up. -/
def proceed (r : Run α) (p : Progress α) (stage : Stage) : Run α :=
  match p with
  | .going e => r.goTo e stage
  | .stopped e status => r.goTo e (.done status)

/-- The run at the start of a solve. -/
def begin (basis : Basis) : Run α :=
  let e := Engine.start t basis
  proceed { engine := e, stage := .start, reviews := 0 } (e.prepare t) .start

def stepStart (r : Run α) : Run α :=
  if r.engine.needsPhaseOne t then r.goTo r.engine .enterAuxiliary
  else r.goTo (r.engine.settleReducedCosts t) .enterMain

/-- The auxiliary problem is feasible, so a dual ray of it proves nothing. -/
def stepAuxiliary (r : Run α) : Run α :=
  match r.engine.advance t with
  | .next e => r.goTo e .auxiliary
  | .solved e =>
    match e.leaveAuxiliary t with
    | .dualFeasible e => r.goTo e .enterMain
    | .ray e => r.goTo e .enterFeasibility
  | .unbounded e _ => r.proceed (e.rejectRay t) .auxiliary
  | .stopped e status => r.goTo e (.done status)

def stepEnterMain (r : Run α) : Run α :=
  let e := r.engine
  if t.parameters.perturbation && !e.perturbed then r.goTo (e.perturbAll t) .main
  else r.goTo e .main

def stepMain (r : Run α) : Run α :=
  match r.engine.advance t with
  | .next e => r.goTo e .main
  | .solved e => r.goTo e .review
  | .unbounded e ray =>
    match e.acceptRay? t ray with
    | some e => r.goTo e (.done .primalInfeasible)
    | none => r.proceed (e.rejectRay t) .enterMain
  | .stopped e status => r.goTo e (.done status)

def stepReview (r : Run α) : Run α :=
  let r := { r with reviews := r.reviews + 1 }
  match r.engine.review t (maxReviews < r.reviews) with
  | .optimal e => r.goTo e (.done .optimal)
  | .primalInfeasible e => r.goTo e .enterMain
  | .dualInfeasible e => r.goTo e .enterAuxiliary
  | .failed e => r.goTo e (.done .numericalError)

def stepFeasibility (r : Run α) : Run α :=
  match r.engine.advance t with
  | .next e => r.goTo e .feasibility
  | .solved e =>
    match e.undoRelaxations? with
    | some e => r.goTo (e.solveValues t) .feasibility
    | none => r.goTo e (.done .dualInfeasible)
  | .unbounded e ray =>
    match e.acceptRay? t ray with
    | some e => r.goTo { e with primalRay := none } (.done .primalInfeasible)
    | none => r.proceed (e.rejectRay t) .feasibility
  | .stopped e status => r.goTo e (.done status)

/-- The step to the next boundary.  A run that is done stays as it is. -/
def step (r : Run α) : Run α :=
  match r.stage with
  | .start => r.stepStart t
  | .enterAuxiliary => r.goTo (r.engine.enterAuxiliary t) .auxiliary
  | .auxiliary => r.stepAuxiliary t
  | .enterMain => r.stepEnterMain t
  | .main => r.stepMain t
  | .review => r.stepReview t
  | .enterFeasibility => r.goTo (r.engine.dropCosts t) .feasibility
  | .feasibility => r.stepFeasibility t
  | .done _ => r

/-- The status and the engine at the end of a run, if it ends within that many
steps. -/
def outcome? : Nat → Run α → Option (SolveStatus × Engine α)
  | budget, r =>
    match r.stage with
    | .done status => some (status, r.engine)
    | _ =>
      match budget with
      | 0 => none
      | budget + 1 => outcome? budget (r.step t)

/-- More steps do not change an outcome. -/
theorem outcome?_add {budget : Nat} {r : Run α} {x : SolveStatus × Engine α}
    (h : outcome? t budget r = some x) (more : Nat) : outcome? t (budget + more) r = some x := by
  induction budget generalizing r with
  | zero =>
    unfold outcome? at h ⊢
    split at h
    · exact h
    · exact absurd h (Option.some_ne_none x).symm
  | succ budget ih =>
    unfold outcome? at h ⊢
    split at h
    · exact h
    · rw [Nat.add_right_comm]
      exact ih h

end Run
end DualSimplex
