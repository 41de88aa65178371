import DualSimplex.Proofs.Engine.Frame

/-!
# The steps of a run

A step of a run is an iteration and the answer to it, or it leads from one stage to another.
The cases are told apart here once, so that what a run keeps is proved case by case, without
a look at how a step is computed.
-/

namespace DualSimplex

variable {α : Type}

/-! ## Ways to the next stage -/

namespace Engine

variable [Scalar α]

/-- What a review finds, as an engine. -/
def Review.engine : Review α → Engine α
  | .optimal e => e
  | .primalInfeasible e => e
  | .dualInfeasible e => e
  | .failed e => e

/-- The variables that a review moves to their other bound. -/
def wronglyResting (t : Job α) (e : Engine α) : List Nat :=
  (e.dualInfeasible t).filter e.hasTwoBounds

/-- The engine that a review looks at, whatever it finds. -/
def reviewed (t : Job α) (e : Engine α) : Engine α :=
  let e := (e.withoutRelaxations t).solveDuals t
  let e' := (e.wronglyResting t).foldl Engine.flip e
  if (e.wronglyResting t).isEmpty then e' else e'.solveValues t

/-- Whether a variable that cannot move to another bound has a reduced cost of the
wrong sign. -/
def isPulled (t : Job α) (e : Engine α) : Bool :=
  (e.dualInfeasible t).any fun j => !e.hasTwoBounds j

theorem review_eq {t : Job α} (e : Engine α) (isLast : Bool) : e.review t isLast =
    let pulled := ((e.withoutRelaxations t).solveDuals t).isPulled t
    if !pulled && !(((e.reviewed t).infeasibilities t).any fun x => !(x == 0)) then
      .optimal (e.reviewed t)
    else if isLast then
      (if (e.reviewed t).isAcceptable t then .optimal (e.reviewed t) else .failed (e.reviewed t))
    else if pulled then .dualInfeasible (e.reviewed t)
    else .primalInfeasible (e.reviewed t) := rfl

theorem engine_review {t : Job α} (e : Engine α) (isLast : Bool) :
    (e.review t isLast).engine = e.reviewed t := by
  rw [review_eq]
  dsimp only
  split
  · rfl
  · split
    · split
      · rfl
      · rfl
    · split
      · rfl
      · rfl

/-- The stage that a run goes to after a review. -/
def Review.stage : Review α → Stage
  | .optimal _ => .done .optimal
  | .primalInfeasible _ => .enterMain
  | .dualInfeasible _ => .enterAuxiliary
  | .failed _ => .done .numericalError

theorem review_of_stage {t : Job α} {e : Engine α} {isLast : Bool}
    (h : (e.review t isLast).stage = .done .optimal) :
    e.review t isLast = .optimal (e.reviewed t) := by
  rw [← engine_review e isLast]
  generalize e.review t isLast = found at h ⊢
  cases found with
  | optimal e' => rfl
  | primalInfeasible e' => exact absurd h nofun
  | dualInfeasible e' => exact absurd h nofun
  | failed e' => exact absurd (Stage.done.inj h) nofun

/-- How phase one ends, as an engine. -/
def PhaseOneEnd.engine : PhaseOneEnd α → Engine α
  | .dualFeasible e => e
  | .ray e => e

/-- The stage that a run goes to after phase one. -/
def PhaseOneEnd.stage : PhaseOneEnd α → Stage
  | .dualFeasible _ => .enterMain
  | .ray _ => .enterFeasibility

omit [Scalar α] in
theorem PhaseOneEnd.stage_ne_done (phaseEnd : PhaseOneEnd α) (status : SolveStatus) :
    phaseEnd.stage ≠ .done status := by
  cases phaseEnd with
  | dualFeasible e => exact nofun
  | ray e => exact nofun

end Engine

/-! ## Moves -/

/-- The stages in which a run iterates. -/
def Stage.Iterates (s : Stage) : Prop :=
  s = .auxiliary ∨ s = .main ∨ s = .feasibility

theorem Stage.Iterates.ne_done {s : Stage} (h : s.Iterates) (status : SolveStatus) :
    s ≠ .done status := by
  rcases h with rfl | rfl | rfl
  · exact nofun
  · exact nofun
  · exact nofun

/-- Where a run goes on when a ray has been rejected. -/
def Stage.onward : Stage → Stage
  | .main => .enterMain
  | stage => stage

theorem Stage.Iterates.onward_ne_done {s : Stage} (h : s.Iterates) (status : SolveStatus) :
    s.onward ≠ .done status := by
  rcases h with rfl | rfl | rfl
  · exact nofun
  · exact nofun
  · exact nofun

namespace Run

variable [Scalar α] {t : Job α} {r : Run α}

/-- What a run makes of an iteration, by what has come of it. -/
inductive Answers (t : Job α) (r : Run α) : Step α → Run α → Prop
  | next {e : Engine α} : Answers t r (.next e) (r.goTo e r.stage)
  | stopped {e : Engine α} {status : SolveStatus} :
      Answers t r (.stopped e status) (r.goTo e (.done status))
  | reject {e : Engine α} {ray : Array α} :
      Answers t r (.unbounded e ray) (r.proceed (e.rejectRay t) r.stage.onward)
  | accept (hstage : r.stage = .main) {e : Engine α} {ray : Array α}
      (hray : isDualRay t.program ray = true) :
      Answers t r (.unbounded e ray)
        (r.goTo { e with dualRay := some ray } (.done .primalInfeasible))
  /-- The direction for which a feasible point was looked for proves nothing then. -/
  | acceptInstead (hstage : r.stage = .feasibility) {e : Engine α} {ray : Array α}
      (hray : isDualRay t.program ray = true) :
      Answers t r (.unbounded e ray)
        (r.goTo { e with dualRay := some ray, primalRay := none } (.done .primalInfeasible))
  | leave (hstage : r.stage = .auxiliary) {e : Engine α} :
      Answers t r (.solved e) (r.goTo (e.leaveAuxiliary t).engine (e.leaveAuxiliary t).stage)
  | toReview (hstage : r.stage = .main) {e : Engine α} : Answers t r (.solved e) (r.goTo e .review)
  | undo (hstage : r.stage = .feasibility) {e e' : Engine α} (hundo : e.undoRelaxations? = some e') :
      Answers t r (.solved e) (r.goTo (e'.solveValues t) .feasibility)
  | feasible (hstage : r.stage = .feasibility) {e : Engine α} (hundo : e.undoRelaxations? = none) :
      Answers t r (.solved e) (r.goTo e (.done .dualInfeasible))

/-- What a step of a run can be. -/
inductive Moves (t : Job α) (r : Run α) : Run α → Prop
  | stay {status : SolveStatus} (hstage : r.stage = .done status) : Moves t r r
  | needsPhaseOne (hstage : r.stage = .start) : Moves t r (r.goTo r.engine .enterAuxiliary)
  | settle (hstage : r.stage = .start) :
      Moves t r (r.goTo (r.engine.settleReducedCosts t) .enterMain)
  | enterAuxiliary (hstage : r.stage = .enterAuxiliary) :
      Moves t r (r.goTo (r.engine.enterAuxiliary t) .auxiliary)
  | perturb (hstage : r.stage = .enterMain) : Moves t r (r.goTo (r.engine.perturbAll t) .main)
  | enterMain (hstage : r.stage = .enterMain) : Moves t r (r.goTo r.engine .main)
  | enterFeasibility (hstage : r.stage = .enterFeasibility) :
      Moves t r (r.goTo (r.engine.dropCosts t) .feasibility)
  | review (hstage : r.stage = .review) :
      Moves t r ({ r with reviews := r.reviews + 1 }.goTo (r.engine.reviewed t)
        (r.engine.review t (maxReviews < r.reviews + 1)).stage)
  | iterate (hstage : r.stage.Iterates) {r' : Run α}
      (hanswers : r.Answers t (r.engine.advance t) r') : Moves t r r'

theorem answers_stepAuxiliary (hstage : r.stage = .auxiliary) :
    r.Answers t (r.engine.advance t) (r.stepAuxiliary t) := by
  unfold stepAuxiliary
  cases r.engine.advance t with
  | next e => exact hstage ▸ Answers.next
  | solved e =>
    have hleave := Answers.leave (t := t) hstage (e := e)
    dsimp only
    generalize e.leaveAuxiliary t = phaseEnd at hleave ⊢
    cases phaseEnd with
    | dualFeasible e' => exact hleave
    | ray e' => exact hleave
  | unbounded e ray =>
    have hreject : r.Answers t (.unbounded e ray) _ := .reject
    rw [hstage] at hreject
    exact hreject
  | stopped e status => exact .stopped

theorem answers_stepMain (hstage : r.stage = .main) :
    r.Answers t (r.engine.advance t) (r.stepMain t) := by
  unfold stepMain
  cases r.engine.advance t with
  | next e => exact hstage ▸ Answers.next
  | solved e => exact .toReview hstage
  | unbounded e ray =>
    dsimp only
    split
    · rename_i e' haccept
      obtain ⟨hray, rfl⟩ := Engine.of_acceptRay haccept
      exact .accept hstage hray
    · have hreject : r.Answers t (.unbounded e ray) _ := .reject
      rw [hstage] at hreject
      exact hreject
  | stopped e status => exact .stopped

theorem answers_stepFeasibility (hstage : r.stage = .feasibility) :
    r.Answers t (r.engine.advance t) (r.stepFeasibility t) := by
  unfold stepFeasibility
  cases r.engine.advance t with
  | next e => exact hstage ▸ Answers.next
  | solved e =>
    dsimp only
    split
    · rename_i e' hundo
      exact .undo hstage hundo
    · rename_i hundo
      exact .feasible hstage hundo
  | unbounded e ray =>
    dsimp only
    split
    · rename_i e' haccept
      obtain ⟨hray, rfl⟩ := Engine.of_acceptRay haccept
      exact .acceptInstead hstage hray
    · have hreject : r.Answers t (.unbounded e ray) _ := .reject
      rw [hstage] at hreject
      exact hreject
  | stopped e status => exact .stopped

/-- In a stage that iterates a step is an iteration and the answer to it. -/
theorem answers_step (hstage : r.stage.Iterates) :
    r.Answers t (r.engine.advance t) (r.step t) := by
  unfold step
  rcases hstage with hstage | hstage | hstage
  · have hanswers := answers_stepAuxiliary (t := t) hstage
    rw [hstage]
    exact hanswers
  · have hanswers := answers_stepMain (t := t) hstage
    rw [hstage]
    exact hanswers
  · have hanswers := answers_stepFeasibility (t := t) hstage
    rw [hstage]
    exact hanswers

theorem moves_stepStart (hstage : r.stage = .start) : r.Moves t (r.stepStart t) := by
  unfold stepStart
  split
  · exact .needsPhaseOne hstage
  · exact .settle hstage

theorem moves_stepEnterMain (hstage : r.stage = .enterMain) : r.Moves t (r.stepEnterMain t) := by
  unfold stepEnterMain
  dsimp only
  split
  · exact .perturb hstage
  · exact .enterMain hstage

theorem moves_stepReview (hstage : r.stage = .review) : r.Moves t (r.stepReview t) := by
  have hreview := Moves.review (t := t) hstage
  rw [← Engine.engine_review _ (maxReviews < r.reviews + 1)] at hreview
  unfold stepReview
  dsimp only
  generalize r.engine.review t _ = found at hreview ⊢
  cases found with
  | optimal e => exact hreview
  | primalInfeasible e => exact hreview
  | dualInfeasible e => exact hreview
  | failed e => exact hreview

theorem step_of_done {status : SolveStatus} (hdone : r.stage = .done status) : r.step t = r := by
  unfold step
  rw [hdone]

theorem moves_step (t : Job α) (r : Run α) : r.Moves t (r.step t) := by
  by_cases hiterates : r.stage.Iterates
  · exact .iterate hiterates (answers_step hiterates)
  · unfold step
    cases hstage : r.stage with
    | start => exact moves_stepStart hstage
    | enterAuxiliary => exact .enterAuxiliary hstage
    | enterMain => exact moves_stepEnterMain hstage
    | review => exact moves_stepReview hstage
    | enterFeasibility => exact .enterFeasibility hstage
    | done status => exact .stay hstage
    | auxiliary => exact absurd (Or.inl hstage) hiterates
    | main => exact absurd (Or.inr (Or.inl hstage)) hiterates
    | feasibility => exact absurd (Or.inr (Or.inr hstage)) hiterates

end Run
end DualSimplex
