import DualSimplex.Proofs.Engine.Held
import DualSimplex.Proofs.Engine.Pivoting

/-!
# What the steps of an engine record

A basis change is counted, and the objective value after it is recorded if that is wanted.
Nothing else touches these records.  A run touches them at an iteration boundary only.
-/

namespace DualSimplex

open Scalar

variable {α : Type} [Scalar α]

namespace Engine

variable {t : Job α} {e e' : Engine α}

/-- The number of basis changes, and the objective values that were recorded after them. -/
def records (e : Engine α) : Nat × List α :=
  (e.statistics.iterations, e.statistics.objectiveTrace)

/-! ## Steps that leave the records alone -/

omit [Scalar α] in
theorem records_of_held (h : e'.held = e.held) : e'.records = e.records :=
  congrArg (fun s => (s.iterations, s.objectiveTrace)) h

theorem records_weighRows (e : Engine α) : (e.weighRows t).records = e.records :=
  weighRows_keeps records (fun _ _ => rfl) (fun _ _ => rfl) e

theorem records_renew (e : Engine α) : (e.renew t).engine.records = e.records := by
  have hends := factorBasis_keeps (t := t) records (fun _ _ => rfl) (fun _ _ => rfl)
    (fun e pairs => congrArg (fun s => (s.iterations, s.objectiveTrace))
      (statistics_admitLogicals e pairs)) (fun _ _ => rfl) maxAttempts false e
  unfold Engine.renew
  generalize Engine.factorBasis t maxAttempts false e = factored at hends ⊢
  cases factored with
  | failed e' => exact hends
  | done e' repaired =>
    have hsolved : (({ e' with factorValid := true }.solveValues t).solveDuals t
        |>.recordResiduals t).records = e.records :=
      (records_of_held (held_solveValues _)).trans hends
    show (if _ then _ else _ : Engine α).records = _
    split
    · unfold Engine.renewWeights
      split
      · exact (records_weighRows _).trans hsolved
      · exact hsolved
    · exact hsolved

end Engine

open Engine

omit [Scalar α] in
theorem Progress.records_andThen {p : Progress α} {f : Engine α → Progress α}
    (hf : ∀ e, (f e).engine.records = e.records) :
    (p.andThen f).engine.records = p.engine.records := by
  cases p with
  | going e => exact hf e
  | stopped e status => rfl

omit [Scalar α] in
theorem Progress.records_map {p : Progress α} {f : Engine α → Engine α}
    (hf : ∀ e, (f e).records = e.records) : (p.map f).engine.records = p.engine.records :=
  Progress.records_andThen hf

namespace Engine

variable {t : Job α} {e e' : Engine α} {x : Exchange α}

theorem records_renewAndSettle (e : Engine α) :
    (e.renewAndSettle t).engine.records = e.records :=
  (Progress.records_map fun _ => records_of_held (held_settleReducedCosts _)).trans
    (records_renew e)

/-- A renewal gives up for one reason. -/
theorem status_of_renewAndSettle {status : SolveStatus}
    (h : e.renewAndSettle t = .stopped e' status) : status = .numericalError := by
  unfold Engine.renewAndSettle Engine.renew at h
  generalize Engine.factorBasis t maxAttempts false e = factored at h
  cases factored with
  | failed last => exact (Progress.stopped.inj h).2.symm
  | done last repaired => exact absurd h nofun

theorem records_renewIfDue (e : Engine α) : (e.renewIfDue t).engine.records = e.records := by
  unfold Engine.renewIfDue
  split
  · exact records_renewAndSettle e
  · rfl

theorem records_leaveCycle (e : Engine α) : (e.leaveCycle t).engine.records = e.records := by
  refine (Progress.records_map fun e => ?_).trans (records_renewAndSettle (e.note .cycleDetected))
  split
  · exact records_of_held (held_perturbAll e)
  · exact records_of_held (foldl_keeps held held_relaxBound _ e)

theorem records_recover (e : Engine α) : (e.recover t).engine.records = e.records := by
  unfold Engine.recover
  split
  · rename_i e' hundo
    exact records_of_held ((held_solveValues e').trans (held_undoRelaxations hundo))
  · refine (Progress.records_andThen fun e => ?_).trans (records_of_held (held_countRecovery e))
    exact (records_renewAndSettle _).trans (records_of_held (held_raiseThreshold e))

theorem records_rejectRay (e : Engine α) : (e.rejectRay t).engine.records = e.records :=
  records_recover (e.note .unboundedRayRejected)

theorem records_prepare (e : Engine α) : (e.prepare t).engine.records = e.records := by
  refine (Progress.records_map fun e => ?_).trans (records_renew e)
  split
  · exact records_weighRows e
  · rfl

/-! ## Basis changes -/

/-- A basis change has been counted, and the objective value after it was recorded if that is
wanted. -/
def Recorded (t : Job α) (before after : Nat × List α) : Prop :=
  after.1 = before.1 + 1 ∧
    if t.parameters.traceObjective then ∃ x, after.2 = before.2 ++ [x] else after.2 = before.2

/-- One basis change at most has been counted.  Only if the engine had to give up within it is
the objective value missing. -/
def Counted (t : Job α) (before after : Nat × List α) (stopped : Prop) : Prop :=
  after = before ∨ Recorded t before after ∨ stopped ∧ after = (before.1 + 1, before.2)

omit [Scalar α] in
theorem Counted.imp {before after : Nat × List α} {stopped stopped' : Prop}
    (h : Counted t before after stopped) (himp : stopped → stopped') :
    Counted t before after stopped' :=
  h.imp_right (Or.imp_right (And.imp_left himp))

theorem records_applyExchange (e : Engine α) (x : Exchange α) :
    (e.applyExchange t x).1.records = (e.records.1 + 1, e.records.2) :=
  congrArg (fun s => (s.iterations, s.objectiveTrace)) (held_applyExchange e x)

theorem records_updateFactor (e : Engine α) (x : Exchange α) (quality : WeightQuality) :
    (e.updateFactor t x quality).engine.records = e.records := by
  unfold Engine.updateFactor
  split
  · show (if _ then _ else _ : Engine α).records = _
    split
    · exact records_weighRows _
    · rfl
  · exact records_renewAndSettle _

theorem status_of_updateFactor {quality : WeightQuality} {status : SolveStatus}
    (h : e.updateFactor t x quality = .stopped e' status) : status = .numericalError := by
  unfold Engine.updateFactor at h
  split at h
  · exact absurd h nofun
  · exact status_of_renewAndSettle h

theorem records_watchCycle (e : Engine α) (entering : Nat) :
    (e.watchCycle t entering).engine.records = e.records := by
  unfold Engine.watchCycle
  dsimp only
  split
  · exact records_leaveCycle _
  · rfl

theorem recorded_traceObjective {before : Nat × List α}
    (h : e.records = (before.1 + 1, before.2)) :
    Recorded t before (e.traceObjective t).records := by
  have hcount : e.statistics.iterations = before.1 + 1 := congrArg Prod.fst h
  have htrace : e.statistics.objectiveTrace = before.2 := congrArg Prod.snd h
  unfold Recorded Engine.traceObjective
  split
  · exact ⟨hcount, e.currentObjective, congrArg (· ++ [e.currentObjective]) htrace⟩
  · exact ⟨hcount, htrace⟩

theorem counted_performExchange (e : Engine α) (x : Exchange α) :
    Counted t e.records (e.performExchange t x).engine.records
      (∃ e', e.performExchange t x = .stopped e' .numericalError) := by
  unfold Engine.performExchange
  dsimp only
  have hupdate := (records_updateFactor (t := t) (e.applyExchange t x).1 x
    (e.applyExchange t x).2).trans (records_applyExchange e x)
  cases hp : (e.applyExchange t x).1.updateFactor t x (e.applyExchange t x).2 with
  | stopped e' status =>
    rw [hp] at hupdate
    exact Or.inr (Or.inr ⟨⟨e', by rw [status_of_updateFactor hp]; rfl⟩, hupdate⟩)
  | going e' =>
    rw [hp] at hupdate
    have hrecorded := recorded_traceObjective (t := t) (e := e') hupdate
    rw [← records_watchCycle (t := t) (e'.traceObjective t) x.entering] at hrecorded
    exact Or.inr (Or.inl hrecorded)

theorem counted_tryExchange (e : Engine α) (x : Exchange α) :
    Counted t e.records (e.tryExchange t x).engine.records
      (∃ e', e.tryExchange t x = .stopped e' .numericalError) := by
  unfold Engine.tryExchange
  split
  · dsimp only
    split
    · exact Or.inl (records_renewAndSettle (e.note .pivotMismatch))
    · split
      · have hcounted := records_of_held (held_countRecovery (e.note .pivotMismatch))
        refine Or.inl ((Progress.records_map fun e => ?_).trans hcounted)
        exact records_of_held (held_relaxBound e _)
      · exact counted_performExchange (e.note .pivotMismatch) x
  · exact counted_performExchange e x

theorem records_of_exchangeAt {position : Nat} {delta : α}
    (hx : e.exchangeAt? t position delta = some (e', x)) : e'.records = e.records := by
  unfold Engine.exchangeAt? at hx
  dsimp only at hx
  split at hx
  · exact absurd hx nofun
  · split at hx
    · exact absurd hx nofun
    · obtain ⟨rfl, -⟩ := Prod.mk.inj (Option.some.inj hx)
      rfl

/-- An iteration makes a basis change, or it leaves the records alone. -/
theorem counted_iterate (e : Engine α) : Counted t e.records (e.iterate t).engine.records
    (∃ e', e.iterate t = .stopped e' .numericalError) := by
  unfold Engine.iterate
  dsimp only
  cases e.weights.choosePosition (e.infeasibilities t) e.basicIndex with
  | none => exact Or.inl rfl
  | some position =>
    have hat := iterateAt_eq (t := t) e position ((e.infeasibilities t).getD position 0)
    dsimp only
    cases hexchange : e.exchangeAt? t position ((e.infeasibilities t).getD position 0) with
    | none =>
      rw [hexchange] at hat
      rcases hat with ⟨ray, hat⟩ | hat
      · rw [hat]
        exact Or.inl rfl
      · rw [hat]
        exact Or.inl rfl
    | some tried =>
      obtain ⟨e', x⟩ := tried
      rw [hexchange] at hat
      have htried := records_of_exchangeAt hexchange
      have hcounted := counted_tryExchange (t := t) e' x
      rw [htried] at hcounted
      rw [hat, engine_toStep]
      refine hcounted.imp ?_
      rintro ⟨last, hstopped⟩
      exact ⟨last, by rw [hstopped]; rfl⟩

theorem counted_advance (e : Engine α) : Counted t e.records (e.advance t).engine.records
    (∃ e', e.advance t = .stopped e' .numericalError) := by
  have hrenewed := records_renewIfDue (t := t) e
  unfold Engine.advance
  cases limitReached? t with
  | some status => exact Or.inl rfl
  | none =>
    dsimp only
    generalize e.renewIfDue t = p at hrenewed ⊢
    cases p with
    | stopped e' status => exact Or.inl hrenewed
    | going e' =>
      have hiterated := counted_iterate (t := t) e'
      rw [show e'.records = e.records from hrenewed] at hiterated
      exact hiterated

end Engine

/-! ## Steps of a run -/

namespace Run

variable {t : Job α} {r : Run α}

theorem step_of_stopped (hstage : r.stage.Iterates) {e : Engine α} {status : SolveStatus}
    (hstopped : r.engine.advance t = .stopped e status) : r.step t = r.goTo e (.done status) := by
  have hanswers := answers_step (t := t) hstage
  rw [hstopped] at hanswers
  generalize r.step t = r' at hanswers ⊢
  cases hanswers with
  | stopped => rfl

/-- A step that iterates adds nothing to the iteration, unless a ray has to be rejected. -/
theorem step_of_iterates (hstage : r.stage.Iterates) :
    (r.step t).engine.held = (r.engine.advance t).engine.held ∨
      ∃ e ray stage, r.engine.advance t = .unbounded e ray ∧
        r.step t = r.proceed (e.rejectRay t) stage := by
  have hanswers := answers_step (t := t) hstage
  generalize r.engine.advance t = s, r.step t = r' at hanswers ⊢
  cases hanswers with
  | next => exact Or.inl rfl
  | stopped => exact Or.inl rfl
  | reject => exact Or.inr ⟨_, _, _, rfl, rfl⟩
  | accept => exact Or.inl rfl
  | acceptInstead => exact Or.inl rfl
  | leave => exact Or.inl (held_leaveAuxiliary _)
  | toReview => exact Or.inl rfl
  | undo _ hundo => exact Or.inl ((held_solveValues _).trans (held_undoRelaxations hundo))
  | feasible => exact Or.inl rfl

/-- Between two visits of the iterations everything is held. -/
theorem held_step_of_not_iterates (hstage : ¬r.stage.Iterates) :
    (r.step t).engine.held = r.engine.held := by
  have hmoves := moves_step t r
  generalize r.step t = r' at hmoves ⊢
  cases hmoves with
  | stay => rfl
  | needsPhaseOne => rfl
  | settle => exact held_settleReducedCosts r.engine
  | enterAuxiliary => exact held_enterAuxiliary r.engine
  | perturb => exact held_perturbAll r.engine
  | enterMain => rfl
  | enterFeasibility => rfl
  | review => exact held_reviewed r.engine
  | iterate hiterates => exact absurd hiterates hstage

omit [Scalar α] in
theorem records_proceed {p : Progress α} {records : Nat × List α}
    (h : p.engine.records = records) (r : Run α) (stage : Stage) :
    (r.proceed p stage).engine.records = records := by
  cases p with
  | going e => exact h
  | stopped e status => exact h

theorem records_step_of_iterates (hstage : r.stage.Iterates) :
    (r.step t).engine.records = (r.engine.advance t).engine.records := by
  rcases step_of_iterates (t := t) hstage with hheld | ⟨e, ray, stage, hadvance, hstep⟩
  · exact records_of_held hheld
  · rw [hstep, hadvance]
    exact records_proceed (records_rejectRay e) r stage

theorem records_step_of_not_iterates (hstage : ¬r.stage.Iterates) :
    (r.step t).engine.records = r.engine.records :=
  records_of_held (held_step_of_not_iterates hstage)

end Run
end DualSimplex
