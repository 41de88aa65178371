import DualSimplex.Proofs.Engine.Held
import DualSimplex.Proofs.Engine.PivotElement

/-!
# What a run keeps

A property of engines that depends on their core alone holds at every boundary of a run if
renewals, weighing the rows and basis changes keep it.  It need not survive a renewal that is
given up in the middle of a repair, so what holds of an engine that has given up may be less.
-/

namespace DualSimplex

open Scalar Exact

/-- An engine that goes on has the property `P`, one that has given up has `Q`. -/
def Progress.Keeps (P Q : Engine (Exact 0) → Prop) : Progress (Exact 0) → Prop
  | .going e => P e
  | .stopped e _ => Q e

def Step.Keeps (P Q : Engine (Exact 0) → Prop) : Step (Exact 0) → Prop
  | .next e => P e
  | .solved e => P e
  | .unbounded e _ => P e
  | .stopped e _ => Q e

/-- A run that goes on has the property `P`, and in any case it has `Q`. -/
structure Run.Keeps (P Q : Engine (Exact 0) → Prop) (r : Run (Exact 0)) : Prop where
  going : (∀ status, r.stage ≠ .done status) → P r.engine
  always : Q r.engine

/-- What has to be shown of properties for a run to keep them. -/
structure Kept (t : Job (Exact 0)) (P Q : Engine (Exact 0) → Prop) : Prop where
  of_core : ∀ {e e' : Engine (Exact 0)}, e'.core = e.core → P e → P e'
  weaken : ∀ {e : Engine (Exact 0)}, P e → Q e
  renew : ∀ {e : Engine (Exact 0)}, e.Faithful t → P e → (e.renew t).Keeps P Q
  weighRows : ∀ {e : Engine (Exact 0)}, e.Settled t → P e → P (e.weighRows t)
  /-- A basis change whose factors are updated. -/
  update : ∀ {e e' : Engine (Exact 0)} {x : Exchange (Exact 0)} {factor : FactoredBasis (Exact 0)},
    e.Settled t → e.Decided t e' x → P e' →
    (e'.applyExchange t x).1.factor.update x.position x.pivot = .ok factor →
    P { (e'.applyExchange t x).1 with factor := factor }
  /-- A basis change after which the factors have to be renewed. -/
  discard : ∀ {e e' : Engine (Exact 0)} {x : Exchange (Exact 0)},
    e.Settled t → e.Decided t e' x → P e' →
    P { (e'.applyExchange t x).1.note .updateSingular with factorValid := false }

variable {t : Job (Exact 0)} {P Q : Engine (Exact 0) → Prop}

section Progress

variable {p : Progress (Exact 0)}

theorem Progress.Keeps.andThen (hp : p.Keeps P Q) (hsettles : p.Settles t)
    {f : Engine (Exact 0) → Progress (Exact 0)}
    (hf : ∀ e : Engine (Exact 0), e.Settled t → P e → (f e).Keeps P Q) :
    (p.andThen f).Keeps P Q := by
  cases p with
  | going e => exact hf e hsettles hp
  | stopped e status => exact hp

theorem Progress.Keeps.map (hp : p.Keeps P Q) {f : Engine (Exact 0) → Engine (Exact 0)}
    (hf : ∀ e : Engine (Exact 0), P e → P (f e)) : (p.map f).Keeps P Q := by
  cases p with
  | going e => exact hf e hp
  | stopped e status => exact hp

theorem Progress.Keeps.toStep (hp : p.Keeps P Q) : p.toStep.Keeps P Q := by
  cases p with
  | going e => exact hp
  | stopped e status => exact hp

end Progress

namespace Kept

variable {e e' : Engine (Exact 0)} (hkept : Kept t P Q)

include hkept

theorem of_held (hsame : e'.held = e.held) (h : P e) : P e' :=
  hkept.of_core (Engine.core_of_held hsame) h

theorem withRays (h : P e) (dualRay primalRay : Option (Array (Exact 0))) :
    P { e with dualRay := dualRay, primalRay := primalRay } :=
  hkept.of_core (e := e) rfl h

theorem dropCosts (h : P e) : P (e.dropCosts t) :=
  hkept.of_core (e := e) rfl h

/-! ## Renewal -/

theorem renewAndSettle (hfaithful : e.Faithful t) (h : P e) : (e.renewAndSettle t).Keeps P Q :=
  (hkept.renew hfaithful h).map fun e he => hkept.of_held (Engine.held_settleReducedCosts e) he

theorem leaveCycle (hsettled : e.Settled t) (h : P e) : (e.leaveCycle t).Keeps P Q := by
  have hnote := hsettled.toFaithful.of_standing (Engine.standing_note e .cycleDetected)
  have h : P (e.note .cycleDetected) := hkept.of_core (e := e) rfl h
  refine (hkept.renewAndSettle hnote h).map fun e he => ?_
  split
  · exact hkept.of_held (Engine.held_perturbAll e) he
  · refine hkept.of_held ?_ he
    exact Engine.foldl_keeps Engine.held Engine.held_relaxBound _ _

theorem renewIfDue (hsettled : e.Settled t) (h : P e) : (e.renewIfDue t).Keeps P Q := by
  unfold Engine.renewIfDue
  split
  · exact hkept.renewAndSettle hsettled.toFaithful h
  · exact h

theorem rejectRay (hsettled : e.Settled t) (h : P e) : (e.rejectRay t).Keeps P Q := by
  have hnote := hsettled.of_standing (Engine.standing_note e .unboundedRayRejected)
  have h : P (e.note .unboundedRayRejected) := hkept.of_core (e := e) rfl h
  unfold Engine.rejectRay Engine.recover
  generalize e.note .unboundedRayRejected = e at hnote h ⊢
  split
  · rename_i e' hundo
    exact hkept.of_held ((Engine.held_solveValues e').trans (Engine.held_undoRelaxations hundo)) h
  · have hheld := Engine.held_countRecovery e
    have hstanding := Engine.standing_countRecovery e
    generalize e.countRecovery = p at hheld hstanding ⊢
    cases p with
    | stopped e' status => exact hkept.weaken (hkept.of_held hheld h)
    | going e' =>
      have hsettled := (hnote.of_standing hstanding).of_standing (Engine.standing_raiseThreshold e')
      exact hkept.renewAndSettle hsettled.toFaithful
        (hkept.of_held ((Engine.held_raiseThreshold e').trans hheld) h)

/-! ## Basis changes -/

section Iterations

variable (ht : t.WellFormed) (hpivot : 0 < t.parameters.pivotTolerance.value)

include ht hpivot

theorem updateFactor {x : Exchange (Exact 0)} (hsettled : e.Settled t) (hx : e.Decided t e' x)
    (h : P e') (quality : WeightQuality) :
    ((e'.applyExchange t x).1.updateFactor t x quality).Keeps P Q := by
  obtain ⟨he', hentered⟩ := hx.entered ht hsettled hpivot
  unfold Engine.updateFactor
  split
  · rename_i factor hupdate
    have hnew := he'.withUpdate ht hpivot hx.fits hentered hupdate
    have h := hkept.update hsettled hx h hupdate
    show P (if _ then _ else _)
    split
    · exact hkept.weighRows hnew h
    · exact h
  · exact hkept.renewAndSettle (he'.discarded ht hx.fits) (hkept.discard hsettled hx h)

theorem performExchange {x : Exchange (Exact 0)} (hsettled : e.Settled t)
    (hx : e.Decided t e' x) (h : P e') : (e'.performExchange t x).Keeps P Q := by
  obtain ⟨he', hentered⟩ := hx.entered ht hsettled hpivot
  have hsettles := he'.updateFactor ht hpivot hx.fits hentered (e'.applyExchange t x).2
  have hupdate := hkept.updateFactor ht hpivot hsettled hx h (e'.applyExchange t x).2
  refine Progress.Keeps.andThen (hupdate.map fun e he => ?_)
    (hsettles.map fun e he => he.of_standing (Engine.standing_traceObjective e)) fun e he h => ?_
  · exact hkept.of_core (Engine.core_traceObjective e) he
  · have h : P { e with history := (e.history.record x.entering).1 } :=
      hkept.of_core (e := e) rfl h
    have he : Engine.Settled t { e with history := (e.history.record x.entering).1 } :=
      he.of_standing rfl
    unfold Engine.watchCycle
    dsimp only
    split
    · exact hkept.leaveCycle he h
    · exact h

theorem iterate (hsettled : e.Settled t) (h : P e) : (e.iterate t).Keeps P Q := by
  cases htried : e.exchange? t with
  | none =>
    rcases Engine.iterate_of_exchange_eq_none htried with heq | ⟨position, ⟨ray, heq⟩ | heq⟩
    · rw [heq]
      exact h
    · rw [heq]
      exact hkept.of_core (e := e) rfl h
    · rw [heq]
      exact hkept.weaken (hkept.of_core (e := e) rfl h)
  | some tried =>
    obtain ⟨e', x⟩ := tried
    have hx := hsettled.sound.decided_of_exchange ht htried
    have h : P e' := by
      refine hkept.of_core ?_ h
      rw [hx.engine_eq]
      rfl
    rw [Engine.iterate_of_exchange htried, hx.tryExchange_eq ht hsettled hpivot]
    exact (hkept.performExchange ht hpivot hsettled hx h).toStep

theorem advance (hsettled : e.Settled t) (h : P e) : (e.advance t).Keeps P Q := by
  unfold Engine.advance
  split
  · exact hkept.weaken h
  · have hsettles := hsettled.renewIfDue ht hpivot
    have hdue := hkept.renewIfDue hsettled h
    generalize e.renewIfDue t = p at hsettles hdue ⊢
    cases p with
    | going e => exact hkept.iterate ht hpivot hsettles hdue
    | stopped e status => exact hdue

end Iterations

/-! ## Runs -/

section Runs

variable {r : Run (Exact 0)}

theorem goTo (h : P e) (r : Run (Exact 0)) (stage : Stage) : (r.goTo e stage).Keeps P Q :=
  ⟨fun _ => h, hkept.weaken h⟩

theorem proceed {p : Progress (Exact 0)} (hp : p.Keeps P Q) (r : Run (Exact 0)) (stage : Stage) :
    (r.proceed p stage).Keeps P Q := by
  cases p with
  | going e => exact hkept.goTo hp r stage
  | stopped e status => exact ⟨fun hne => absurd rfl (hne status), hp⟩

theorem answers {r' : Run (Exact 0)} {s : Step (Exact 0)} (hsettles : s.Settles t)
    (hs : s.Keeps P Q) (hanswers : r.Answers t s r') : r'.Keeps P Q := by
  cases hanswers with
  | next => exact hkept.goTo hs r _
  | stopped => exact ⟨fun hne => absurd rfl (hne _), hs⟩
  | reject => exact hkept.proceed (hkept.rejectRay hsettles hs) r _
  | accept => exact hkept.goTo (hkept.withRays hs _ _) r _
  | acceptInstead => exact hkept.goTo (hkept.withRays hs _ _) r _
  | leave => exact hkept.goTo (hkept.of_held (Engine.held_leaveAuxiliary _) hs) r _
  | toReview => exact hkept.goTo hs r _
  | undo _ hundo =>
    exact hkept.goTo (hkept.of_held
      ((Engine.held_solveValues _).trans (Engine.held_undoRelaxations hundo)) hs) r _
  | feasible => exact hkept.goTo hs r _

end Runs

/-- The step to the next boundary keeps what a run keeps. -/
theorem step {r : Run (Exact 0)} (ht : t.WellFormed)
    (hpivot : 0 < t.parameters.pivotTolerance.value) (hsettles : r.Settles t)
    (h : r.Keeps P Q) : (r.step t).Keeps P Q := by
  by_cases hgoing : ∀ status, r.stage ≠ .done status
  · have hsettled := hsettles.settled hgoing
    have hengine := h.going hgoing
    have hmoves := Run.moves_step t r
    generalize r.step t = r' at hmoves ⊢
    cases hmoves with
    | stay => exact h
    | needsPhaseOne => exact hkept.goTo hengine r _
    | settle => exact hkept.goTo (hkept.of_held (Engine.held_settleReducedCosts _) hengine) r _
    | enterAuxiliary => exact hkept.goTo (hkept.of_held (Engine.held_enterAuxiliary _) hengine) r _
    | perturb => exact hkept.goTo (hkept.of_held (Engine.held_perturbAll _) hengine) r _
    | enterMain => exact hkept.goTo hengine r _
    | enterFeasibility => exact hkept.goTo (hkept.dropCosts hengine) r _
    | review => exact hkept.goTo (hkept.of_held (Engine.held_reviewed _) hengine) _ _
    | iterate _ hanswers =>
      exact hkept.answers (hsettled.advance ht hpivot)
        (hkept.advance ht hpivot hsettled hengine) hanswers
  · obtain ⟨status, hdone⟩ := not_forall_not.mp hgoing
    rw [Run.step_of_done hdone]
    exact h

/-- A run that has the properties when it begins has them at every boundary. -/
theorem iterate_step (ht : t.WellFormed) (hpivot : 0 < t.parameters.pivotTolerance.value)
    {basis : Basis} (hbasis : basis.Valid t.program) (h : (Run.begin t basis).Keeps P Q)
    (k : Nat) : ((Run.step t)^[k] (Run.begin t basis)).Keeps P Q := by
  induction k with
  | zero => exact h
  | succ k ih =>
    have hsettles := Run.settles_iterate_step ht hpivot hbasis k
    rw [Function.iterate_succ_apply']
    exact hkept.step ht hpivot hsettles ih

end Kept
end DualSimplex
