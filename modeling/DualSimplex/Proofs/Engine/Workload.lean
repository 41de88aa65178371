import DualSimplex.Proofs.Engine.IterationLimit

/-!
# The work of a solve

The basis is factored anew before the updates of the factors exceed what the parameters allow.
So every factorization pays for a limited number of basis changes, and a solve makes no more of
them than its factorizations pay for.  A basis change is counted before its update is tried.  If
that fails it has been paid for by the factorization before, which still had an update left.
-/

namespace DualSimplex

open Scalar

/-- What has been counted, and how many updates the factors have taken of those they may take. -/
structure Workload where
  maxUpdates : Nat
  updates : Nat
  iterations : Nat
  phaseOneIterations : Nat
  refactorizations : Nat
  fillFactors : Nat

namespace Workload

/-- Factors without updates. -/
def afresh (w : Workload) : Workload :=
  { w with updates := 0 }

/-- After a factorization that was accepted. -/
def renewed (w : Workload) : Workload :=
  { w.afresh with
    refactorizations := w.refactorizations + 1
    fillFactors := w.fillFactors + 1 }

/-- After a basis change, before the factors take it over. -/
def pivoted (w : Workload) (inPhaseOne : Nat) : Workload :=
  { w with
    iterations := w.iterations + 1
    phaseOneIterations := w.phaseOneIterations + inPhaseOne }

def updated (w : Workload) : Workload :=
  { w with updates := w.updates + 1 }

variable {α : Type}

/-- The basis changes have been paid for.  That is all that is promised of a solve that ends. -/
structure Covered (p : Parameters α) (w : Workload) : Prop where
  maxUpdates_eq : w.maxUpdates = p.maxUpdates
  iterations_le : w.iterations ≤ p.maxUpdates * w.refactorizations
  phaseOne_le : w.phaseOneIterations ≤ w.iterations
  le_limit : ∀ limit, p.iterationLimit = some limit → w.iterations ≤ limit
  fillFactors_eq : w.fillFactors = w.refactorizations

/-- The updates account for the basis changes since the last factorization.  What they leave of
`maxUpdates` has not been spent. -/
structure Steady (p : Parameters α) (w : Workload) : Prop extends w.Covered p where
  updates_le : w.updates ≤ p.maxUpdates
  spent : w.iterations + p.maxUpdates ≤ p.maxUpdates * w.refactorizations + w.updates

variable {p : Parameters α} {w w' : Workload}

theorem covered_afresh_iff : w.afresh.Covered p ↔ w.Covered p :=
  ⟨fun ⟨h₁, h₂, h₃, h₄, h₅⟩ => ⟨h₁, h₂, h₃, h₄, h₅⟩,
    fun ⟨h₁, h₂, h₃, h₄, h₅⟩ => ⟨h₁, h₂, h₃, h₄, h₅⟩⟩

theorem Covered.of_afresh (h : w.Covered p) (hw : w'.afresh = w.afresh) : w'.Covered p :=
  covered_afresh_iff.mp (hw ▸ covered_afresh_iff.mpr h)

/-- A factorization pays in advance for as many basis changes as its factors may take over. -/
theorem Covered.renewed (h : w.Covered p) : w.renewed.Steady p where
  maxUpdates_eq := h.maxUpdates_eq
  iterations_le := h.iterations_le.trans (Nat.mul_le_mul_left _ (Nat.le_succ _))
  phaseOne_le := h.phaseOne_le
  le_limit := h.le_limit
  fillFactors_eq := congrArg (· + 1) h.fillFactors_eq
  updates_le := Nat.zero_le _
  spent := by
    show w.iterations + p.maxUpdates ≤ p.maxUpdates * (w.refactorizations + 1) + 0
    have := h.iterations_le
    rw [Nat.mul_succ]
    omega

/-- A basis change is paid for while the factors have an update left. -/
theorem Steady.pivoted (h : w.Steady p) (hroom : w.updates < p.maxUpdates)
    (hlimit : ∀ limit, p.iterationLimit = some limit → w.iterations < limit) {d : Nat}
    (hd : d ≤ 1) : (w.pivoted d).Covered p where
  maxUpdates_eq := h.maxUpdates_eq
  iterations_le := by
    show w.iterations + 1 ≤ p.maxUpdates * w.refactorizations
    have := h.spent
    omega
  phaseOne_le := Nat.add_le_add h.phaseOne_le hd
  le_limit := hlimit
  fillFactors_eq := h.fillFactors_eq

theorem Steady.updated (h : w.Steady p) (hroom : w.updates < p.maxUpdates)
    (hlimit : ∀ limit, p.iterationLimit = some limit → w.iterations < limit) {d : Nat}
    (hd : d ≤ 1) : (w.pivoted d).updated.Steady p where
  toCovered := (h.pivoted hroom hlimit hd).of_afresh rfl
  updates_le := hroom
  spent := by
    show w.iterations + 1 + p.maxUpdates ≤ p.maxUpdates * w.refactorizations + (w.updates + 1)
    have := h.spent
    omega

end Workload

variable {α : Type} [Scalar α]

namespace Engine

variable {t : Job α} {e e' : Engine α} {x : Exchange α}

def workload (e : Engine α) : Workload where
  maxUpdates := e.factor.parameters.maxUpdates
  updates := e.factor.updateCount
  iterations := e.statistics.iterations
  phaseOneIterations := e.statistics.phaseOneIterations
  refactorizations := e.statistics.refactorizations
  fillFactors := e.statistics.fillFactors.length

omit [Scalar α] in
theorem workload_of_held (h : e'.held = e.held) : e'.workload = e.workload :=
  congrArg (fun s : Held α => Workload.mk s.policy.maxUpdates s.lu.updateCount s.iterations
    s.phaseOneIterations s.refactorizations s.fillFactors.length) h

theorem workload_weighRows (e : Engine α) : (e.weighRows t).workload = e.workload :=
  weighRows_keeps workload (fun _ _ => rfl) (fun _ _ => rfl) e

theorem workload_admitLogicals (e : Engine α) (pairs : List (Nat × Nat)) :
    (e.admitLogicals t pairs).workload = e.workload := by
  refine (foldl_keeps workload ?_ pairs _).trans
    (foldl_keeps workload ?_ pairs { e with factorValid := false })
  · exact fun _ _ => rfl
  · exact fun _ _ => rfl

/-! ## Renewals -/

/-- An attempt at factoring that fails leaves the factors as they were. -/
theorem workload_of_failed {failure : FactorFailure α}
    (h : (e.factor.factorAnew (e.basisMatrix t)).2 = .error failure) :
    (e.attempt t).workload = e.workload := by
  unfold attempt
  rcases e.factor.factorAnew_cases (e.basisMatrix t) with
    ⟨lu, summary, -, -, hnew⟩ | ⟨factor, failure', hnew, hsame⟩
  · rw [hnew] at h
    exact absurd h nofun
  · rw [hnew, hsame]
    rfl

/-- One that succeeds makes fresh ones. -/
theorem workload_of_factored {summary : FactorSummary α}
    (h : (e.factor.factorAnew (e.basisMatrix t)).2 = .ok summary) :
    (e.attempt t).workload = e.workload.afresh := by
  unfold attempt
  rcases e.factor.factorAnew_cases (e.basisMatrix t) with
    ⟨lu, summary', hfactor, -, hnew⟩ | ⟨factor, failure, hnew, -⟩
  · have hfresh : lu.updateCount = 0 := by
      rw [(LU.of_factor_eq_ok hfactor).2]
      rfl
    rw [hnew]
    show Workload.mk _ lu.updateCount _ _ _ _ = _
    rw [hfresh]
    rfl
  · rw [hnew] at h
    exact absurd h nofun

omit [Scalar α] in
theorem workload_acceptFactor (e : Engine α) (summary : FactorSummary α)
    (h : e.workload = e'.workload.afresh) :
    (e.acceptFactor summary).workload = e'.workload.renewed := by
  have hlength : (e.statistics.fillFactors ++ [summary.fillFactor]).length =
      e.workload.fillFactors + 1 := List.length_append
  unfold Workload.renewed
  rw [show e'.workload.refactorizations = e.workload.refactorizations from
      (congrArg Workload.refactorizations h).symm,
    show e'.workload.fillFactors = e.workload.fillFactors from
      (congrArg Workload.fillFactors h).symm, ← h, ← hlength]
  rfl

omit [Scalar α] in
/-- What later attempts come to depends on no updates of the factors. -/
theorem ends_of_afresh {factored : Factored α} (h : e'.workload.afresh = e.workload.afresh)
    (hends : factored.Ends (fun last => last.workload.afresh = e'.workload.afresh)
      fun last => last.workload = e'.workload.renewed) :
    factored.Ends (fun last => last.workload.afresh = e.workload.afresh)
      fun last => last.workload = e.workload.renewed := by
  have hrenewed : e'.workload.renewed = e.workload.renewed :=
    congrArg (fun w : Workload => { w with
      refactorizations := w.refactorizations + 1
      fillFactors := w.fillFactors + 1 }) h
  rw [h, hrenewed] at hends
  exact hends

/-- Only the attempt that is accepted is counted. -/
theorem workload_factorBasis (attempts : Nat) (repaired : Bool) (e : Engine α) :
    (factorBasis t attempts repaired e).Ends
      (fun e' => e'.workload.afresh = e.workload.afresh)
      (fun e' => e'.workload = e.workload.renewed) := by
  have hattempts := attempts_factorBasis (t := t) attempts repaired e
  generalize Engine.factorBasis t attempts repaired e = factored at hattempts ⊢
  induction hattempts with
  | giveUp => exact rfl
  | accept hok => exact workload_acceptFactor _ _ (workload_of_factored hok)
  | tolerate hok => exact workload_acceptFactor _ _ (workload_of_factored hok)
  | @raise _ e _ raised _ hok _ hraised _ ih =>
    refine ends_of_afresh ?_ ih
    rw [FactoredBasis.eq_of_raise hraised]
    exact (congrArg Workload.afresh (workload_of_factored hok)).trans rfl
  | repair hsingular _ ih =>
    refine ends_of_afresh (congrArg Workload.afresh ?_) ih
    exact (workload_admitLogicals _ _).trans (workload_of_failed hsingular)
  | escalate hviolation _ ih =>
    exact ends_of_afresh (congrArg Workload.afresh (workload_of_failed hviolation)) ih

end Engine

/-! ## What a step leaves accounted for -/

variable {p : Parameters α}

/-- An engine that goes on is steady.  One that has given up has its basis changes covered. -/
def Progress.Accounts (p : Parameters α) : Progress α → Prop
  | .going e => e.workload.Steady p
  | .stopped e _ => e.workload.Covered p

def Step.Accounts (p : Parameters α) : Step α → Prop
  | .next e => e.workload.Steady p
  | .solved e => e.workload.Steady p
  | .unbounded e _ => e.workload.Steady p
  | .stopped e _ => e.workload.Covered p

namespace Progress.Accounts

variable {q : Progress α}

omit [Scalar α] in
theorem andThen (h : q.Accounts p) {f : Engine α → Progress α}
    (hf : ∀ e : Engine α, e.workload.Steady p → (f e).Accounts p) : (q.andThen f).Accounts p := by
  cases q with
  | going e => exact hf e h
  | stopped e status => exact h

omit [Scalar α] in
theorem map (h : q.Accounts p) {f : Engine α → Engine α}
    (hf : ∀ e : Engine α, (f e).workload = e.workload) : (q.map f).Accounts p := by
  refine h.andThen fun e he => ?_
  show (f e).workload.Steady p
  rw [hf]
  exact he

omit [Scalar α] in
theorem toStep (h : q.Accounts p) : q.toStep.Accounts p := by
  cases q with
  | going e => exact h
  | stopped e status => exact h

end Progress.Accounts

namespace Engine

variable {t : Job α} {e e' : Engine α} {x : Exchange α}

/-- A renewal is one accepted factorization, unless it gives up. -/
theorem workload_renew (e : Engine α) : match e.renew t with
    | .going e' => e'.workload = e.workload.renewed
    | .stopped e' _ => e'.workload.afresh = e.workload.afresh := by
  have hends := workload_factorBasis (t := t) maxAttempts false e
  unfold Engine.renew
  generalize Engine.factorBasis t maxAttempts false e = factored at hends ⊢
  cases factored with
  | failed e' => exact hends
  | done e' repaired =>
    have hsolved : (({ e' with factorValid := true }.solveValues t).solveDuals t
        |>.recordResiduals t).workload = e.workload.renewed :=
      (workload_of_held (held_solveValues _)).trans hends
    show (if _ then _ else _ : Engine α).workload = _
    split
    · unfold Engine.renewWeights
      split
      · exact (workload_weighRows _).trans hsolved
      · exact hsolved
    · exact hsolved

theorem accounts_renew (h : e.workload.Covered p) : (e.renew t).Accounts p := by
  have hrenew := workload_renew (t := t) e
  generalize e.renew t = q at hrenew ⊢
  cases q with
  | going e' =>
    show e'.workload.Steady p
    rw [show e'.workload = e.workload.renewed from hrenew]
    exact h.renewed
  | stopped e' status => exact h.of_afresh hrenew

theorem accounts_renewAndSettle (h : e.workload.Covered p) : (e.renewAndSettle t).Accounts p :=
  (accounts_renew h).map fun _ => workload_of_held (held_settleReducedCosts _)

theorem accounts_leaveCycle (h : e.workload.Covered p) : (e.leaveCycle t).Accounts p := by
  have hnote : (e.note .cycleDetected).workload.Covered p := h
  refine (accounts_renewAndSettle hnote).map fun e => ?_
  split
  · exact workload_of_held (held_perturbAll e)
  · exact workload_of_held (foldl_keeps held held_relaxBound _ e)

omit [Scalar α] in
theorem accounts_countRecovery (h : e.workload.Steady p) : e.countRecovery.Accounts p := by
  unfold Engine.countRecovery
  dsimp only
  split
  · exact h.toCovered
  · exact h

theorem exists_workload_applyExchange (e : Engine α) (x : Exchange α) :
    ∃ d ≤ 1, (e.applyExchange t x).1.workload = e.workload.pivoted d := by
  refine ⟨if (e.applyExchange t x).1.phase = .one then 1 else 0, ?_, ?_⟩
  · split
    · exact Nat.le_refl 1
    · exact Nat.zero_le 1
  · exact congrArg (fun s : Held α => Workload.mk s.policy.maxUpdates s.lu.updateCount s.iterations
      s.phaseOneIterations s.refactorizations s.fillFactors.length) (held_applyExchange e x)

/-- A basis change may be made: the factors have an update left, and the limit is not reached. -/
structure HasRoom (p : Parameters α) (e : Engine α) : Prop extends e.workload.Steady p where
  updates_lt : e.factor.updateCount < p.maxUpdates
  lt_limit : ∀ limit, p.iterationLimit = some limit → e.statistics.iterations < limit

theorem HasRoom.updateFactor (h : e.HasRoom p) (quality : WeightQuality) :
    ((e.applyExchange t x).1.updateFactor t x quality).Accounts p := by
  obtain ⟨d, hd, hworkload⟩ := exists_workload_applyExchange (t := t) e x
  unfold Engine.updateFactor
  split
  · rename_i factor hupdate
    obtain ⟨lu, hlu, rfl⟩ := FactoredBasis.exists_of_update_eq_ok hupdate
    have hupdated : ({ (e.applyExchange t x).1 with
        factor := { (e.applyExchange t x).1.factor with lu := lu } } : Engine α).workload =
          (e.workload.pivoted d).updated := by
      have hcount : lu.updateCount = (e.applyExchange t x).1.factor.updateCount + 1 := by
        rw [(LU.eq_of_update_eq_ok hlu).2]
        exact List.length_append
      unfold Workload.updated
      rw [← hworkload]
      show Workload.mk _ lu.updateCount _ _ _ _ = _
      rw [hcount]
      rfl
    show (if _ then _ else _ : Engine α).workload.Steady p
    refine Eq.mpr (congrArg (Workload.Steady p) ?_) (h.updated h.updates_lt h.lt_limit hd)
    split
    · exact (workload_weighRows _).trans hupdated
    · exact hupdated
  · refine accounts_renewAndSettle ?_
    show (e.applyExchange t x).1.workload.Covered p
    rw [hworkload]
    exact h.pivoted h.updates_lt h.lt_limit hd

theorem workload_traceObjective (e : Engine α) : (e.traceObjective t).workload = e.workload := by
  unfold Engine.traceObjective
  split
  · rfl
  · rfl

theorem HasRoom.performExchange (h : e.HasRoom p) : (e.performExchange t x).Accounts p := by
  refine ((h.updateFactor (e.applyExchange t x).2).map workload_traceObjective).andThen
    fun e he => ?_
  have hwatched : ({ e with
      history := (e.history.record x.entering).1 } : Engine α).workload.Steady p :=
    he
  unfold Engine.watchCycle
  dsimp only
  split
  · exact accounts_leaveCycle hwatched.toCovered
  · exact hwatched

theorem HasRoom.tryExchange (h : e.HasRoom p) : (e.tryExchange t x).Accounts p := by
  have hnote : (e.note .pivotMismatch).HasRoom p := ⟨h.toSteady, h.updates_lt, h.lt_limit⟩
  cases haccept : accept? t e x with
  | some e' =>
    obtain ⟨hsame, -, htry⟩ := accept_cases haccept
    rw [htry]
    rcases hsame with rfl | rfl
    · exact h.performExchange
    · exact hnote.performExchange
  | none =>
    rcases tryExchange_of_not_accepted haccept with htry | htry
    · rw [htry]
      exact accounts_renewAndSettle hnote.toCovered
    · rw [htry]
      exact (accounts_countRecovery hnote.toSteady).map fun e =>
        workload_of_held (held_relaxBound e x.leaving)

end Engine

/-! ## Runs -/

/-- A run that goes on is steady, and in any case its basis changes are covered. -/
structure Run.Accounts (p : Parameters α) (r : Run α) : Prop where
  going : (∀ status, r.stage ≠ .done status) → r.engine.workload.Steady p
  covered : r.engine.workload.Covered p

namespace Run

open Engine

variable {t : Job α} {r : Run α}

end Run

/-! ## Solves -/

open Engine

/-- What the statistics of a solve with these parameters add up to when it has ended. -/
structure Statistics.Consistent (p : Parameters α) (status : SolveStatus) (s : Statistics α) :
    Prop where
  iterations_le : s.iterations ≤ p.maxUpdates * s.refactorizations
  phaseOneIterations_le : s.phaseOneIterations ≤ s.iterations
  length_fillFactors : s.fillFactors.length = s.refactorizations
  iterations_le_limit : ∀ limit, p.iterationLimit = some limit → s.iterations ≤ limit
  length_objectiveTrace : p.traceObjective = true → status ≠ .numericalError →
    status ≠ .outOfMemory → s.objectiveTrace.length = s.iterations

end DualSimplex
