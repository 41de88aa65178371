import DualSimplex.Proofs.Engine.Equations

/-!
# Factors of the present basis

With exact numbers the factors are those of the basis whenever an engine says so,
through rejected updates, repairs, and renewals that are given up.  An engine that
can go on has such factors, and its values solve the equations.
-/

namespace DualSimplex

open Scalar Exact

/-- What decides whether factors belong to a basis. -/
structure Footing (α : Type) where
  basicIndex : Array Nat
  factorValid : Bool
  lu : LU α
  pivotTolerance : α

namespace Engine

section Footing

variable {α : Type}

def footing (e : Engine α) : Footing α where
  basicIndex := e.basicIndex
  factorValid := e.factorValid
  lu := e.factor.lu
  pivotTolerance := e.factor.parameters.pivotTolerance

theorem footing_of_setting {e e' : Engine α} (h : e'.setting = e.setting) :
    e'.footing = e.footing :=
  congrArg (fun s : Setting α => Footing.mk s.basicIndex s.factorValid s.lu
    s.parameters.pivotTolerance) h

variable [Scalar α] {t : Job α} {e e' : Engine α}

theorem footing_relaxBound (e : Engine α) (j : Nat) :
    (e.relaxBound j).footing = e.footing ∧ (e.relaxBound j).value = e.value := by
  unfold Engine.relaxBound
  dsimp only
  split
  · exact ⟨rfl, rfl⟩
  · split
    · exact ⟨rfl, rfl⟩
    · exact ⟨rfl, rfl⟩

theorem footing_undoRelaxation (e : Engine α) (j : Nat) (b : Interval α) :
    (e.undoRelaxation j b).footing = e.footing :=
  (footing_of_setting (setting_undoRelaxation e j b)).trans rfl

theorem footing_undoRelaxations (hundo : e.undoRelaxations? = some e') :
    e'.footing = e.footing := by
  rw [(of_undoRelaxations hundo).2]
  refine foldl_keeps footing (fun e r => ?_) e.relaxed e
  exact footing_undoRelaxation e r.1 r.2

theorem footing_foldl_rest (f : Engine α → Nat → VariableStatus) (l : List Nat) (e : Engine α) :
    (l.foldl (fun e j => e.rest j (f e j)) e).footing = e.footing :=
  foldl_keeps footing (fun e j => footing_of_setting (setting_rest e j (f e j))) l e

theorem footing_restoreBounds (e : Engine α) : (e.restoreBounds t).footing = e.footing :=
  footing_foldl_rest (fun e j => if (e.boundsOf j).allows (e.statusOf j) then e.statusOf j
    else (e.boundsOf j).restingStatus) _ _

end Footing

variable {t : Job (Exact 0)} {e e' : Engine (Exact 0)}

/-- The factors are those of the basis if the engine says so. -/
structure Aligned (t : Job (Exact 0)) (e : Engine (Exact 0)) : Prop where
  sound : e.Sound t
  current : e.factorValid = true → e.Current t
  tolerance : e.factor.parameters.pivotTolerance = t.parameters.pivotTolerance

/-- If the engine says so the factors are those of the basis, and the values solve the
equations. -/
structure Faithful (t : Job (Exact 0)) (e : Engine (Exact 0)) : Prop extends Aligned t e where
  balanced : e.factorValid = true → e.Balanced t

/-- The factors are those of the basis, and the values solve the equations. -/
structure Settled (t : Job (Exact 0)) (e : Engine (Exact 0)) : Prop extends Aligned t e where
  valid : e.factorValid = true
  balanced : e.Balanced t

/-- An engine that has given up has lost its factors for numerical reasons only. -/
structure Halted (t : Job (Exact 0)) (e : Engine (Exact 0)) (status : SolveStatus) : Prop
    extends Faithful t e where
  valid : status ≠ .numericalError → e.factorValid = true

theorem Settled.toFaithful (h : e.Settled t) : e.Faithful t :=
  ⟨h.toAligned, fun _ => h.balanced⟩

theorem Settled.halted (h : e.Settled t) (status : SolveStatus) : e.Halted t status :=
  ⟨h.toFaithful, fun _ => h.valid⟩

theorem Halted.settled {status : SolveStatus} (h : e.Halted t status)
    (hstatus : status ≠ .numericalError) : e.Settled t :=
  ⟨h.toAligned, h.valid hstatus, h.balanced (h.valid hstatus)⟩

theorem Aligned.of_footing (h : e.Aligned t) (hsound : e'.Sound t)
    (hfooting : e'.footing = e.footing) : e'.Aligned t where
  sound := hsound
  current := by
    intro hvalid
    have hvalid : e.factorValid = true := (congrArg Footing.factorValid hfooting).symm.trans hvalid
    exact (h.current hvalid).congr (congrArg Footing.lu hfooting)
      (congrArg Footing.basicIndex hfooting)
  tolerance := (congrArg Footing.pivotTolerance hfooting).trans h.tolerance

theorem Faithful.of_values (h : e.Faithful t) (hsound : e'.Sound t)
    (hfooting : e'.footing = e.footing) (hvalue : e'.value = e.value) : e'.Faithful t where
  toAligned := h.toAligned.of_footing hsound hfooting
  balanced := by
    intro hvalid i hi
    rw [balance_congr hvalue]
    exact h.balanced ((congrArg Footing.factorValid hfooting).symm.trans hvalid) i hi

theorem Faithful.of_standing (h : e.Faithful t) (hstanding : e'.standing = e.standing) :
    e'.Faithful t :=
  h.of_values (h.sound.of_standing hstanding) (footing_of_setting (setting_congr hstanding))
    (value_congr hstanding)

theorem Settled.of_values (h : e.Settled t) (hsound : e'.Sound t)
    (hfooting : e'.footing = e.footing) (hvalue : e'.value = e.value) : e'.Settled t where
  toAligned := h.toAligned.of_footing hsound hfooting
  valid := (congrArg Footing.factorValid hfooting).trans h.valid
  balanced := by
    intro i hi
    rw [balance_congr hvalue]
    exact h.balanced i hi

theorem Settled.withRays (h : e.Settled t) (dualRay primalRay : Option (Array (Exact 0))) :
    Settled t { e with dualRay := dualRay, primalRay := primalRay } :=
  h.of_values (h.sound.withRays dualRay primalRay) rfl rfl

theorem Settled.of_standing (h : e.Settled t) (hstanding : e'.standing = e.standing) :
    e'.Settled t :=
  h.of_values (h.sound.of_standing hstanding) (footing_of_setting (setting_congr hstanding))
    (value_congr hstanding)

/-- Computing the values settles an engine with valid factors. -/
theorem Aligned.solveValues (h : e.Aligned t) (ht : t.WellFormed)
    (hvalid : e.factorValid = true) : (e.solveValues t).Settled t where
  toAligned := h.of_footing h.sound.solveValues (footing_of_setting (setting_solveValues e))
  valid := (congrArg Setting.factorValid (setting_solveValues e)).trans hvalid
  balanced := (h.current hvalid).balanced_solveValues ht h.sound

/-- Whatever a step does to where the variables rest, computing the values anew
settles the engine again. -/
theorem Settled.solveValues (h : e.Settled t) (ht : t.WellFormed) (hsound : e'.Sound t)
    (hfooting : e'.footing = e.footing) : (e'.solveValues t).Settled t :=
  (h.toAligned.of_footing hsound hfooting).solveValues ht
    ((congrArg Footing.factorValid hfooting).trans h.valid)

end Engine

/-! ## Steps that may have to give up -/

/-- An engine that goes on is settled, and so is one that has given up, but for numerical
reasons. -/
def Progress.Settles (t : Job (Exact 0)) : Progress (Exact 0) → Prop
  | .going e => e.Settled t
  | .stopped e status => e.Halted t status

def Step.Settles (t : Job (Exact 0)) : Step (Exact 0) → Prop
  | .next e => e.Settled t
  | .solved e => e.Settled t
  | .unbounded e _ => e.Settled t
  | .stopped e status => e.Halted t status

section Settles

variable {t : Job (Exact 0)} {p : Progress (Exact 0)}

theorem Progress.Settles.andThen (hp : p.Settles t) {f : Engine (Exact 0) → Progress (Exact 0)}
    (hf : ∀ e : Engine (Exact 0), e.Settled t → (f e).Settles t) : (p.andThen f).Settles t := by
  cases p with
  | going e => exact hf e hp
  | stopped e status => exact hp

theorem Progress.Settles.map (hp : p.Settles t) {f : Engine (Exact 0) → Engine (Exact 0)}
    (hf : ∀ e : Engine (Exact 0), e.Settled t → (f e).Settled t) : (p.map f).Settles t :=
  hp.andThen hf

theorem Progress.Settles.faithful (hp : p.Settles t) : p.engine.Faithful t := by
  cases p with
  | going e => exact Engine.Settled.toFaithful hp
  | stopped e status => exact Engine.Halted.toFaithful hp

theorem Progress.Settles.toStep (hp : p.Settles t) : p.toStep.Settles t := by
  cases p with
  | going e => exact hp
  | stopped e status => exact hp

end Settles

namespace Engine

variable {t : Job (Exact 0)} {e e' : Engine (Exact 0)}

/-! ## Renewal -/

section Renewal

variable (ht : t.WellFormed) (hpivot : 0 < t.parameters.pivotTolerance.value)

include ht hpivot

/-- Factors that were made from the columns of the basis are those of the basis. -/
theorem Faithful.attempt (h : e.Faithful t) : (e.attempt t).Faithful t ∧
    ∀ s, (e.factor.factorAnew (e.basisMatrix t)).2 = .ok s → (e.attempt t).Current t := by
  have hsound := h.sound.attempt ht
  have htolerance : (e.attempt t).factor.parameters.pivotTolerance =
      t.parameters.pivotTolerance := by
    rw [← h.tolerance]
    exact congrArg FactorPolicy.pivotTolerance (FactoredBasis.parameters_factorAnew _ _)
  rcases e.factor.factorAnew_cases (e.basisMatrix t) with hnew | hold
  · obtain ⟨lu, summary, hfactor, -, hnew⟩ := hnew
    have hlu : (e.attempt t).factor.lu = lu :=
      congrArg (fun s : FactoredBasis (Exact 0) × _ => s.1.lu) hnew
    have hcurrent : (e.attempt t).Current t := by
      obtain ⟨f, hf, rfl⟩ := LU.exists_factored (squareColumns_basisMatrix ht h.sound.toPlaced)
        (h.tolerance ▸ hpivot) hfactor
      have hpositive := h.tolerance ▸ hpivot
      refine ⟨?_, fun i p hi hp => ?_⟩
      · rw [hlu]
        exact hf.solvable hpositive
      · have hlength := length_basisMatrix h.sound.toPlaced
        rw [hlu, hf.matrixAt hpositive (hlength.symm ▸ hi) (hlength.symm ▸ hp),
          getD_basisMatrix h.sound.toPlaced hp]
        rfl
    exact ⟨⟨⟨hsound, fun _ => hcurrent, htolerance⟩, h.balanced⟩, fun _ _ => hcurrent⟩
  · obtain ⟨factor, failure, hresult, hsame⟩ := hold
    have hlu : (e.attempt t).factor.lu = e.factor.lu :=
      (congrArg (fun s : FactoredBasis (Exact 0) × _ => s.1.lu) hresult).trans (by rw [hsame])
    refine ⟨⟨⟨hsound, fun hvalid => (h.current hvalid).congr hlu rfl, htolerance⟩, h.balanced⟩,
      fun s hs => ?_⟩
    rw [hresult] at hs
    exact absurd hs nofun

/-- A singular basis is repaired, and nothing is claimed of its factors. -/
theorem Faithful.repair (h : e.Faithful t) {pairs : List (Nat × Nat)}
    (hresult : (e.factor.factorAnew (e.basisMatrix t)).2 = .error (.singularBasis pairs)) :
    (((e.attempt t).note .singularBasis).admitLogicals t pairs).Faithful t := by
  have hnew := (h.attempt ht hpivot).1.of_standing (standing_note _ .singularBasis)
  have hsound := hnew.sound.admitLogicals (spares_of_factorAnew ht h.sound.toPlaced pairs hresult)
  have hsetting : (({ (e.attempt t).note .singularBasis with
      factorValid := false } : Engine (Exact 0)).dropDependent pairs).setting = _ :=
    foldl_keeps setting (fun e j => setting_rest e j _) _ _
  have hvalid :
      (((e.attempt t).note .singularBasis).admitLogicals t pairs).factorValid ≠ true := by
    rw [admitLogicals_eq]
    exact Bool.eq_false_iff.mp (congrArg Setting.factorValid hsetting)
  refine ⟨⟨hsound, fun hc => absurd hc hvalid, ?_⟩, fun hc => absurd hc hvalid⟩
  rw [admitLogicals_eq]
  exact (congrArg (fun s => s.parameters.pivotTolerance) hsetting).trans hnew.tolerance

theorem Faithful.factorBasis (h : e.Faithful t) (attempts : Nat) (repaired : Bool) :
    (factorBasis t attempts repaired e).Ends (Faithful t)
      fun e => e.Faithful t ∧ e.Current t := by
  refine ends_factorBasis (fun e e' hs he => he.of_standing hs) (fun e e' hs he => ?_)
    (fun e he => he.1) (fun e s he hresult => ?_) (fun e pairs he => he.repair ht hpivot)
    (fun e growth threshold he hresult => (he.attempt ht hpivot).1) attempts repaired h
  · exact ⟨he.1.of_standing hs, he.2.of_setting (setting_congr hs)⟩
  · obtain ⟨hfaithful, hcurrent⟩ := he.attempt ht hpivot
    exact ⟨hfaithful, hcurrent s hresult⟩

omit hpivot ht in
theorem Settled.weighRows (h : e.Settled t) : (e.weighRows t).Settled t := by
  obtain ⟨e', weights, hstanding, hweights, heq⟩ := exists_weighRows (t := t) e
  have hsound := h.sound.weighRows
  rw [heq] at hsound ⊢
  exact (h.of_standing hstanding).of_values hsound rfl rfl

omit hpivot ht in
theorem Settled.renewWeights (h : e.Settled t) : (e.renewWeights t).Settled t := by
  have hsound := h.sound.renewWeights
  unfold Engine.renewWeights at hsound ⊢
  split
  · exact h.weighRows
  · rename_i hnorms
    rw [if_neg hnorms] at hsound
    exact h.of_values hsound rfl rfl

theorem Faithful.renew (h : e.Faithful t) : (e.renew t).Settles t := by
  unfold Engine.renew
  have hends := h.factorBasis ht hpivot maxAttempts false
  generalize Engine.factorBasis t maxAttempts false e = factored at hends ⊢
  cases factored with
  | failed e => exact ⟨hends, fun hne => absurd rfl hne⟩
  | done e repaired =>
    obtain ⟨hfaithful, hcurrent⟩ := hends
    have hvalid : Aligned t { e with factorValid := true } :=
      ⟨hfaithful.sound.withFactorValid true, fun _ => hcurrent.congr rfl rfl, hfaithful.tolerance⟩
    have hduals := (hvalid.solveValues ht rfl).of_standing (standing_solveDuals (t := t) _)
    have hrecord := hduals.of_standing (standing_recordResiduals (t := t) _)
    show Settled t (if _ then _ else _)
    split
    · exact hrecord.renewWeights
    · exact hrecord

omit hpivot in
theorem Settled.settleReducedCosts (h : e.Settled t) : (e.settleReducedCosts t).Settled t := by
  rcases h.sound.settle_cases with hsame | hsolved
  · exact h.of_standing hsame
  · obtain ⟨e', he', hsetting, heq⟩ := hsolved
    rw [heq]
    exact h.solveValues ht he' (footing_of_setting hsetting)

theorem Faithful.renewAndSettle (h : e.Faithful t) : (e.renewAndSettle t).Settles t :=
  (h.renew ht hpivot).map fun _ he => he.settleReducedCosts ht

end Renewal

/-! ## Iterations -/

theorem Settled.relaxBound (h : e.Settled t) {j : Nat} (hj : e.statusOf j = .basic) :
    (e.relaxBound j).Settled t :=
  h.of_values (h.sound.relaxBound hj) (footing_relaxBound e j).1 (footing_relaxBound e j).2

theorem Settled.relaxSlightly (h : e.Settled t) :
    ((e.slightlyInfeasible t).foldl Engine.relaxBound e).Settled t :=
  h.of_values h.sound.relaxSlightly
    (foldl_keeps footing (fun e j => (footing_relaxBound e j).1) _ _)
    (foldl_keeps Engine.value (fun e j => (footing_relaxBound e j).2) _ _)

/-- A pivot element that is large enough is not zero. -/
theorem value_ne_zero_of_isTooSmall (hpivot : 0 < t.parameters.pivotTolerance.value)
    {pivot : Exact 0} (h : ¬isTooSmall t pivot = true) : pivot.value ≠ 0 := by
  intro hzero
  have hmagnitude : (magnitude pivot).value = 0 := (Exact.abs_eq _).trans (by rw [hzero, abs_zero])
  exact h (decide_eq_true (show (magnitude pivot).value < t.parameters.pivotTolerance.value from
    hmagnitude.symm ▸ hpivot))

section Iterations

variable {x : Exchange (Exact 0)} (ht : t.WellFormed)
  (hpivot : 0 < t.parameters.pivotTolerance.value)

include ht

/-- The right side of the solve for an entering column. -/
theorem valueAt_entering {j : Nat} (hj : j < t.size) :
    (t.zeroRow.addAll (t.column j)).Listed t.rowCount ∧ ∀ i, i < t.rowCount →
      (t.zeroRow.addAll (t.column j)).valueAt i = coefficient (t.column j) i := by
  refine ⟨listed_zeroRow.addAll (ht.row_lt hj), fun i hi => ?_⟩
  have hzero : t.zeroRow.valueAt i = 0 := SparseVector.valueAt_zero ..
  rw [SparseVector.valueAt_addAll _ _ ((listed_zeroRow (t := t)).dim_eq ▸ hi), hzero, zero_add]

/-- The solve for an entering column gives it in terms of the basis. -/
theorem Current.ftranEntering (hcurrent : e.Current t) (h : e.Sound t) {j : Nat}
    (hj : j < t.size) : (e.ftranEntering t j).2.Listed t.rowCount ∧ ∀ i, i < t.rowCount →
      ∑ p ∈ Finset.range t.rowCount, coefficient (t.column (e.basicAt p)) i *
        (e.ftranEntering t j).2.valueAt p = coefficient (t.column j) i := by
  obtain ⟨hlisted, hvalue⟩ := valueAt_entering ht hj
  obtain ⟨hsolution, hsolves⟩ := hcurrent.ftran h hlisted
  exact ⟨hsolution, fun i hi => (hsolves i hi).trans (hvalue i hi)⟩

/-- The spike of the solve for an entering column is kept. -/
theorem Current.spike_ftranEntering (hcurrent : e.Current t) (h : e.Sound t) {j : Nat}
    (hj : j < t.size) : (e.ftranEntering t j).1.factor.spike.valueAt =
      (e.factor.lu.ftran (t.zeroRow.addAll (t.column j))).spike.valueAt := by
  have hm : e.factor.lu.m = t.rowCount := h.factor.m_eq
  obtain ⟨hlisted, -⟩ := valueAt_entering ht hj
  exact funext (h.factor.spike.valueAt_assign
    (hm ▸ hcurrent.solvable.toWellFormed.listed_spike (hm.symm ▸ hlisted)))

/-- The solve for an entering column finds what a basis change relies on. -/
theorem Settled.ftranEntering (h : e.Settled t) (hentering : x.entering < t.size)
    (hcolumn : (e.ftranEntering t x.entering).2 = x.column) :
    (e.ftranEntering t x.entering).1.Settled t ∧
    (x.pivot.value ≠ 0 → (e.ftranEntering t x.entering).1.Entered t x) := by
  obtain ⟨hlisted, hvalue⟩ := valueAt_entering ht hentering
  have hcurrent := h.current h.valid
  have hm : e.factor.lu.m = t.rowCount := h.sound.factor.m_eq
  obtain ⟨hsolution, hsolves⟩ := hcurrent.ftranEntering ht h.sound hentering
  rw [hcolumn] at hsolution hsolves
  refine ⟨h.of_values (h.sound.ftranEntering ht hentering).1 rfl rfl, fun hne => ?_⟩
  refine ⟨hsolution, hsolves, fun i hi => ?_, hne⟩
  rw [hcurrent.spike_ftranEntering ht h.sound hentering, ← hvalue i hi]
  exact hcurrent.solvable.restore_spike (hm.symm ▸ hlisted) (hm.symm ▸ hi)

include hpivot

theorem Settled.leaveCycle (h : e.Settled t) : (e.leaveCycle t).Settles t := by
  have hnote := h.toFaithful.of_standing (standing_note e .cycleDetected)
  refine (hnote.renewAndSettle ht hpivot).map fun e he => ?_
  split
  · exact he.of_standing (standing_perturbAll e)
  · exact he.relaxSlightly

omit hpivot in
theorem Settled.balanced_applyExchange (h : e.Settled t) (hx : e.Fits t x)
    (hentered : e.Entered t x) : (e.applyExchange t x).1.Balanced t := fun i hi =>
  (hentered.balance_applyExchange (h.current h.valid) ht h.sound hx hi).trans (h.balanced i hi)

omit hpivot in
theorem Settled.tolerance_applyExchange (h : e.Settled t) (hx : e.Fits t x) :
    (e.applyExchange t x).1.factor.parameters.pivotTolerance = t.parameters.pivotTolerance := by
  have hparameters : (e.applyExchange t x).1.factor.parameters = e.factor.parameters :=
    congrArg Setting.parameters (setting_applyExchange ht h.sound hx)
  rw [hparameters, h.tolerance]

/-- Updated factors follow a basis change. -/
theorem Settled.withUpdate (h : e.Settled t) (hx : e.Fits t x) (hentered : e.Entered t x)
    {factor : FactoredBasis (Exact 0)}
    (hupdate : (e.applyExchange t x).1.factor.update x.position x.pivot = .ok factor) :
    Settled t { (e.applyExchange t x).1 with factor := factor } := by
  have hsound := h.sound.applyExchange ht hx
  have hsetting := setting_applyExchange ht h.sound hx
  have hbalanced := h.balanced_applyExchange ht hx hentered
  have htolerance := h.tolerance_applyExchange ht hx
  generalize (e.applyExchange t x).1 = e' at hsound hsetting hbalanced htolerance hupdate ⊢
  have hlu : e'.factor.lu = e.factor.lu := congrArg Setting.lu hsetting
  have hspike : e'.factor.spike = e.factor.spike := congrArg Setting.spike hsetting
  have hparameters : e'.factor.parameters = e.factor.parameters :=
    congrArg Setting.parameters hsetting
  have hvalid : e'.factorValid = e.factorValid := congrArg Setting.factorValid hsetting
  have hnew := hsound.withFactor (hsound.factor.update hx.position_lt hupdate)
  obtain ⟨lu, hreplaced, rfl⟩ := FactoredBasis.exists_of_update_eq_ok hupdate
  rw [hlu, hspike, hparameters] at hreplaced
  have hcurrent : Current t { e' with factor := { e'.factor with lu := lu } } :=
    hentered.current_update (h.current h.valid) h.sound hx (h.tolerance ▸ hpivot) hreplaced
      (congrArg Setting.basicIndex hsetting) rfl
  exact ⟨⟨hnew, fun _ => hcurrent, htolerance⟩, hvalid.trans h.valid, hbalanced⟩

omit hpivot in
/-- If the factors cannot follow a basis change they are not relied on any more. -/
theorem Settled.discarded (h : e.Settled t) (hx : e.Fits t x) :
    Faithful t { (e.applyExchange t x).1.note .updateSingular with factorValid := false } := by
  have hsound := h.sound.applyExchange ht hx
  have htolerance := h.tolerance_applyExchange ht hx
  generalize (e.applyExchange t x).1 = e' at hsound htolerance ⊢
  exact ⟨⟨(hsound.of_standing (standing_note _ _)).withFactorValid false,
    fun hc => absurd hc Bool.false_ne_true, htolerance⟩, fun hc => absurd hc Bool.false_ne_true⟩

/-- The factors follow a basis change, or they are renewed. -/
theorem Settled.updateFactor (h : e.Settled t) (hx : e.Fits t x) (hentered : e.Entered t x)
    (quality : WeightQuality) : ((e.applyExchange t x).1.updateFactor t x quality).Settles t := by
  unfold Engine.updateFactor
  split
  · rename_i factor hupdate
    have hsettled := h.withUpdate ht hpivot hx hentered hupdate
    show Settled t (if _ then _ else _)
    split
    · exact hsettled.weighRows
    · exact hsettled
  · exact (h.discarded ht hx).renewAndSettle ht hpivot

theorem Settled.performExchange (h : e.Settled t) (hx : e.Fits t x) (hentered : e.Entered t x) :
    (e.performExchange t x).Settles t := by
  refine Progress.Settles.andThen
    ((h.updateFactor ht hpivot hx hentered (e.applyExchange t x).2).map fun e he => ?_)
    fun e he => ?_
  · exact he.of_standing (standing_traceObjective e)
  · have he : Settled t { e with history := (e.history.record x.entering).1 } := he.of_standing rfl
    unfold Engine.watchCycle
    dsimp only
    split
    · exact he.leaveCycle ht hpivot
    · exact he

theorem Settled.tryExchange (h : e.Settled t) (hx : e.Fits t x)
    (hentered : x.pivot.value ≠ 0 → e.Entered t x) : (e.tryExchange t x).Settles t := by
  have hnote := h.of_standing (standing_note e .pivotMismatch)
  have hsame := setting_congr (standing_note e .pivotMismatch)
  unfold Engine.tryExchange
  dsimp only
  split
  · split
    · exact hnote.toFaithful.renewAndSettle ht hpivot
    · split
      · have hbasic : (e.note .pivotMismatch).statusOf x.leaving = .basic :=
          hx.leaving_eq ▸ hnote.sound.statusOf_basicAt hx.position_lt
        have hstanding := standing_countRecovery (e.note .pivotMismatch)
        generalize (e.note .pivotMismatch).countRecovery = p at hstanding ⊢
        cases p with
        | stopped e' status => exact (hnote.of_standing hstanding).halted status
        | going e' =>
          refine (hnote.of_standing hstanding).relaxBound ?_
          rw [statusOf_congr (status_congr hstanding)]
          exact hbasic
      · rename_i hlarge
        exact hnote.performExchange ht hpivot (hx.congr hsame)
          ((hentered (value_ne_zero_of_isTooSmall hpivot hlarge)).of_setting hsame)
  · rename_i hreliable
    refine h.performExchange ht hpivot hx
      (hentered (value_ne_zero_of_isTooSmall hpivot fun hsmall => hreliable ?_))
    unfold isDoubtful
    rw [hsmall]
    rfl

theorem Settled.iterate (h : e.Settled t) : (e.iterate t).Settles t := by
  rcases h.sound.iterate_cases with hsolved | hleaves
  · rw [hsolved.2]
    exact h
  · obtain ⟨position, delta, hposition, hdelta, hviolated, heq⟩ := hleaves
    rw [heq]
    obtain ⟨e', hsame, hcases⟩ := h.sound.iterateAt_cases ht hposition hdelta hviolated
    have h := h.of_standing hsame
    rcases hcases with hunbounded | hlimit | hexchange
    · obtain ⟨ray, heq⟩ := hunbounded
      rw [heq]
      exact h
    · rw [hlimit]
      exact h.halted _
    · obtain ⟨x, hcolumn, hx, heq⟩ := hexchange
      obtain ⟨hsettled, hentered⟩ := h.ftranEntering ht hx.entering_lt hcolumn
      rw [heq]
      exact (hsettled.tryExchange ht hpivot hx hentered).toStep

theorem Settled.renewIfDue (h : e.Settled t) : (e.renewIfDue t).Settles t := by
  unfold Engine.renewIfDue
  split
  · exact h.toFaithful.renewAndSettle ht hpivot
  · exact h

theorem Faithful.renewIfDue (h : e.Faithful t) : (e.renewIfDue t).engine.Faithful t := by
  unfold Engine.renewIfDue
  split
  · exact (h.renewAndSettle ht hpivot).faithful
  · exact h

theorem Settled.advance (h : e.Settled t) : (e.advance t).Settles t := by
  unfold Engine.advance
  split
  · exact h.halted _
  · have hdue := h.renewIfDue ht hpivot
    generalize e.renewIfDue t = p at hdue ⊢
    cases p with
    | going e => exact Settled.iterate ht hpivot hdue
    | stopped e status => exact hdue

end Iterations

/-! ## Phases and verdicts -/

section Phases

variable (ht : t.WellFormed)

include ht

theorem Settled.enterAuxiliary (h : e.Settled t) : (e.enterAuxiliary t).Settled t :=
  h.solveValues ht (h.sound.restAuxiliary ht) ((footing_foldl_rest
    (fun e j => feasibleStatus (e.boundsOf j) (e.reducedCostOf j)) _ _).trans rfl)

theorem Settled.leaveAuxiliary (h : e.Settled t) : (e.leaveAuxiliary t).engine.Settled t := by
  have hvalues : ((e.restFinally t).solveValues t).Settled t :=
    h.solveValues ht (h.sound.restFinally ht) ((footing_foldl_rest
      (fun e j => finalStatus (e.boundsOf j) (e.reducedCostOf j)) _ _).trans
        (footing_restoreBounds e))
  rcases leaveAuxiliary_cases (t := t) e with heq | heq | heq
  · rw [heq.2]
    exact hvalues
  · rw [heq.2]
    exact hvalues.withRays _ _
  · rw [heq]
    exact (hvalues.of_standing (standing_note _ _)).settleReducedCosts ht

theorem Settled.undoRelaxations (h : e.Settled t) (hundo : e.undoRelaxations? = some e') :
    (e'.solveValues t).Settled t :=
  h.solveValues ht (h.sound.undoRelaxations hundo) (footing_undoRelaxations hundo)

theorem Settled.rejectRay (hpivot : 0 < t.parameters.pivotTolerance.value) (h : e.Settled t) :
    (e.rejectRay t).Settles t := by
  have hnote := h.of_standing (standing_note e .unboundedRayRejected)
  unfold Engine.rejectRay Engine.recover
  split
  · rename_i e' hundo
    exact hnote.undoRelaxations ht hundo
  · have hstanding := standing_countRecovery (e.note .unboundedRayRejected)
    generalize (e.note .unboundedRayRejected).countRecovery = p at hstanding ⊢
    have h := hnote.of_standing hstanding
    cases p with
    | stopped e' status => exact h.halted status
    | going e' =>
      exact (h.of_standing (standing_raiseThreshold e')).toFaithful.renewAndSettle ht hpivot

theorem Settled.withoutRelaxations (h : e.Settled t) : (e.withoutRelaxations t).Settled t := by
  unfold Engine.withoutRelaxations
  split
  · rename_i e' hundo
    have hcosts := (h.sound.undoRelaxations hundo).of_standing (standing_resetCosts (t := t) e')
    have hfooting := footing_undoRelaxations hundo
    exact h.solveValues ht hcosts hfooting
  · exact h.of_standing (standing_resetCosts e)

theorem Settled.reviewed (h : e.Settled t) : (e.reviewed t).Settled t := by
  have h := (h.withoutRelaxations ht).of_standing (standing_solveDuals (t := t) _)
  unfold Engine.reviewed
  dsimp only
  split
  · rename_i hnone
    rw [List.isEmpty_iff.mp hnone]
    exact h
  · exact h.solveValues ht h.sound.foldl_wronglyResting
      (foldl_keeps footing (fun e j => footing_of_setting (setting_flip e j)) _ _)

/-- Whatever was done to the values, they are computed anew if that can be done. -/
theorem Aligned.refreshValues (h : e.Aligned t) : (e.refreshValues t).Faithful t := by
  unfold Engine.refreshValues
  split
  · rename_i hvalid
    exact (h.solveValues ht hvalid).toFaithful
  · rename_i hvalid
    exact ⟨h, fun hc => absurd hc hvalid⟩

/-- At the end the factors and values may be used if the engine says so. -/
theorem Faithful.conclude (h : e.Faithful t) : (e.conclude t).Faithful t := by
  obtain ⟨e₁, e₂, hbounds, hundo, hstanding, -⟩ := conclude_cases (t := t) e
  have h₁ : e₁.Faithful t := by
    rcases hbounds with ⟨-, rfl⟩ | ⟨-, rfl⟩
    · exact (h.toAligned.of_footing (h.sound.restoreBounds ht)
        (footing_restoreBounds e)).refreshValues ht
    · exact h
  have h₂ : e₂.Faithful t := by
    rcases hundo with ⟨-, rfl⟩ | ⟨e', hundo, rfl⟩
    · exact h₁
    · exact (h₁.toAligned.of_footing (h₁.sound.undoRelaxations hundo)
        (footing_undoRelaxations hundo)).refreshValues ht
  exact h₂.of_standing hstanding

theorem faithful_start {basis : Basis} (hbasis : basis.Valid t.program) :
    (start t basis).Faithful t :=
  ⟨⟨sound_start ht hbasis, fun hvalid => absurd hvalid Bool.false_ne_true, rfl⟩,
    fun hvalid => absurd hvalid Bool.false_ne_true⟩

theorem Faithful.prepare (hpivot : 0 < t.parameters.pivotTolerance.value) (h : e.Faithful t) :
    (e.prepare t).Settles t := by
  refine (h.renew ht hpivot).map fun e he => ?_
  split
  · exact he.weighRows
  · exact he

end Phases

end Engine

/-! ## Runs -/

namespace Run

variable {t : Job (Exact 0)} {r : Run (Exact 0)}

/-- A run that goes on is settled, and so is one that is done, but for numerical reasons. -/
structure Settles (t : Job (Exact 0)) (r : Run (Exact 0)) : Prop where
  faithful : r.engine.Faithful t
  settled : (∀ status, r.stage ≠ .done status) → r.engine.Settled t
  halted : ∀ status, r.stage = .done status → r.engine.Halted t status

theorem settles_goTo {e : Engine (Exact 0)} (he : e.Settled t) (r : Run (Exact 0)) (stage : Stage) :
    (r.goTo e stage).Settles t :=
  ⟨he.toFaithful, fun _ => he, fun status _ => he.halted status⟩

theorem settles_done {e : Engine (Exact 0)} {status : SolveStatus} (he : e.Halted t status)
    (r : Run (Exact 0)) : (r.goTo e (.done status)).Settles t :=
  ⟨he.toFaithful, fun hne => absurd rfl (hne status), fun _ hs => Stage.done.inj hs ▸ he⟩

theorem settles_proceed {p : Progress (Exact 0)} (hp : p.Settles t) (r : Run (Exact 0))
    (stage : Stage) : (r.proceed p stage).Settles t := by
  cases p with
  | going e => exact settles_goTo hp r stage
  | stopped e status => exact settles_done hp r

section Steps

variable (ht : t.WellFormed) (hpivot : 0 < t.parameters.pivotTolerance.value)

include ht hpivot

theorem Answers.settles {r' : Run (Exact 0)} {s : Step (Exact 0)} (hs : s.Settles t)
    (hanswers : r.Answers t s r') : r'.Settles t := by
  cases hanswers with
  | next => exact settles_goTo hs r _
  | stopped => exact settles_done hs r
  | reject => exact settles_proceed (Engine.Settled.rejectRay ht hpivot hs) r _
  | accept => exact settles_goTo (Engine.Settled.withRays hs _ _) r _
  | acceptInstead => exact settles_goTo (Engine.Settled.withRays hs _ _) r _
  | leave => exact settles_goTo (Engine.Settled.leaveAuxiliary ht hs) r _
  | toReview => exact settles_goTo hs r _
  | undo _ hundo => exact settles_goTo (Engine.Settled.undoRelaxations ht hs hundo) r _
  | feasible => exact settles_goTo hs r _

theorem settles_step (h : r.Settles t) : (r.step t).Settles t := by
  by_cases hgoing : ∀ status, r.stage ≠ .done status
  · have hsettled := h.settled hgoing
    have hmoves := moves_step t r
    generalize r.step t = r' at hmoves ⊢
    cases hmoves with
    | stay => exact h
    | needsPhaseOne => exact settles_goTo hsettled r _
    | settle => exact settles_goTo (hsettled.settleReducedCosts ht) r _
    | enterAuxiliary => exact settles_goTo (hsettled.enterAuxiliary ht) r _
    | perturb => exact settles_goTo (hsettled.of_standing (Engine.standing_perturbAll _)) r _
    | enterMain => exact settles_goTo hsettled r _
    | enterFeasibility =>
      exact settles_goTo (hsettled.of_standing (Engine.standing_dropCosts _)) r _
    | review => exact settles_goTo (hsettled.reviewed ht) _ _
    | iterate _ hanswers => exact hanswers.settles ht hpivot (hsettled.advance ht hpivot)
  · obtain ⟨status, hdone⟩ := not_forall_not.mp hgoing
    rw [step_of_done hdone]
    exact h

theorem settles_iterate_step {basis : Basis} (hbasis : basis.Valid t.program) (k : Nat) :
    ((step t)^[k] (begin t basis)).Settles t := by
  induction k with
  | zero => exact settles_proceed ((Engine.faithful_start ht hbasis).prepare ht hpivot) _ _
  | succ k ih =>
    rw [Function.iterate_succ_apply']
    exact settles_step ht hpivot ih

end Steps

end Run

namespace Engine

/-- The factors make up the matrix of the basic columns. -/
def Factors (t : Job (Exact 0)) (e : Engine (Exact 0)) : Prop :=
  ∀ i p, i < t.rowCount → p < t.rowCount →
    rowsAt e.factor.lu.toRows i p = coefficient (t.column (e.basicAt p)) i

variable {t : Job (Exact 0)} {e : Engine (Exact 0)}

theorem Faithful.factors (h : e.Faithful t) (hvalid : e.factorValid = true) : e.Factors t := by
  intro i p hi hp
  have hm : e.factor.lu.m = t.rowCount := h.sound.factor.m_eq
  rw [LU.rowsAt_toRows _ (hm.symm ▸ hi) (hm.symm ▸ hp)]
  exact (h.current hvalid).matrixAt i p hi hp

end Engine

theorem Parameters.pivotTolerance_pos {p : Parameters (Exact 0)} {u : Unit}
    (h : p.validate = .ok u) : 0 < p.pivotTolerance.value :=
  (tolerances_of_validate h).2.2.2

/-- At every boundary of an iteration, after a renewal of the factors that is due
there, and when the solve is concluded there, factors that are said to be valid make
up the matrix of the basic columns.  As long as a run goes on they are valid. -/
theorem Run.factors_at_boundaries {d : Draft (Exact 0)} {lp : LinearProgram (Exact 0)}
    (hbuild : d.build = .ok lp) {basis : Basis} (hbasis : basis.validate lp = .ok ())
    {p : Parameters (Exact 0)} (hp : p.validate = .ok ()) (k : Nat) :
    let t : Job (Exact 0) := ⟨lp, p⟩
    let r := (step t)^[k] (begin t basis)
    (r.engine.factorValid = true → r.engine.Factors t) ∧
    ((r.engine.renewIfDue t).engine.factorValid = true → (r.engine.renewIfDue t).engine.Factors t) ∧
    ((r.engine.conclude t).factorValid = true → (r.engine.conclude t).Factors t) ∧
    ((∀ status, r.stage ≠ .done status) → r.engine.factorValid = true) := by
  have ht := Job.wellFormed_of_build d.canonical_exact hbuild hp
  have hpivot := Parameters.pivotTolerance_pos hp
  have hrun := settles_iterate_step ht hpivot (Basis.valid_of_validate ht.program hbasis) k
  refine ⟨hrun.faithful.factors, ?_, (hrun.faithful.conclude ht).factors,
    fun hgoes => (hrun.settled hgoes).valid⟩
  exact (hrun.faithful.renewIfDue ht hpivot).factors

/-- After the first basis change, which has updated the factors. -/
theorem Run.factors_at_boundaries_triangle : ∃ lp, Draft.triangle.build = .ok lp ∧
    (Basis.slack lp).validate lp = .ok () ∧
    ((step ⟨lp, .default⟩)^[3] (begin ⟨lp, .default⟩ (Basis.slack lp))).engine.factor.updateCount =
      1 ∧
    ((step ⟨lp, .default⟩)^[3] (begin ⟨lp, .default⟩ (Basis.slack lp))).engine.Factors
      ⟨lp, .default⟩ := by
  obtain ⟨lp, hbuild, hrun⟩ := exists_of_any_toOption (x := Draft.triangle.build)
    (P := fun lp => ((Basis.slack lp).validate lp).toOption.isSome &&
      (((step ⟨lp, .default⟩)^[3] (begin ⟨lp, .default⟩ (Basis.slack lp))).engine.factorValid &&
      ((step ⟨lp, .default⟩)^[3]
        (begin ⟨lp, .default⟩ (Basis.slack lp))).engine.factor.updateCount == 1))
    (by decide +kernel)
  rw [Bool.and_eq_true, Bool.and_eq_true] at hrun
  have hbasis := eq_ok_of_isSome hrun.1
  exact ⟨lp, hbuild, hbasis, eq_of_beq hrun.2.2,
    (factors_at_boundaries hbuild hbasis Parameters.validate_default 3).1 hrun.2.1⟩

end DualSimplex
