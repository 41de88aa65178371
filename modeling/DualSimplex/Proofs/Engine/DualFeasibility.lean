import DualSimplex.Proofs.Engine.DualStep
import DualSimplex.Proofs.Engine.Optimality
import DualSimplex.Proofs.Engine.SolvedValues
import DualSimplex.Proofs.Engine.Widened

/-!
# Reduced costs of the right sign

A renewal puts the reduced costs of the wrong sign right, a perturbation makes none of
them worse, and a bound that is brought back after it was relaxed leaves its variable
where it is.  So only the basis changes count, each with the length of its step.
-/

namespace DualSimplex

open Scalar Exact

namespace Engine

variable {t : Job (Exact 0)} {e e' : Engine (Exact 0)}

/-! ## Reduced costs put right -/

/-- What is done about a reduced cost of the wrong sign. -/
def settle (e : Engine (Exact 0)) (j : Nat) : Engine (Exact 0) :=
  if e.hasTwoBounds j then e.flip j else e.adjustCost j

theorem Sound.settle (h : e.Sound t) {j : Nat} (hj : j < t.size)
    (hwrong : 0 < (e.dualInfeasibility j).value) : (e.settle j).Sound t ∧
      ∀ k, ((e.settle j).dualInfeasibility k).value =
        if j = k then 0 else (e.dualInfeasibility k).value := by
  unfold Engine.settle
  split
  · rename_i hboxed
    refine ⟨h.flip hboxed, fun k => ?_⟩
    unfold dualInfeasibility
    rw [statusOf_flip h.toShaped hj]
    split
    · rename_i hjk
      subst hjk
      exact dualInfeasibility_opposite (h.statusOf_ne_free hboxed) hwrong
    · rfl
  · refine ⟨h.of_standing (standing_adjustCost e j), fun k => ?_⟩
    unfold dualInfeasibility reducedCostOf Engine.adjustCost
    dsimp only
    split
    · rename_i hjk
      subst hjk
      refine VariableStatus.value_dualInfeasibility_of_zero ?_
      by_cases hlt : j < e.reducedCost.size
      · rw [getD_setIfInBounds_self hlt]
        rfl
      · rw [getD_of_size_le (Array.size_setIfInBounds.trans_le (not_lt.mp hlt))]
        rfl
    · rename_i hjk
      rw [getD_setIfInBounds_ne hjk]
      rfl

theorem Sound.foldl_settle (h : e.Sound t) {l : List Nat} (hnodup : l.Nodup)
    (hl : ∀ j ∈ l, j < t.size ∧ 0 < (e.dualInfeasibility j).value) :
    (l.foldl Engine.settle e).Sound t ∧ ∀ k, ((l.foldl Engine.settle e).dualInfeasibility k).value =
      if k ∈ l then 0 else (e.dualInfeasibility k).value :=
  foldl_distinct (Sound t) (fun e k => (e.dualInfeasibility k).value) (fun _ => 0) hnodup h
    fun _ he j hj hsame => he.settle (hl j hj).1 (hsame ▸ (hl j hj).2)

/-- Reduced costs that have been put right are within the tolerance. -/
theorem Sound.dualWithin_settleReducedCosts (h : e.Sound t)
    (hdual : 0 < t.parameters.dualTolerance.value) :
    (e.settleReducedCosts t).DualWithin t.parameters.dualTolerance.value := by
  have hnodup : (e.dualInfeasible t).Nodup := List.nodup_range.filter _
  obtain ⟨hsound, hvalue⟩ := h.foldl_settle hnodup fun j hj =>
    ⟨(mem_dualInfeasible.mp hj).1, hdual.trans (mem_dualInfeasible.mp hj).2⟩
  have hwithin : ((e.dualInfeasible t).foldl Engine.settle e).DualWithin
      t.parameters.dualTolerance.value := by
    refine hsound.dualWithin_of_lt hdual.le fun j hj => ?_
    rw [hvalue]
    split
    · exact hdual.le
    · rename_i hright
      exact not_lt.mp fun hlt => hright (mem_dualInfeasible.mpr ⟨hj, hlt⟩)
  unfold Engine.settleReducedCosts
  dsimp only
  split
  · rename_i hnone
    rw [List.isEmpty_iff.mp hnone] at hwithin
    exact hwithin
  · split
    · refine DualWithin.congr (e := (e.dualInfeasible t).foldl Engine.settle e) hwithin
        (fun j => ?_) ?_
      · exact statusOf_congr (status_solveValues _) j
      · exact congrArg (fun prices => prices.2.2) (pricing_solveValues (t := t) _)
    · exact hwithin

/-! ## Perturbed costs -/

theorem mul_of_perturbationDirection {s : VariableStatus} {direction : Exact 0} {m : ℚ}
    (h : perturbationDirection? s = some direction) (hm : s.Moves m) : m * direction.value = 1 := by
  cases s with
  | atLower =>
    obtain rfl := Option.some.inj h
    obtain rfl : m = 1 := hm
    exact one_mul 1
  | atUpper =>
    obtain rfl := Option.some.inj h
    obtain rfl : m = -1 := hm
    exact (neg_mul_neg 1 1).trans (one_mul 1)
  | basic | fixed | free => exact absurd h nofun

theorem perturbation_nonneg (e : Engine (Exact 0)) (j : Nat) :
    0 ≤ (leastPerturbation : Exact 0).value *
      (1 + (e.random.fraction : Exact 0 × Random).1.value) *
      (1 + (magnitude (e.costOf j)).value) := by
  have hleast : 0 ≤ (leastPerturbation : Exact 0).value := by
    show (0 : ℚ) ≤ 5e-8
    norm_num
  have hfraction : 0 ≤ (e.random.fraction : Exact 0 × Random).1.value :=
    div_nonneg (Nat.cast_nonneg _) (Nat.cast_nonneg _)
  have hcost : 0 ≤ (magnitude (e.costOf j)).value := (abs_nonneg _).trans_eq (Exact.abs_eq _).symm
  exact mul_nonneg (mul_nonneg hleast (by linarith)) (by linarith)

/-- A perturbation moves a reduced cost away from the wrong sign. -/
theorem le_perturb {j k : Nat} {m : ℚ} (hm : (e.statusOf k).Moves m) :
    m * (e.reducedCostOf k).value ≤ m * ((e.perturb j).reducedCostOf k).value := by
  unfold Engine.perturb
  split
  · exact le_rfl
  · rename_i direction hdirection
    show m * (e.reducedCost.getD k 0).value ≤ m * ((e.reducedCost.modify j
      (· + direction * leastPerturbation * (1 + (e.random.fraction).1) *
        (1 + magnitude (e.costOf j)))).getD k 0).value
    rw [getD_modify]
    split
    · rename_i hjk
      rw [← hjk.1] at hm
      have hsign := mul_of_perturbationDirection hdirection hm
      have hchange : m * (direction.value * (leastPerturbation : Exact 0).value *
          (1 + (e.random.fraction : Exact 0 × Random).1.value) *
          (1 + (magnitude (e.costOf j)).value)) = m * direction.value *
        ((leastPerturbation : Exact 0).value *
          (1 + (e.random.fraction : Exact 0 × Random).1.value) *
          (1 + (magnitude (e.costOf j)).value)) := by ring
      rw [value_add, value_mul, value_mul, value_mul, value_add, value_add, value_one, mul_add,
        hchange, hsign, one_mul]
      exact le_add_of_nonneg_right (perturbation_nonneg e j)
    · exact le_rfl

theorem DualWithin.perturbAll {limit : ℚ} (h : e.DualWithin limit) :
    (e.perturbAll t).DualWithin limit := by
  have hfold : (t.indices.foldl Engine.perturb e).DualWithin limit := by
    refine List.foldlRecOn t.indices Engine.perturb (motive := fun e' => e'.DualWithin limit) h
      fun e' he' j _ => (dualWithin_iff h.nonneg).mpr fun k m hm => ?_
    rw [statusOf_congr (status_congr (standing_perturb e' j))] at hm
    exact ((dualWithin_iff h.nonneg).mp he' k m hm).trans (le_perturb hm)
  exact hfold

/-! ## Dual feasible engines -/

/-- What the signs of the reduced costs depend on, and what relaxations are taken back
to. -/
def stance (e : Engine (Exact 0)) : (Array (Interval (Exact 0)) × List (Nat × Interval (Exact 0))) ×
    Array VariableStatus × Array (Exact 0) :=
  ((e.bounds, e.relaxed), e.status, e.reducedCost)

/-- The reduced costs are of the right sign up to a limit, and taking relaxations back
does not change that. -/
structure DualFeasible (t : Job (Exact 0)) (limit : ℚ) (e : Engine (Exact 0)) : Prop where
  sound : e.Sound t
  widened : e.Widened
  within : e.DualWithin limit

variable {limit : ℚ}

theorem DualFeasible.mono {limit' : ℚ} (h : e.DualFeasible t limit) (hle : limit ≤ limit') :
    e.DualFeasible t limit' :=
  ⟨h.sound, h.widened, h.within.mono hle⟩

theorem DualFeasible.of_stance (h : e.DualFeasible t limit) (hsound : e'.Sound t)
    (hstance : e'.stance = e.stance) : e'.DualFeasible t limit where
  sound := hsound
  widened := h.widened.congr (congrArg (fun s => s.1.1) hstance) (congrArg (fun s => s.1.2) hstance)
  within := h.within.congr (statusOf_congr (congrArg (fun s => s.2.1) hstance))
    (congrArg (fun s => s.2.2) hstance)

theorem DualFeasible.of_standing (h : e.DualFeasible t limit) (hstanding : e'.standing = e.standing)
    (hreduced : e'.reducedCost = e.reducedCost) : e'.DualFeasible t limit where
  sound := h.sound.of_standing hstanding
  widened := h.widened.of_setting (setting_congr hstanding)
  within := h.within.congr (statusOf_congr (status_congr hstanding)) hreduced

theorem DualFeasible.solveValues (h : e.DualFeasible t limit) :
    (e.solveValues t).DualFeasible t limit := by
  refine h.of_stance h.sound.solveValues ?_
  rw [solveValues_eq]
  rfl

theorem DualFeasible.weighRows (h : e.DualFeasible t limit) :
    (e.weighRows t).DualFeasible t limit :=
  h.of_stance h.sound.weighRows (weighRows_keeps stance (fun _ _ => rfl) (fun _ _ => rfl) e)

theorem DualFeasible.perturbAll (h : e.DualFeasible t limit) :
    (e.perturbAll t).DualFeasible t limit where
  sound := h.sound.of_standing (standing_perturbAll e)
  widened := h.widened.of_setting (setting_congr (standing_perturbAll e))
  within := h.within.perturbAll

theorem DualFeasible.relaxBound (h : e.DualFeasible t limit) {j : Nat}
    (hj : e.statusOf j = .basic) : (e.relaxBound j).DualFeasible t limit where
  sound := h.sound.relaxBound hj
  widened := h.widened.relaxBound (h.sound.proper j)
  within := h.within.congr (statusOf_congr (duals_relaxBound e j).1) (duals_relaxBound e j).2

theorem DualFeasible.foldl_relaxBound (h : e.DualFeasible t limit) {l : List Nat}
    (hl : ∀ j ∈ l, j ∈ e.basicIndex.toList) :
    (l.foldl Engine.relaxBound e).DualFeasible t limit := by
  induction l generalizing e with
  | nil => exact h
  | cons j l ih =>
    have hj := hl j List.mem_cons_self
    refine ih (h.relaxBound ((h.sound.mem_iff j (h.sound.lt j hj)).mp hj)) fun k hk => ?_
    rw [basicIndex_relaxBound]
    exact hl k (List.mem_cons_of_mem j hk)

theorem DualFeasible.undoRelaxations (h : e.DualFeasible t limit)
    (hundo : e.undoRelaxations? = some e') : e'.DualFeasible t limit := by
  obtain ⟨hwidened, hstatus, hreduced⟩ := h.widened.undoRelaxations h.sound hundo
  exact ⟨h.sound.undoRelaxations hundo, hwidened, h.within.congr hstatus hreduced⟩

end Engine

/-! ## Steps that may have to give up -/

/-- A step that has not given up for numerical reasons is dual feasible. -/
def Progress.DualFeasible (t : Job (Exact 0)) (limit : ℚ) : Progress (Exact 0) → Prop
  | .going e => e.DualFeasible t limit
  | .stopped e status => status ≠ .numericalError → e.DualFeasible t limit

def Step.DualFeasible (t : Job (Exact 0)) (limit : ℚ) : Step (Exact 0) → Prop
  | .next e => e.DualFeasible t limit
  | .solved e => e.DualFeasible t limit
  | .unbounded e _ => e.DualFeasible t limit
  | .stopped e status => status ≠ .numericalError → e.DualFeasible t limit

namespace Progress

variable {t : Job (Exact 0)} {limit : ℚ} {p : Progress (Exact 0)}

theorem DualFeasible.mono {limit' : ℚ} (h : p.DualFeasible t limit) (hle : limit ≤ limit') :
    p.DualFeasible t limit' := by
  cases p with
  | going e => exact Engine.DualFeasible.mono h hle
  | stopped e status => exact fun hstatus => (h hstatus).mono hle

theorem DualFeasible.andThen (hp : p.DualFeasible t limit)
    {f : Engine (Exact 0) → Progress (Exact 0)}
    (hf : ∀ e : Engine (Exact 0), e.DualFeasible t limit → (f e).DualFeasible t limit) :
    (p.andThen f).DualFeasible t limit := by
  cases p with
  | going e => exact hf e hp
  | stopped e status => exact hp

theorem DualFeasible.map (hp : p.DualFeasible t limit) {f : Engine (Exact 0) → Engine (Exact 0)}
    (hf : ∀ e : Engine (Exact 0), e.DualFeasible t limit → (f e).DualFeasible t limit) :
    (p.map f).DualFeasible t limit :=
  hp.andThen hf

theorem DualFeasible.toStep (hp : p.DualFeasible t limit) : p.toStep.DualFeasible t limit := by
  cases p with
  | going e => exact hp
  | stopped e status => exact hp

end Progress

namespace Engine

variable {t : Job (Exact 0)} {e e' : Engine (Exact 0)} {x : Exchange (Exact 0)} {limit : ℚ}
  (ht : t.WellFormed) (hdual : 0 < t.parameters.dualTolerance.value)

include ht hdual

/-- A renewal does not depend on what the reduced costs were. -/
theorem Sound.dualFeasible_renewAndSettle (h : e.Sound t) (hwidened : e.Widened) :
    (e.renewAndSettle t).DualFeasible t t.parameters.dualTolerance.value := by
  have hsound := h.renew ht
  have hkeeps := renew_keeps (t := t) (fun e => (e.bounds, e.relaxed))
    (fun _ _ hs => congr (congrArg Prod.mk (bounds_congr hs)) (relaxed_congr hs))
    (fun _ _ _ _ _ => rfl) e
  unfold Engine.renewAndSettle
  generalize e.renew t = p at hsound hkeeps ⊢
  cases p with
  | stopped e' status => exact fun hstatus => absurd hkeeps.2 hstatus
  | going e' =>
    have hsound : e'.Sound t := hsound
    have hwidened : e'.Widened :=
      hwidened.congr (congrArg Prod.fst hkeeps) (congrArg Prod.snd hkeeps)
    exact ⟨hsound.settleReducedCosts, hwidened.of_setting (setting_settleReducedCosts e'),
      hsound.dualWithin_settleReducedCosts hdual⟩

theorem Sound.dualFeasible_leaveCycle (h : e.Sound t) (hwidened : e.Widened) :
    (e.leaveCycle t).DualFeasible t t.parameters.dualTolerance.value := by
  refine (dualFeasible_renewAndSettle ht hdual (h.of_standing (standing_note e .cycleDetected))
    (hwidened.of_setting (setting_congr (standing_note e .cycleDetected)))).map fun e he => ?_
  split
  · exact he.perturbAll
  · exact he.foldl_relaxBound fun j hj => he.sound.mem_slightlyInfeasible hj

omit ht hdual in
theorem DualFeasible.countRecovery (h : e.DualFeasible t limit) :
    e.countRecovery.DualFeasible t limit := by
  have hcounted : ({ e with recoveries := e.recoveries + 1 } : Engine (Exact 0)).DualFeasible t
      limit := h.of_standing rfl rfl
  unfold Engine.countRecovery
  dsimp only
  split
  · exact fun _ => hcounted
  · exact hcounted

section Limit

variable (hlimit : t.parameters.dualTolerance.value ≤ limit)

include hlimit

theorem DualFeasible.renewAndSettle (h : e.DualFeasible t limit) :
    (e.renewAndSettle t).DualFeasible t limit :=
  (h.sound.dualFeasible_renewAndSettle ht hdual h.widened).mono hlimit

theorem DualFeasible.updateFactor (h : e.DualFeasible t limit)
    (hposition : x.position < t.rowCount) (quality : WeightQuality) :
    (e.updateFactor t x quality).DualFeasible t limit := by
  unfold Engine.updateFactor
  split
  · rename_i factor hfactor
    have hnew : ({ e with factor := factor } : Engine (Exact 0)).DualFeasible t limit :=
      h.of_stance (h.sound.withFactor (h.sound.factor.update hposition hfactor)) rfl
    show Engine.DualFeasible t limit (if _ then _ else _)
    split
    · exact hnew.weighRows
    · exact hnew
  · have hnoted := h.sound.of_standing (standing_note e .updateSingular)
    exact ((hnoted.withFactorValid false).dualFeasible_renewAndSettle ht hdual
      (h.widened.congr rfl rfl)).mono hlimit

theorem DualFeasible.watchCycle (h : e.DualFeasible t limit) (entering : Nat) :
    (e.watchCycle t entering).DualFeasible t limit := by
  have hrecorded : ({ e with
      history := (e.history.record entering).1 } : Engine (Exact 0)).DualFeasible t limit :=
    h.of_standing rfl rfl
  unfold Engine.watchCycle
  dsimp only
  split
  · exact (hrecorded.sound.dualFeasible_leaveCycle ht hdual hrecorded.widened).mono hlimit
  · exact hrecorded

/-- Whatever is done after a basis change, the reduced costs that it has led to are the
worst. -/
theorem DualFeasible.performExchange (h : (e.applyExchange t x).1.DualFeasible t limit)
    (hposition : x.position < t.rowCount) : (e.performExchange t x).DualFeasible t limit := by
  refine ((h.updateFactor ht hdual hlimit hposition (e.applyExchange t x).2).map
    fun e he => ?_).andThen fun e he => he.watchCycle ht hdual hlimit x.entering
  refine he.of_standing (standing_traceObjective e) ?_
  unfold Engine.traceObjective
  split
  · rfl
  · rfl

theorem DualFeasible.tryExchange_of_not_accepted (h : e.DualFeasible t limit) (hx : e.Fits t x)
    (hrejected : accept? t e x = none) : (e.tryExchange t x).DualFeasible t limit := by
  have hnoted := h.of_standing (standing_note e .pivotMismatch) rfl
  rcases Engine.tryExchange_of_not_accepted hrejected with heq | heq
  · rw [heq]
    exact hnoted.renewAndSettle ht hdual hlimit
  · rw [heq]
    have hbasic : (e.note .pivotMismatch).statusOf x.leaving = .basic := by
      rw [hx.leaving_eq]
      exact hnoted.sound.statusOf_basicAt hx.position_lt
    have hstanding := standing_countRecovery (e.note .pivotMismatch)
    have hcounted := hnoted.countRecovery
    generalize (e.note .pivotMismatch).countRecovery = p at hstanding hcounted ⊢
    cases p with
    | stopped e' status => exact hcounted
    | going e' =>
      have hstatus := statusOf_congr (status_congr hstanding) x.leaving
      exact Engine.DualFeasible.relaxBound hcounted (hstatus.trans hbasic)

theorem DualFeasible.renewIfDue (h : e.DualFeasible t limit) :
    (e.renewIfDue t).DualFeasible t limit := by
  unfold Engine.renewIfDue
  split
  · exact h.renewAndSettle ht hdual hlimit
  · exact h

theorem DualFeasible.rejectRay (h : e.DualFeasible t limit) :
    (e.rejectRay t).DualFeasible t limit := by
  have hnoted := h.of_standing (standing_note e .unboundedRayRejected) rfl
  unfold Engine.rejectRay Engine.recover
  split
  · rename_i e' hundo
    exact (hnoted.undoRelaxations hundo).solveValues
  · refine hnoted.countRecovery.andThen fun e he => ?_
    have hstanding := standing_raiseThreshold e
    exact ((he.sound.of_standing hstanding).dualFeasible_renewAndSettle ht hdual
      (he.widened.of_setting (setting_congr hstanding))).mono hlimit

end Limit

/-! ## Iterations -/

/-- The length of the dual step that is taken on the way to the next boundary. -/
def pivotLength (t : Job (Exact 0)) (e : Engine (Exact 0)) : ℚ :=
  match e.pivot? t with
  | some (_, x) => x.step.value
  | none => 0

omit hdual in
theorem Sound.pivotLength_nonneg (h : e.Sound t) : 0 ≤ e.pivotLength t := by
  unfold pivotLength
  cases hchange : e.pivot? t with
  | some change =>
    obtain ⟨e₁, e₂, -, hdecided, -⟩ := h.of_pivot ht hchange
    exact hdecided.step_nonneg
  | none => exact le_rfl

/-- Without a basis change an iteration leaves the reduced costs alone or renews them. -/
theorem DualFeasible.iterate_of_not_accepted (h : e.DualFeasible t limit)
    (hlimit : t.parameters.dualTolerance.value ≤ limit)
    (hnone : ∀ tried, e.exchange? t = some tried → accept? t tried.1 tried.2 = none) :
    (e.iterate t).DualFeasible t limit := by
  cases htried : e.exchange? t with
  | none =>
    have hpriced : ∀ position, (e.priceRow t position).1.DualFeasible t limit := fun position =>
      h.of_standing ((standing_price _ _).trans (standing_inverseRow e position)) rfl
    rcases iterate_of_exchange_eq_none htried with heq | ⟨position, ⟨ray, heq⟩ | heq⟩
    · rw [heq]
      exact h
    · rw [heq]
      exact hpriced position
    · rw [heq]
      exact fun _ => hpriced position
  | some tried =>
    obtain ⟨e₂, x⟩ := tried
    have hdecided := h.sound.decided_of_exchange ht htried
    have hfeasible : e₂.DualFeasible t limit := by
      have hsound : ((e.priceRow t x.position).1.ftranEntering t x.entering).1.Sound t :=
        ((h.sound.of_standing ((standing_price _ _).trans
          (standing_inverseRow e x.position))).ftranEntering ht hdecided.fits.entering_lt).1
      rw [hdecided.engine_eq]
      exact h.of_stance hsound rfl
    have hrejected : accept? t e₂ x = none := hnone (e₂, x) htried
    rw [iterate_of_exchange htried]
    exact (hfeasible.tryExchange_of_not_accepted ht hdual hlimit hdecided.fits hrejected).toStep

section Advance

variable (hpivot : 0 < t.parameters.pivotTolerance.value) (h : e.DualFeasible t limit)
  (hlimit : t.parameters.dualTolerance.value ≤ limit)

include hpivot h hlimit

/-- With a basis change the reduced costs get worse by the pivot tolerance for each unit of
its step at most. -/
theorem DualFeasible.advance_of_pivot (hsettled : e.Settled t)
    (hchange : e.pivot? t = some (e', x)) : (e.advance t).DualFeasible t
      (limit + t.parameters.pivotTolerance.value * x.step.value) := by
  obtain ⟨e₁, e₂, hdue, hdecided, hengine, -, hadvance⟩ := h.sound.of_pivot ht hchange
  obtain ⟨hsettled', hfits, -, -⟩ := hsettled.of_pivot ht hpivot hchange
  have hrenewed : (Progress.going e₁).DualFeasible t limit := hdue ▸ h.renewIfDue ht hdual hlimit
  have hsettled₁ : (Progress.going e₁).Settles t := hdue ▸ hsettled.renewIfDue ht hpivot
  have hrenewed : e₁.DualFeasible t limit := hrenewed
  have hsettled₁ : e₁.Settled t := hsettled₁
  have hstance : e'.stance = e₁.stance := by
    have hsame : e₂.stance = e₁.stance := by
      rw [hdecided.engine_eq]
      rfl
    rcases hengine with rfl | rfl
    · exact hsame
    · exact hsame
  have hlisted : x.row.Listed t := by
    rw [hdecided.row_eq]
    exact (hsettled₁.current hsettled₁.valid).listed_priceRow ht hsettled₁.sound hfits.position_lt
  have hwithin := hdecided.dualWithin hpivot.le hlisted ht hsettled'.sound hfits
    (congrArg (fun s => s.2.1) hstance) (congrArg (fun s => s.2.2) hstance) hlimit hrenewed.within
  have hwidened : e'.Widened := hrenewed.widened.congr (congrArg (fun s => s.1.1) hstance)
    (congrArg (fun s => s.1.2) hstance)
  have hsetting := setting_applyExchange ht hsettled'.sound hfits
  have hgrown : t.parameters.dualTolerance.value ≤
      limit + t.parameters.pivotTolerance.value * x.step.value :=
    le_add_of_le_of_nonneg hlimit (mul_nonneg hpivot.le hdecided.step_nonneg)
  rw [hadvance]
  exact (DualFeasible.performExchange ht hdual hgrown
    ⟨hsettled'.sound.applyExchange ht hfits, hwidened.congr (congrArg Setting.bounds hsetting)
      (congrArg Setting.relaxed hsetting), hwithin⟩ hfits.position_lt).toStep

omit hpivot in
theorem DualFeasible.advance_of_pivot_eq_none (hnone : e.pivot? t = none) :
    (e.advance t).DualFeasible t limit := by
  have hrenewed := h.renewIfDue ht hdual hlimit
  unfold pivot? at hnone
  unfold Engine.advance
  generalize e.renewIfDue t = p at hrenewed hnone ⊢
  cases hstop : limitReached? t with
  | some status => exact fun _ => h
  | none =>
    rw [hstop] at hnone
    cases p with
    | stopped e' status => exact hrenewed
    | going e₁ =>
      refine DualFeasible.iterate_of_not_accepted ht hdual hrenewed hlimit fun tried htried => ?_
      exact Option.map_eq_none_iff.mp (Option.bind_eq_none_iff.mp hnone tried htried)

theorem DualFeasible.advance (hsettled : e.Settled t) : (e.advance t).DualFeasible t
    (limit + t.parameters.pivotTolerance.value * e.pivotLength t) := by
  unfold pivotLength
  cases hchange : e.pivot? t with
  | some change => exact h.advance_of_pivot ht hdual hpivot hlimit hsettled hchange
  | none =>
    rw [mul_zero, add_zero]
    exact h.advance_of_pivot_eq_none ht hdual hlimit hchange

end Advance

end Engine
end DualSimplex
