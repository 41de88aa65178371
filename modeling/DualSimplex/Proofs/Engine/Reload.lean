import DualSimplex.Proofs.Engine.Records
import DualSimplex.Proofs.Engine.Tallied

/-!
# Starting from an optimal basis

A solve that starts from the basis of an optimal solution comes back to that solution without a
basis change.  The basis is factored in another order, the costs may be perturbed on the way, and
the factors may be renewed, but with exact numbers the statuses of the variables leave no choice
of the values, and together with the costs none of the duals.
-/

namespace DualSimplex

open Scalar Exact

/-! ## Factoring at the first attempt -/

namespace FactoredBasis

variable {α : Type} [Scalar α] {f f' : FactoredBasis α} {columns : List (List (Nat × α))}

/-- One attempt at factoring a matrix is enough. -/
def Accepts (f : FactoredBasis α) (columns : List (List (Nat × α))) : Prop :=
  ∃ factor summary, f.factorAnew columns = (factor, .ok summary) ∧
    (Engine.tolerableResidual < factor.residual columns → factor.raise? = none)

/-- How a matrix is factored does not depend on the factors from before. -/
theorem Accepts.congr (h : f.Accepts columns) (hthreshold : f'.threshold = f.threshold)
    (hparameters : f'.parameters = f.parameters) : f'.Accepts columns := by
  obtain ⟨factor, summary, hfactor, hresidual⟩ := h
  obtain ⟨lu, hlu, hgrowth, rfl⟩ := of_factorAnew_ok hfactor
  rw [raise_eq_none_iff] at hresidual hgrowth
  rw [← hthreshold, ← hparameters] at hlu hgrowth
  refine ⟨_, summary, factorAnew_ok hlu fun hlarge => raise_eq_none_iff.mpr (hgrowth hlarge),
    fun hlarge => raise_eq_none_iff.mpr ?_⟩
  show f'.parameters.thresholdCeiling ≤ f'.threshold
  rw [hthreshold, hparameters]
  exact hresidual hlarge

end FactoredBasis

namespace Engine

section Factoring

variable {α : Type} [Scalar α] {t : Job α} {e e' : Engine α}

/-- Where the variables stand, the bounds that they have, and what has been recorded. -/
def pose (e : Engine α) : (Array VariableStatus × Array Nat) ×
    (Array (Interval α) × List (Nat × Interval α) × Phase) × Nat × List α :=
  ((e.status, e.basicIndex), (e.bounds, e.relaxed, e.phase), e.records)

/-- The pose, and what decides how the basis is factored. -/
def hold (e : Engine α) : ((Array VariableStatus × Array Nat) ×
    (Array (Interval α) × List (Nat × Interval α) × Phase) × Nat × List α) × α × FactorPolicy α :=
  (e.pose, e.factor.threshold, e.factor.parameters)

/-- The basis would be factored at the first attempt. -/
def Firm (t : Job α) (e : Engine α) : Prop :=
  e.factor.Accepts (e.basisMatrix t)

theorem Firm.of_hold (h : e.Firm t) (hhold : e'.hold = e.hold) : e'.Firm t := by
  have hindex : e'.basicIndex = e.basicIndex := congrArg (fun s => s.1.1.2) hhold
  unfold Firm basisMatrix at h ⊢
  rw [hindex]
  exact h.congr (congrArg (fun s => s.2.1) hhold) (congrArg (fun s => s.2.2) hhold)

theorem accepts_attempt {summary : FactorSummary α}
    (hok : (e.factor.factorAnew (e.basisMatrix t)).2 = .ok summary)
    (hresidual : tolerableResidual < (e.attempt t).factor.residual (e.basisMatrix t) →
      (e.attempt t).factor.raise? = none) : (e.attempt t).factor.Accepts (e.basisMatrix t) := by
  obtain ⟨lu, -, -, hnew⟩ := FactoredBasis.of_factorAnew_ok
    (Prod.ext rfl hok : e.factor.factorAnew (e.basisMatrix t) = ((e.attempt t).factor, .ok summary))
  exact FactoredBasis.Accepts.congr (f := e.factor)
    ⟨(e.attempt t).factor, summary, Prod.ext rfl hok, hresidual⟩
    (by rw [hnew]; rfl) (by rw [hnew]; rfl)

/-- If a basis is factored without a repair the last attempt would have been enough. -/
theorem of_factorBasis_unrepaired {attempts : Nat} {repaired : Bool}
    (h : factorBasis t attempts repaired e = .done e' false) :
    repaired = false ∧ e'.pose = e.pose ∧ e'.Firm t := by
  have hattempts := attempts_factorBasis (t := t) attempts repaired e
  generalize factorBasis t attempts repaired e = factored at hattempts h
  induction hattempts with
  | giveUp => exact absurd h nofun
  | accept hok hsmall =>
    obtain ⟨rfl, hunrepaired⟩ := Factored.done.inj h
    exact ⟨hunrepaired, rfl, accepts_attempt hok fun hlarge => absurd hlarge hsmall⟩
  | tolerate hok _ hceiling =>
    obtain ⟨rfl, hunrepaired⟩ := Factored.done.inj h
    exact ⟨hunrepaired, rfl, accepts_attempt hok fun _ => hceiling⟩
  -- A raised threshold moves no variable.
  | raise _ _ _ _ ih => exact ih h
  | repair _ _ ih => exact absurd (ih h).1 nofun
  | escalate _ _ ih => exact ih h

theorem Firm.factorBasis (h : e.Firm t) {attempts : Nat} (hattempts : 0 < attempts)
    (repaired : Bool) : ∃ e', factorBasis t attempts repaired e = .done e' repaired := by
  obtain ⟨factor, summary, hfactor, hresidual⟩ := h
  obtain ⟨attempts, rfl⟩ : ∃ n, attempts = n + 1 := ⟨attempts - 1, by omega⟩
  unfold Engine.factorBasis
  dsimp only
  rw [hfactor]
  dsimp only
  split
  · rename_i hlarge
    rw [hresidual hlarge]
    exact ⟨_, rfl⟩
  · exact ⟨_, rfl⟩

theorem hold_solveValues (e : Engine α) : (e.solveValues t).hold = e.hold := by
  rw [solveValues_eq]
  rfl

theorem hold_weighRows (e : Engine α) : (e.weighRows t).hold = e.hold :=
  weighRows_keeps hold (fun _ _ => rfl) (fun _ _ => rfl) e

theorem hold_perturbAll (e : Engine α) : (e.perturbAll t).hold = e.hold := by
  refine foldl_keeps hold (fun e j => ?_) t.indices e
  unfold Engine.perturb
  split
  · rfl
  · rfl

end Factoring

variable {t : Job (Exact 0)} {e e' best : Engine (Exact 0)} {full : Prop}

theorem hold_renewed (e : Engine (Exact 0)) : (e.renewed t false).hold = e.hold := by
  have hduals : ∀ e : Engine (Exact 0), ((e.solveDuals t).recordResiduals t).hold = e.hold :=
    fun _ => rfl
  have hvalid : ({ e with factorValid := true } : Engine (Exact 0)).hold = e.hold := rfl
  unfold Engine.renewed
  dsimp only
  rw [if_neg Bool.false_ne_true, hduals, hold_solveValues, hvalid]

/-- A renewal that does not repair the basis leaves it where it is. -/
theorem Faithful.renew_unrepaired (ht : t.WellFormed)
    (hpivot : 0 < t.parameters.pivotTolerance.value) (h : e.Faithful t)
    (htallied : e.Tallied t full)
    (hfactored : Engine.factorBasis t maxAttempts false e = .done e' false) :
    e.renew t = .going (e'.renewed t false) ∧ (e'.renewed t false).Settled t ∧
      (e'.renewed t false).Tallied t True ∧ (e'.renewed t false).cost = e.cost ∧
      (e'.renewed t false).pose = e.pose ∧ (e'.renewed t false).Firm t := by
  obtain ⟨-, hpose, hfirm⟩ := of_factorBasis_unrepaired hfactored
  have hrenew : e.renew t = .going (e'.renewed t false) := by
    rw [renew_eq, hfactored]
  have hsettles := h.renew ht hpivot
  have htallied := h.tallied_renew ht hpivot htallied
  have hhold := hold_renewed (t := t) e'
  rw [hrenew] at hsettles htallied
  exact ⟨hrenew, hsettles, htallied.1, htallied.2, (congrArg Prod.fst hhold).trans hpose,
    hfirm.of_hold hhold⟩

/-! ## Reduced costs of the right sign -/

theorem Sound.dualWithin_of_values {limit : ℚ} (h : e'.Sound t) (hwithin : e.DualWithin limit)
    (hstatus : e'.status = e.status)
    (hreduced : ∀ j, j < t.size → (e'.reducedCostOf j).value = (e.reducedCostOf j).value) :
    e'.DualWithin limit := by
  refine h.dualWithin_of_lt hwithin.nonneg fun j hj => ?_
  have hsame : (e'.dualInfeasibility j).value = (e.dualInfeasibility j).value := by
    unfold dualInfeasibility
    rw [statusOf_congr hstatus]
    exact VariableStatus.value_dualInfeasibility_congr _ (hreduced j hj)
  rw [hsame]
  exact hwithin j

theorem DualWithin.dualInfeasible_eq_nil (h : e.DualWithin t.parameters.dualTolerance.value) :
    e.dualInfeasible t = [] :=
  List.eq_nil_iff_forall_not_mem.mpr fun j hj => (h j).not_gt (mem_dualInfeasible.mp hj).2

theorem DualWithin.settleReducedCosts (h : e.DualWithin t.parameters.dualTolerance.value) :
    e.settleReducedCosts t = e := by
  unfold Engine.settleReducedCosts
  dsimp only
  rw [h.dualInfeasible_eq_nil]
  rfl

theorem DualWithin.needsPhaseOne (h : e.DualWithin t.parameters.dualTolerance.value)
    (hdual : 0 < t.parameters.dualTolerance.value) : e.needsPhaseOne t = false := by
  refine List.any_eq_false.mpr fun j _ hneeds => ?_
  have hlimit := of_decide_eq_true (Bool.and_eq_true_iff.mp hneeds).2
  have hfactor : (adjustableFactor : Exact 0).value = 100 := by
    show (100.0 : ℚ) = 100
    norm_num
  rw [lt_iff, value_mul, hfactor] at hlimit
  have hwithin := h j
  linarith

/-! ## Engines that are optimal within the tolerances -/

/-- Values and duals are those of the program, and no violation is beyond the tolerances. -/
structure Flawless (t : Job (Exact 0)) (e : Engine (Exact 0)) : Prop where
  sound : e.Sound t
  balanced : e.Balanced t
  priced : e.Priced t
  cost : e.cost = t.costs
  bounds : e.bounds = t.bounds
  within : ∀ j, j < t.size →
    (t.boundsAt j).Within t.parameters.primalTolerance.value (e.valueOf j).value
  dual : e.DualWithin t.parameters.dualTolerance.value

/-- An engine that has no basis change behind it, in which the variables stand as in another one. -/
structure Reloaded (t : Job (Exact 0)) (best e : Engine (Exact 0)) : Prop where
  settled : e.Settled t
  tallied : e.Tallied t True
  firm : e.Firm t
  status : e.status = best.status
  bounds : e.bounds = t.bounds
  relaxed : e.relaxed = []
  phase : e.phase = .two
  records : e.records = (0, [])

/-- An engine with the duals of another one. -/
def withDuals (e best : Engine (Exact 0)) : Engine (Exact 0) :=
  { e with
    multipliers := best.multipliers
    reducedCost := best.reducedCost }

namespace Reloaded

theorem of_pose (h : Reloaded t best e) (hsettled : e'.Settled t) (htallied : e'.Tallied t True)
    (hfirm : e'.Firm t) (hpose : e'.pose = e.pose) : Reloaded t best e' where
  settled := hsettled
  tallied := htallied
  firm := hfirm
  status := (congrArg (fun s => s.1.1) hpose).trans h.status
  bounds := (congrArg (fun s => s.2.1.1) hpose).trans h.bounds
  relaxed := (congrArg (fun s => s.2.1.2.1) hpose).trans h.relaxed
  phase := (congrArg (fun s => s.2.1.2.2) hpose).trans h.phase
  records := (congrArg (fun s => s.2.2) hpose).trans h.records

theorem of_hold (h : Reloaded t best e) (hsettled : e'.Settled t) (htallied : e'.Tallied t True)
    (hhold : e'.hold = e.hold) : Reloaded t best e' :=
  h.of_pose hsettled htallied (h.firm.of_hold hhold) (congrArg Prod.fst hhold)

theorem current (h : Reloaded t best e) : e.Current t :=
  h.settled.current h.settled.valid

theorem priced (h : Reloaded t best e) : e.Priced t :=
  h.tallied.priced trivial h.settled.valid

section Best

variable (h : Reloaded t best e) (hbest : best.Flawless t)

include h hbest

theorem value_eq {j : Nat} (hj : j < t.size) : (best.valueOf j).value = (e.valueOf j).value := by
  refine h.current.values_unique h.settled.sound h.settled.balanced hbest.balanced
    (fun k hk => ?_) hj
  have hbasic : best.statusOf k ≠ .basic := by
    rwa [← statusOf_congr h.status]
  rw [beq_iff.mp ((hbest.sound.rests k).value hbasic), beq_iff.mp
    ((h.settled.sound.rests k).value hk), statusOf_congr h.status,
    boundsOf_eq_boundsAt hbest.bounds, boundsOf_eq_boundsAt h.bounds]

theorem duals_eq (hcost : e.cost = t.costs) :
    (∀ i, i < t.rowCount → arrayAt best.multipliers i = arrayAt e.multipliers i) ∧
    ∀ j, j < t.size → (best.reducedCostOf j).value = (e.reducedCostOf j).value := by
  have hpriced : (e.withDuals best).Priced t := by
    refine ⟨fun j hj => ?_, fun j hj hbasic => ?_⟩
    · refine (hbest.priced.reducedCost j hj).trans (congrArg (· - _) ?_)
      rw [costOf_congr (hbest.cost.trans hcost.symm)]
      rfl
    · refine hbest.priced.basic j hj ?_
      rwa [← statusOf_congr h.status]
  have hsound : (e.withDuals best).Sound t := h.settled.sound.of_standing rfl
  have hunique := h.current.priced_unique h.settled.sound hsound h.priced hpriced rfl rfl
  exact hunique

theorem dualWithin (hcost : e.cost = t.costs) : e.DualWithin t.parameters.dualTolerance.value :=
  h.settled.sound.dualWithin_of_values hbest.dual h.status fun j hj =>
    ((h.duals_eq hbest hcost).2 j hj).symm

theorem feasible : e.Feasible t := by
  intro x hx
  obtain ⟨j, hj, rfl⟩ := Array.mem_map.mp hx
  have hlt := h.settled.sound.lt j (Array.mem_toList_iff.mpr hj)
  have hwithin := hbest.within j hlt
  rw [h.value_eq hbest hlt, ← boundsOf_eq_boundsAt h.bounds] at hwithin
  rw [hwithin.violation_eq_zero]
  exact zero_beq_zero

end Best

/-! ## The steps of the second run -/

theorem perturbAll (h : Reloaded t best e) : Reloaded t best (e.perturbAll t) :=
  h.of_hold (h.settled.of_standing (standing_perturbAll e)) h.tallied.perturbAll
    (hold_perturbAll e)

section Steps

variable (ht : t.WellFormed)

include ht

/-- The costs of the program are taken back, and the duals computed from them. -/
theorem reprice (h : Reloaded t best e) : Reloaded t best ((resetCosts t e).solveDuals t) := by
  have hreset : (resetCosts t e).Settled t := h.settled.of_standing (standing_resetCosts e)
  exact h.of_hold (hreset.of_standing (standing_solveDuals _))
    (hreset.tallied_solveDuals ht t.size_costs) rfl

theorem conclude (h : Reloaded t best e) :
    Reloaded t best (e.conclude t) ∧ (e.conclude t).cost = t.costs := by
  rw [(conclude_of_relaxed_nil h.phase h.relaxed).2 h.settled.valid]
  exact ⟨h.reprice ht, rfl⟩

/-- Nothing is left to do when the costs have been taken back. -/
theorem review (h : Reloaded t best e) (hbest : best.Flawless t) (isLast : Bool) :
    e.review t isLast = .optimal ((resetCosts t e).solveDuals t) := by
  have hback : e.withoutRelaxations t = resetCosts t e := by
    unfold Engine.withoutRelaxations Engine.undoRelaxations?
    rw [h.relaxed]
    rfl
  have hrepriced := h.reprice ht
  have hright := (hrepriced.dualWithin hbest rfl).dualInfeasible_eq_nil
  have hfeasible : (((resetCosts t e).solveDuals t).infeasibilities t).any
      (fun x => !(x == 0)) = false :=
    Array.any_eq_false'.mpr fun x hx => by
      rw [hrepriced.feasible hbest x hx]
      exact Bool.false_ne_true
  unfold Engine.review
  dsimp only
  rw [hback, hright]
  simp only [List.filter_nil, List.any_nil, List.foldl_nil, List.isEmpty_nil, if_true]
  rw [hfeasible]
  rfl

variable (hpivot : 0 < t.parameters.pivotTolerance.value)

include hpivot

theorem renewIfDue (h : Reloaded t best e)
    (hwithin : e.DualWithin t.parameters.dualTolerance.value) :
    ∃ e', e.renewIfDue t = .going e' ∧ Reloaded t best e' := by
  unfold Engine.renewIfDue
  split
  · obtain ⟨e', hfactored⟩ : ∃ e', Engine.factorBasis t maxAttempts false e = .done e' false :=
      h.firm.factorBasis (by decide) false
    obtain ⟨hrenew, hsettled, htallied, hcost, hpose, hfirm⟩ :=
      h.settled.toFaithful.renew_unrepaired ht hpivot h.tallied hfactored
    have hrenewed := h.of_pose hsettled htallied hfirm hpose
    -- The costs may be perturbed, so that the duals are compared with those from before.
    obtain ⟨-, hreduced⟩ := h.current.priced_unique h.settled.sound hsettled.sound h.priced
      hrenewed.priced (congrArg (fun s => s.1.2) hpose) hcost
    have hright := hsettled.sound.dualWithin_of_values hwithin
      (congrArg (fun s => s.1.1) hpose) hreduced
    refine ⟨_, ?_, hrenewed⟩
    unfold Engine.renewAndSettle
    rw [hrenew]
    exact congrArg Progress.going hright.settleReducedCosts
  · exact ⟨e, rfl, h⟩

theorem advance (h : Reloaded t best e) (hbest : best.Flawless t)
    (hwithin : e.DualWithin t.parameters.dualTolerance.value) (hgoes : limitReached? t = none) :
    ∃ e', e.advance t = .solved e' ∧ Reloaded t best e' := by
  obtain ⟨e', hdue, hrenewed⟩ := h.renewIfDue ht hpivot hwithin
  refine ⟨e', ?_, hrenewed⟩
  unfold Engine.advance
  rw [hgoes, hdue]
  exact (hrenewed.feasible hbest).iterate

end Steps

end Reloaded

end Engine

/-! ## The second run -/

/-- The basis is factored from scratch without a repair. -/
def Basis.isFactored {α : Type} [Scalar α] (b : Basis) (t : Job α) : Bool :=
  match Engine.factorBasis t Engine.maxAttempts false (Engine.start t b) with
  | .done _ repaired => !repaired
  | .failed _ => false

theorem Basis.exists_of_isFactored {α : Type} [Scalar α] {b : Basis} {t : Job α}
    (h : b.isFactored t = true) : ∃ e,
      Engine.factorBasis t Engine.maxAttempts false (Engine.start t b) = .done e false := by
  unfold isFactored at h
  split at h
  · rename_i e repaired hfactored
    obtain rfl : repaired = false := Bool.not_eq_true' _ |>.mp h
    exact ⟨e, hfactored⟩
  · exact absurd h Bool.false_ne_true

namespace Run

open Engine

variable {t : Job (Exact 0)} {r : Run (Exact 0)} {best : Engine (Exact 0)} {basis : Basis}

section Start

variable (ht : t.WellFormed) (hpivot : 0 < t.parameters.pivotTolerance.value)

include ht hpivot

theorem reloaded_begin (hbasis : basis.Valid t.program)
    (hstatus : (Engine.start t basis).status = best.status) (hfactored : basis.isFactored t = true) :
    ∃ e, begin t basis = ⟨e, .start, 0⟩ ∧ Reloaded t best e ∧ e.cost = t.costs := by
  obtain ⟨e', hfactored⟩ := Basis.exists_of_isFactored hfactored
  obtain ⟨hrenew, hsettled, htallied, hcost, hpose, hfirm⟩ :=
    (faithful_start ht hbasis).renew_unrepaired ht hpivot (tallied_start t basis) hfactored
  have hrenewed : Reloaded t best (e'.renewed t false) := {
    settled := hsettled
    tallied := htallied
    firm := hfirm
    status := (congrArg (fun s => s.1.1) hpose).trans hstatus
    bounds := congrArg (fun s => s.2.1.1) hpose
    relaxed := congrArg (fun s => s.2.1.2.1) hpose
    phase := congrArg (fun s => s.2.1.2.2) hpose
    records := congrArg (fun s => s.2.2) hpose }
  have hprepare : (Engine.start t basis).prepare t = .going
      (if (e'.renewed t false).weights.areNorms &&
          (e'.renewed t false).basicIndex.any fun j => j < t.columnCount then
        (e'.renewed t false).weighRows t else e'.renewed t false) := by
    unfold Engine.prepare
    rw [hrenew]
    rfl
  have hcosts : ((e'.renewed t false).weighRows t).cost = (e'.renewed t false).cost :=
    cost_congr (ledger_weighRows _)
  unfold begin
  dsimp only
  rw [hprepare]
  refine ⟨_, rfl, ?_⟩
  split
  · exact ⟨hrenewed.of_hold hsettled.weighRows (htallied.weighRows hsettled.sound)
      (hold_weighRows _), hcosts.trans hcost⟩
  · exact ⟨hrenewed, hcost⟩

end Start

theorem step_start_of_dualWithin (hstage : r.stage = .start)
    (hdual : 0 < t.parameters.dualTolerance.value)
    (hwithin : r.engine.DualWithin t.parameters.dualTolerance.value) :
    r.step t = r.goTo r.engine .enterMain := by
  unfold step
  rw [hstage]
  dsimp only
  unfold stepStart
  rw [hwithin.needsPhaseOne hdual, hwithin.settleReducedCosts]
  rfl

section Steps

variable (ht : t.WellFormed) (h : Reloaded t best r.engine) (hbest : best.Flawless t)

include ht h hbest

end Steps

end Run

/-! ## Solutions -/

/-- Solutions with the same basis and the same numbers, marked or not. -/
structure Solution.Agrees (s s' : Solution (Exact 0)) : Prop where
  basis : s'.basis = s.basis
  columnValues : s'.columnValues.map Exact.value = s.columnValues.map Exact.value
  rowValues : s'.rowValues.map Exact.value = s.rowValues.map Exact.value
  columnDuals : s'.columnDuals.map Exact.value = s.columnDuals.map Exact.value
  rowDuals : s'.rowDuals.map Exact.value = s.rowDuals.map Exact.value
  objective : s'.objective.value = s.objective.value

end DualSimplex
