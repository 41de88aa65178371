import DualSimplex.Proofs.Engine.DualFeasibility
import DualSimplex.Proofs.Engine.DualUpdate
import DualSimplex.Proofs.Engine.ReportedEquations

/-!
# Engines whose duals are up to date

There is only one choice of the multipliers for a basis and its costs.  What an engine does
between two basis changes leaves the duals alone, changes them together with the costs, or
computes them anew.  A basis change keeps them up to date if its step is not cut off.
-/

namespace DualSimplex

open Scalar Exact

namespace Engine

variable {t : Job (Exact 0)} {e e' : Engine (Exact 0)} {x : Exchange (Exact 0)}

/-! ## Only one choice of the multipliers -/

/-- Multipliers that price a basis are the only ones, and so are the reduced costs. -/
theorem Current.priced_unique (hcurrent : e.Current t) (h : e.Sound t) (h' : e'.Sound t)
    (hpriced : e.Priced t) (hpriced' : e'.Priced t) (hindex : e'.basicIndex = e.basicIndex)
    (hcost : e'.cost = e.cost) :
    (∀ i, i < t.rowCount → arrayAt e'.multipliers i = arrayAt e.multipliers i) ∧
    ∀ j, j < t.size → (e'.reducedCostOf j).value = (e.reducedCostOf j).value := by
  have hm : e.factor.lu.m = t.rowCount := h.factor.m_eq
  have hmultipliers : ∀ i, i < t.rowCount →
      arrayAt e'.multipliers i = arrayAt e.multipliers i := by
    intro i hi
    refine sub_eq_zero.mp (hcurrent.solvable.eq_zero_of_sum_transposed_eq_zero
      (y := fun i => arrayAt e'.multipliers i - arrayAt e.multipliers i) (fun p hp => ?_)
      (hm.symm ▸ hi))
    rw [hm] at hp ⊢
    have hlt := h.basicAt_lt hp
    have hat : e'.basicAt p = e.basicAt p := by
      unfold basicAt
      rw [hindex]
    have hold := hpriced.reducedCost _ hlt
    have hnew := hpriced'.reducedCost _ hlt
    rw [hpriced.basic _ hlt (h.statusOf_basicAt hp)] at hold
    rw [hpriced'.basic _ hlt (hat ▸ h'.statusOf_basicAt hp), costOf_congr hcost] at hnew
    have hworth : t.worth (arrayAt e'.multipliers) (e.basicAt p) -
        t.worth (arrayAt e.multipliers) (e.basicAt p) = 0 := by linarith
    unfold Job.worth at hworth
    rw [← Finset.sum_sub_distrib] at hworth
    refine (Finset.sum_congr rfl fun i hi => ?_).trans hworth
    rw [hcurrent.matrixAt i p (Finset.mem_range.mp hi) hp, mul_sub]
  refine ⟨hmultipliers, fun j hj => ?_⟩
  rw [hpriced.reducedCost j hj, hpriced'.reducedCost j hj, costOf_congr hcost,
    Job.worth_congr hmultipliers]

/-- The multipliers and reduced costs go together, and they are those that would be computed
from the costs. -/
structure DualsSolved (t : Job (Exact 0)) (e : Engine (Exact 0)) : Prop where
  priced : e.Priced t
  multipliers : ∀ i, i < t.rowCount →
    arrayAt (e.solveDuals t).multipliers i = arrayAt e.multipliers i
  reducedCost : ∀ j, j < t.size →
    ((e.solveDuals t).reducedCostOf j).value = (e.reducedCostOf j).value

theorem Current.dualsSolved (hcurrent : e.Current t) (ht : t.WellFormed) (h : e.Sound t)
    (hpriced : e.Priced t) : e.DualsSolved t := by
  obtain ⟨hmultipliers, hreduced⟩ := hcurrent.priced_unique h
    (h.of_standing (standing_solveDuals (t := t) e)) hpriced (hcurrent.priced_solveDuals ht h)
    rfl rfl
  exact ⟨hpriced, hmultipliers, hreduced⟩

/-! ## Engines whose duals are up to date -/

/-- The tables are complete.  The reduced costs go with the multipliers if the factors are
valid, provided that no step has been cut off, for which `full` stands. -/
structure Tallied (t : Job (Exact 0)) (full : Prop) (e : Engine (Exact 0)) : Prop
    extends Tabled t e where
  priced : full → e.factorValid = true → e.Priced t

variable {full full' : Prop}

theorem Tallied.mono (h : e.Tallied t full) (himp : full' → full) : e.Tallied t full' :=
  ⟨h.toTabled, fun hfull => h.priced (himp hfull)⟩

/-- What the equations of the duals depend on. -/
def ledger (e : Engine (Exact 0)) :
    (Array (Exact 0) × Array (Exact 0) × Array (Exact 0)) × Array Nat :=
  (e.pricing, e.basicIndex)

theorem cost_congr (h : e'.ledger = e.ledger) : e'.cost = e.cost :=
  congrArg (fun l => l.1.1) h

theorem reducedCost_congr (h : e'.ledger = e.ledger) : e'.reducedCost = e.reducedCost :=
  congrArg (fun l => l.1.2.2) h

theorem Priced.congr (h : e.Priced t) (hsound : e.Sound t) (hsound' : e'.Sound t)
    (hledger : e'.ledger = e.ledger) : e'.Priced t := by
  have hmultipliers : e'.multipliers = e.multipliers := congrArg (fun l => l.1.2.1) hledger
  have hindex : e'.basicIndex = e.basicIndex := congrArg Prod.snd hledger
  refine ⟨fun j hj => ?_, fun j hj hbasic => ?_⟩
  · rw [reducedCostOf_congr (reducedCost_congr hledger), costOf_congr (cost_congr hledger),
      hmultipliers]
    exact h.reducedCost j hj
  · rw [reducedCostOf_congr (reducedCost_congr hledger)]
    refine h.basic j hj ((hsound.mem_iff j hj).mp ?_)
    rw [← hindex]
    exact (hsound'.mem_iff j hj).mpr hbasic

theorem Tallied.congr (h : e.Tallied t full) (hsound : e.Sound t) (hsound' : e'.Sound t)
    (hledger : e'.ledger = e.ledger) (hvalid : e'.factorValid = true → e.factorValid = true) :
    e'.Tallied t full where
  toTabled := h.toTabled.of_pricing (congrArg Prod.fst hledger)
  priced hfull hvalid' := (h.priced hfull (hvalid hvalid')).congr hsound hsound' hledger

theorem Tallied.of_standing (h : e.Tallied t full) (hsound : e.Sound t)
    (hstanding : e'.standing = e.standing) (hpricing : e'.pricing = e.pricing) :
    e'.Tallied t full := by
  have hsetting := setting_congr hstanding
  refine h.congr hsound (hsound.of_standing hstanding)
    (Prod.ext hpricing (basicIndex_congr hsetting)) fun hvalid => ?_
  exact (congrArg Setting.factorValid hsetting).symm.trans hvalid

theorem ledger_note (e : Engine (Exact 0)) (event : Difficulty) :
    (e.note event).ledger = e.ledger := rfl

theorem ledger_recordResiduals (e : Engine (Exact 0)) :
    (e.recordResiduals t).ledger = e.ledger := rfl

theorem ledger_priceRow (e : Engine (Exact 0)) (position : Nat) :
    (e.priceRow t position).1.ledger = e.ledger := rfl

theorem ledger_ftranEntering (e : Engine (Exact 0)) (j : Nat) :
    (e.ftranEntering t j).1.ledger = e.ledger := rfl

theorem Decided.ledger_eq (h : e.Decided t e' x) : e'.ledger = e.ledger := by
  rw [h.engine_eq, ledger_ftranEntering, ledger_priceRow]

theorem ledger_solveValues (e : Engine (Exact 0)) : (e.solveValues t).ledger = e.ledger := by
  rw [solveValues_eq]
  rfl

theorem ledger_weighRows (e : Engine (Exact 0)) : (e.weighRows t).ledger = e.ledger :=
  weighRows_keeps ledger (fun _ _ => rfl) (fun _ _ => rfl) e

theorem ledger_relaxBound (e : Engine (Exact 0)) (j : Nat) :
    (e.relaxBound j).ledger = e.ledger := by
  unfold Engine.relaxBound
  dsimp only
  split
  · rfl
  · split
    · rfl
    · rfl

theorem ledger_undoRelaxations (hundo : e.undoRelaxations? = some e') :
    e'.ledger = e.ledger := by
  rw [(of_undoRelaxations hundo).2]
  refine foldl_keeps ledger (fun e r => ?_) e.relaxed e
  unfold Engine.undoRelaxation
  dsimp only
  split
  · rfl
  · rfl

theorem ledger_foldl_rest (f : Engine (Exact 0) → Nat → VariableStatus) (l : List Nat)
    (e : Engine (Exact 0)) : (l.foldl (fun e j => e.rest j (f e j)) e).ledger = e.ledger :=
  foldl_keeps ledger (fun e j => show (e.rest j (f e j)).ledger = e.ledger from rfl) l e

theorem Tallied.solveValues (h : e.Tallied t full) (hsound : e.Sound t) :
    (e.solveValues t).Tallied t full :=
  h.congr hsound hsound.solveValues (ledger_solveValues e) fun hvalid =>
    (congrArg Setting.factorValid (setting_solveValues (t := t) e)).symm.trans hvalid

theorem Tallied.weighRows (h : e.Tallied t full) (hsound : e.Sound t) :
    (e.weighRows t).Tallied t full := by
  refine h.congr hsound hsound.weighRows (ledger_weighRows e) fun hvalid => ?_
  rw [← hvalid]
  exact (weighRows_keeps Engine.factorValid (fun _ _ => rfl) (fun _ _ => rfl) e).symm

/-- Whatever has happened before, duals that are computed anew are up to date. -/
theorem Settled.tallied_solveDuals (h : e.Settled t) (ht : t.WellFormed)
    (hcost : e.cost.size = t.size) : (e.solveDuals t).Tallied t full := by
  obtain ⟨hmultipliers, hreduced⟩ := h.size_duals
  exact ⟨⟨hcost, hmultipliers, hreduced⟩, fun _ _ =>
    (h.current h.valid).priced_solveDuals ht h.sound⟩

/-! ## Costs that change with the reduced costs -/

/-- The same change of a cost and of its reduced cost keeps the equations. -/
theorem Priced.of_changes (h : e.Priced t) (hstatus : e'.status = e.status)
    (hmultipliers : e'.multipliers = e.multipliers)
    (hchange : ∀ j, j < t.size → ∃ change : ℚ,
      (e'.costOf j).value = (e.costOf j).value + change ∧
      (e'.reducedCostOf j).value = (e.reducedCostOf j).value + change ∧
      (e.statusOf j = .basic → change = 0)) : e'.Priced t where
  reducedCost := by
    intro j hj
    obtain ⟨change, hcost, hreduced, -⟩ := hchange j hj
    rw [hcost, hreduced, hmultipliers, h.reducedCost j hj]
    ring
  basic := by
    intro j hj hbasic
    obtain ⟨change, -, hreduced, hzero⟩ := hchange j hj
    rw [statusOf_congr hstatus] at hbasic
    rw [hreduced, hzero hbasic, add_zero]
    exact h.basic j hj hbasic

theorem Tallied.adjustCost (h : e.Tallied t full) (j : Nat) : (e.adjustCost j).Tallied t full where
  size_cost := Array.size_modify.trans h.size_cost
  size_multipliers := h.size_multipliers
  size_reducedCost := Array.size_setIfInBounds.trans h.size_reducedCost
  priced := by
    intro hfull hvalid
    have hpriced := h.priced hfull hvalid
    refine hpriced.of_changes rfl rfl fun k hk => ?_
    by_cases hjk : j = k
    · refine ⟨-(e.reducedCostOf j).value, ?_, ?_, fun hbasic => ?_⟩
      · show ((e.cost.modify j (· - e.reducedCostOf j)).getD k 0).value = _
        rw [getD_modify, if_pos ⟨hjk, h.size_cost.symm ▸ hk⟩, value_sub, sub_eq_add_neg]
        rfl
      · show ((e.reducedCost.setIfInBounds j 0).getD k 0).value = _
        rw [getD_setIfInBounds, if_pos ⟨hjk, h.size_reducedCost.symm ▸ hk⟩, ← hjk, add_neg_cancel]
        rfl
      · rw [hjk, hpriced.basic k hk hbasic, neg_zero]
    · refine ⟨0, ?_, ?_, fun _ => rfl⟩
      · show ((e.cost.modify j (· - e.reducedCostOf j)).getD k 0).value = _
        rw [getD_modify_ne hjk, add_zero]
        rfl
      · show ((e.reducedCost.setIfInBounds j 0).getD k 0).value = _
        rw [getD_setIfInBounds_ne hjk, add_zero]
        rfl

theorem Tallied.perturb (h : e.Tallied t full) (j : Nat) : (e.perturb j).Tallied t full := by
  unfold Engine.perturb
  split
  · exact h
  · rename_i direction hdirection
    dsimp only
    generalize direction * leastPerturbation * (1 + (e.random.fraction : Exact 0 × Random).1) *
      (1 + magnitude (e.costOf j)) = change
    refine ⟨⟨Array.size_modify.trans h.size_cost, h.size_multipliers,
      Array.size_modify.trans h.size_reducedCost⟩, fun hfull hvalid => ?_⟩
    refine (h.priced hfull hvalid).of_changes rfl rfl fun k hk => ?_
    by_cases hjk : j = k
    · refine ⟨change.value, ?_, ?_, fun hbasic => ?_⟩
      · show ((e.cost.modify j (· + change)).getD k 0).value = _
        rw [getD_modify, if_pos ⟨hjk, h.size_cost.symm ▸ hk⟩, value_add]
        rfl
      · show ((e.reducedCost.modify j (· + change)).getD k 0).value = _
        rw [getD_modify, if_pos ⟨hjk, h.size_reducedCost.symm ▸ hk⟩, value_add]
        rfl
      · rw [hjk, hbasic] at hdirection
        exact absurd hdirection nofun
    · refine ⟨0, ?_, ?_, fun _ => rfl⟩
      · show ((e.cost.modify j (· + change)).getD k 0).value = _
        rw [getD_modify_ne hjk, add_zero]
        rfl
      · show ((e.reducedCost.modify j (· + change)).getD k 0).value = _
        rw [getD_modify_ne hjk, add_zero]
        rfl

theorem Tallied.perturbAll (h : e.Tallied t full) : (e.perturbAll t).Tallied t full := by
  have hfold := List.foldlRecOn t.indices Engine.perturb (motive := fun e => e.Tallied t full) h
    fun e he j _ => he.perturb j
  exact ⟨⟨hfold.size_cost, hfold.size_multipliers, hfold.size_reducedCost⟩, fun hfull hvalid =>
    ⟨(hfold.priced hfull hvalid).reducedCost, (hfold.priced hfull hvalid).basic⟩⟩

theorem Tallied.settleReducedCosts (h : e.Tallied t full) (hsound : e.Sound t) :
    (e.settleReducedCosts t).Tallied t full := by
  have hfold := List.foldlRecOn (e.dualInfeasible t) Engine.settle
    (motive := fun e => e.Sound t ∧ e.Tallied t full) ⟨hsound, h⟩ fun e he j _ => by
      unfold Engine.settle
      split
      · rename_i hboxed
        have hflipped := he.1.flip hboxed
        exact ⟨hflipped, he.2.congr he.1 hflipped rfl id⟩
      · exact ⟨he.1.of_standing (standing_adjustCost e j), he.2.adjustCost j⟩
  have hnoted := hfold.2.of_standing hfold.1
    (standing_note _ .dualInfeasibilityAfterRebuild) rfl
  unfold Engine.settleReducedCosts
  dsimp only
  split
  · exact h
  · split
    · exact hnoted.solveValues (hfold.1.of_standing (standing_note _ _))
    · exact hnoted

end Engine

theorem Progress.tallied_andThen {t : Job (Exact 0)} {full : Prop} {p : Progress (Exact 0)}
    (hp : p.engine.Tallied t full) (hsettles : p.Settles t)
    {f : Engine (Exact 0) → Progress (Exact 0)}
    (hf : ∀ e : Engine (Exact 0), e.Settled t → e.Tallied t full → (f e).engine.Tallied t full) :
    (p.andThen f).engine.Tallied t full := by
  cases p with
  | going e => exact hf e hsettles hp
  | stopped e status => exact hp

namespace Engine

variable {t : Job (Exact 0)} {e e' : Engine (Exact 0)} {x : Exchange (Exact 0)} {full : Prop}
  (ht : t.WellFormed) (hpivot : 0 < t.parameters.pivotTolerance.value)

/-! ## Renewal -/

theorem pricing_admitLogicals (e : Engine (Exact 0)) (pairs : List (Nat × Nat)) :
    (e.admitLogicals t pairs).pricing = e.pricing ∧
    (e.admitLogicals t pairs).factorValid = false := by
  unfold Engine.admitLogicals
  constructor
  · refine (foldl_keeps pricing (fun e u => ?_) _ _).trans
      (foldl_keeps pricing (fun e u => ?_) _ _)
    · rfl
    · rfl
  · refine (foldl_keeps Engine.factorValid (fun e u => ?_) _ _).trans
      (foldl_keeps Engine.factorValid (fun e u => ?_) _ _)
    · rfl
    · rfl

/-- The attempts at factoring a basis leave the duals alone.  Factors that are still said to
be valid belong to the basis from before, unless an attempt has succeeded. -/
theorem pricing_factorBasis (attempts : Nat) (repaired : Bool) (e : Engine (Exact 0)) :
    (factorBasis t attempts repaired e).Ends (fun e' => e'.pricing = e.pricing ∧
      (e'.factorValid = true → e.factorValid = true ∧ e'.basicIndex = e.basicIndex))
      fun e' => e'.pricing = e.pricing := by
  have hpricing := factorBasis_keeps (t := t) pricing (fun _ _ => rfl) (fun _ _ => rfl)
    (fun e pairs => (pricing_admitLogicals e pairs).1) (fun _ _ => rfl) attempts repaired e
  have hvalid := ends_factorBasis (t := t)
    (P := fun e' => e'.factorValid = true → e.factorValid = true ∧ e'.basicIndex = e.basicIndex)
    (Q := fun e' => e'.factorValid = true → e.factorValid = true ∧ e'.basicIndex = e.basicIndex)
    (fun e₁ e₂ hs he hvalid => ?_) (fun e₁ e₂ hs he hvalid => ?_) (fun _ he => he)
    (fun _ _ he _ => he) (fun e₁ pairs _ _ hvalid => ?_) (fun _ _ _ he _ => he) attempts repaired
    fun hvalid => ⟨hvalid, rfl⟩
  · generalize Engine.factorBasis t attempts repaired e = factored at hpricing hvalid ⊢
    cases factored with
    | failed e' => exact ⟨hpricing, hvalid⟩
    | done e' repaired => exact hpricing
  · have hsetting := setting_congr hs
    rw [basicIndex_congr hsetting]
    exact he ((congrArg Setting.factorValid hsetting).symm.trans hvalid)
  · have hsetting := setting_congr hs
    rw [basicIndex_congr hsetting]
    exact he ((congrArg Setting.factorValid hsetting).symm.trans hvalid)
  · rw [(pricing_admitLogicals _ pairs).2] at hvalid
    exact absurd hvalid Bool.false_ne_true

/-- What is computed when a basis has been factored. -/
def renewed (t : Job (Exact 0)) (e : Engine (Exact 0)) (repaired : Bool) : Engine (Exact 0) :=
  let e := ((solveValues t { e with factorValid := true }).solveDuals t).recordResiduals t
  if repaired then e.renewWeights t else e

theorem renew_eq (e : Engine (Exact 0)) : e.renew t =
    match factorBasis t maxAttempts false e with
    | .failed e => .stopped e .numericalError
    | .done e repaired => .going (e.renewed t repaired) := by
  unfold Engine.renew
  cases Engine.factorBasis t maxAttempts false e with
  | failed e => rfl
  | done e repaired => rfl

include ht in
theorem Faithful.tallied_renewed (h : e.Faithful t) (hcurrent : e.Current t)
    (hcost : e.cost.size = t.size) (repaired : Bool) :
    (e.renewed t repaired).Tallied t True ∧ (e.renewed t repaired).cost = e.cost := by
  have hvalid : Aligned t { e with factorValid := true } :=
    ⟨h.sound.withFactorValid true, fun _ => hcurrent.congr rfl rfl, h.tolerance⟩
  have hvalues := hvalid.solveValues ht rfl
  have hsame : (Engine.solveValues t { e with factorValid := true }).cost = e.cost :=
    congrArg Prod.fst (pricing_solveValues (t := t) _)
  unfold Engine.renewed
  dsimp only
  generalize Engine.solveValues t { e with factorValid := true } = e₁ at hvalues hsame ⊢
  have hduals : (e₁.solveDuals t).Tallied t True :=
    hvalues.tallied_solveDuals ht ((congrArg Array.size hsame).trans hcost)
  have hsound := hvalues.sound.of_standing (standing_solveDuals (t := t) e₁)
  have hrecorded := hsound.of_standing (standing_recordResiduals (t := t) _)
  have hrecord := hduals.congr hsound hrecorded (ledger_recordResiduals _) id
  have hsame : ((e₁.solveDuals t).recordResiduals t).cost = e.cost := hsame
  generalize (e₁.solveDuals t).recordResiduals t = e₂ at hrecord hrecorded hsame ⊢
  split
  · have hweights := hrecorded.renewWeights
    unfold Engine.renewWeights at hweights ⊢
    split
    · exact ⟨hrecord.weighRows hrecorded, (cost_congr (ledger_weighRows e₂)).trans hsame⟩
    · rename_i hnorms
      rw [if_neg hnorms] at hweights
      exact ⟨hrecord.congr hrecorded hweights rfl id, hsame⟩
  · exact ⟨hrecord, hsame⟩

section Renewal

include ht hpivot

/-- A renewal computes the duals anew, and if it is given up the duals stay. -/
theorem Faithful.tallied_renew (h : e.Faithful t) (htallied : e.Tallied t full) :
    match e.renew t with
    | .going e' => e'.Tallied t True ∧ e'.cost = e.cost
    | .stopped e' _ => e'.Tallied t full := by
  have hends := h.factorBasis ht hpivot maxAttempts false
  have hpricing := pricing_factorBasis (t := t) maxAttempts false e
  rw [renew_eq]
  generalize Engine.factorBasis t maxAttempts false e = factored at hends hpricing ⊢
  cases factored with
  | failed e₁ =>
    obtain ⟨hpricing, hbasis⟩ := hpricing
    refine ⟨htallied.toTabled.of_pricing hpricing, fun hfull hvalid => ?_⟩
    obtain ⟨hvalid, hindex⟩ := hbasis hvalid
    exact (htallied.priced hfull hvalid).congr h.sound hends.sound (Prod.ext hpricing hindex)
  | done e₁ repaired =>
    have hcost : e₁.cost = e.cost := congrArg Prod.fst (show e₁.pricing = e.pricing from hpricing)
    obtain ⟨htallied, hsame⟩ := hends.1.tallied_renewed ht hends.2
      ((congrArg Array.size hcost).trans htallied.size_cost) repaired
    exact ⟨htallied, hsame.trans hcost⟩

theorem Faithful.tallied_renewAndSettle (h : e.Faithful t) (htallied : e.Tallied t full) :
    (e.renewAndSettle t).engine.Tallied t full := by
  have hrenewed := h.tallied_renew ht hpivot htallied
  have hsettles := h.renew ht hpivot
  unfold Engine.renewAndSettle
  generalize e.renew t = p at hrenewed hsettles ⊢
  cases p with
  | stopped e' status => exact hrenewed
  | going e' =>
    have he' : e'.Settled t := hsettles
    exact (hrenewed.1.settleReducedCosts he'.sound).mono fun _ => trivial

end Renewal

/-! ## Iterations -/

theorem Tallied.relaxBound (h : e.Tallied t full) (hsound : e.Sound t) {j : Nat}
    (hj : e.statusOf j = .basic) : (e.relaxBound j).Tallied t full :=
  h.congr hsound (hsound.relaxBound hj) (ledger_relaxBound e j) fun hvalid =>
    (congrArg Footing.factorValid (footing_relaxBound e j).1).symm.trans hvalid

theorem Tallied.countRecovery (h : e.Tallied t full) (hsound : e.Sound t) :
    e.countRecovery.engine.Tallied t full := by
  refine h.of_standing hsound (standing_countRecovery e) ?_
  unfold Engine.countRecovery
  dsimp only
  split
  · rfl
  · rfl

theorem Tallied.relaxSlightly (h : e.Tallied t full) (hsound : e.Sound t) :
    ((e.slightlyInfeasible t).foldl Engine.relaxBound e).Tallied t full := by
  refine h.congr hsound hsound.relaxSlightly (foldl_keeps ledger ledger_relaxBound _ e)
    fun hvalid => ?_
  have hfooting := foldl_keeps footing (fun e j => (footing_relaxBound e j).1)
    (e.slightlyInfeasible t) e
  exact (congrArg Footing.factorValid hfooting).symm.trans hvalid

section Iterations

include ht hpivot

theorem Settled.tallied_leaveCycle (h : e.Settled t) (htallied : e.Tallied t full) :
    (e.leaveCycle t).engine.Tallied t full := by
  have hnote := h.toFaithful.of_standing (standing_note e .cycleDetected)
  refine Progress.tallied_andThen (hnote.tallied_renewAndSettle ht hpivot
    (htallied.of_standing h.sound (standing_note e _) rfl)) (hnote.renewAndSettle ht hpivot)
    fun e he htallied => ?_
  show Tallied t full (if _ then _ else _)
  split
  · exact htallied.perturbAll
  · exact htallied.relaxSlightly he.sound

/-- After a basis change its factors are brought up to date, which leaves the duals alone, or
everything is renewed. -/
theorem Settled.tallied_performExchange (h : e.Settled t) (hx : e.Fits t x)
    (hentered : e.Entered t x) (htallied : (e.applyExchange t x).1.Tallied t full) :
    (e.performExchange t x).engine.Tallied t full := by
  have hsettles := h.updateFactor ht hpivot hx hentered (e.applyExchange t x).2
  have hsound := h.sound.applyExchange ht hx
  have hdiscarded := h.discarded ht hx
  unfold Engine.performExchange
  dsimp only
  generalize (e.applyExchange t x).1 = e₁ at hsettles hsound hdiscarded htallied ⊢
  generalize (e.applyExchange t x).2 = quality at hsettles ⊢
  have hupdate : (e₁.updateFactor t x quality).engine.Tallied t full := by
    unfold Engine.updateFactor at hsettles ⊢
    split
    · rename_i factor hfactor
      have hnew : Engine.Sound t { e₁ with factor := factor } :=
        hsound.withFactor (hsound.factor.update hx.position_lt hfactor)
      have hnewTallied : Tallied t full { e₁ with factor := factor } :=
        htallied.congr hsound hnew rfl id
      show Tallied t full (if _ then _ else _)
      split
      · exact hnewTallied.weighRows hnew
      · exact hnewTallied
    · refine hdiscarded.tallied_renewAndSettle ht hpivot ⟨?_, fun _ hc => ?_⟩
      · exact htallied.toTabled.of_pricing rfl
      · exact absurd hc Bool.false_ne_true
  refine Progress.tallied_andThen (Progress.tallied_andThen hupdate hsettles
    fun e he htallied => ?_) (hsettles.map fun e he => he.of_standing (standing_traceObjective e))
    fun e he htallied => ?_
  · refine Tallied.of_standing htallied he.sound (standing_traceObjective e) ?_
    unfold Engine.traceObjective
    split
    · rfl
    · rfl
  · have hrecorded : Tallied t full { e with history := (e.history.record x.entering).1 } :=
      htallied.of_standing he.sound rfl rfl
    have he : Settled t { e with history := (e.history.record x.entering).1 } := he.of_standing rfl
    unfold Engine.watchCycle
    dsimp only
    split
    · exact he.tallied_leaveCycle ht hpivot hrecorded
    · exact hrecorded

theorem Settled.tallied_renewIfDue (h : e.Settled t) (htallied : e.Tallied t full) :
    (e.renewIfDue t).engine.Tallied t full := by
  unfold Engine.renewIfDue
  split
  · exact h.toFaithful.tallied_renewAndSettle ht hpivot htallied
  · exact htallied

/-! ## Basis changes and what is done instead -/

/-- The basis change on the way to the next boundary, if there is one, does not have a negative
ratio, for which the ratio test would cut off the step. -/
def StepsFully (t : Job (Exact 0)) (e : Engine (Exact 0)) : Prop :=
  ∀ e' x, e.pivot? t = some (e', x) → 0 ≤ x.direction.value *
    (x.row.entry t x.entering).value * (e'.reducedCostOf x.entering).value

/-- The duals of the engine that makes a basis change, and the row that it uses. -/
theorem Settled.duals_of_pivot (h : e.Settled t) (htallied : e.Tallied t full)
    (hx : e.pivot? t = some (e', x)) : e'.Tallied t full ∧ e'.Rowed t x ∧ x.flips.Nodup ∧
    (∀ j ∈ x.flips, j < t.size) ∧ ((e'.reducedCostOf x.entering).value =
        x.step.value * (x.direction.value * (x.row.entry t x.entering).value) ↔
      0 ≤ x.direction.value * (x.row.entry t x.entering).value *
        (e'.reducedCostOf x.entering).value) := by
  obtain ⟨e₁, e₂, hdue, hdecided, hengine, -, -⟩ := h.sound.of_pivot ht hx
  obtain ⟨hsettled, hfits, -, -⟩ := h.of_pivot ht hpivot hx
  have hsettled₁ : (Progress.going e₁).Settles t := hdue ▸ h.renewIfDue ht hpivot
  have hsettled₁ : e₁.Settled t := hsettled₁
  have htallied₁ : (Progress.going e₁).engine.Tallied t full :=
    hdue ▸ h.tallied_renewIfDue ht hpivot htallied
  have htallied₁ : e₁.Tallied t full := htallied₁
  have hledger : e'.ledger = e₁.ledger := by
    rcases hengine with rfl | rfl
    · exact hdecided.ledger_eq
    · exact (ledger_note e₂ .pivotMismatch).trans hdecided.ledger_eq
  have hrow := hdecided.rowed ht hsettled₁.sound (hsettled₁.current hsettled₁.valid)
  obtain ⟨hnodup, hpassed⟩ := hdecided.distinct_flips hsettled₁.sound hrow.listed
  refine ⟨htallied₁.congr hsettled₁.sound hsettled.sound hledger fun _ => hsettled₁.valid,
    hrow.congr (congrArg Prod.snd hledger), hnodup, fun j hj => (hpassed j hj).1, ?_⟩
  rw [reducedCostOf_congr (reducedCost_congr hledger)]
  exact hdecided.full_iff hpivot.le

/-- A basis change that is not cut off keeps the duals up to date. -/
theorem Settled.tallied_applyExchange (h : e.Settled t) (htallied : e.Tallied t full)
    (hx : e.pivot? t = some (e', x)) :
    (e'.applyExchange t x).1.Tallied t (full ∧ e.StepsFully t) := by
  obtain ⟨htallied', hrow, hnodup, hlt, hfull⟩ := h.duals_of_pivot ht hpivot htallied hx
  obtain ⟨hsettled, hfits, -, -⟩ := h.of_pivot ht hpivot hx
  refine ⟨(htallied'.applyExchange ht hsettled.sound hfits hrow.listed).1, fun hsteps _ => ?_⟩
  have hpriced := htallied'.priced hsteps.1 hsettled.valid
  exact (hpriced.applyExchange_iff ht hsettled.sound hfits htallied'.toTabled hrow hnodup hlt).mpr
    (hfull.mpr (hsteps.2 e' x hx))

theorem Settled.tallied_tryExchange_of_not_accepted (h : e.Settled t) (hx : e.Fits t x)
    (htallied : e.Tallied t full) (hrejected : accept? t e x = none) :
    (e.tryExchange t x).engine.Tallied t full := by
  have hnoted := h.of_standing (standing_note e .pivotMismatch)
  have htallied := htallied.of_standing h.sound (standing_note e .pivotMismatch) rfl
  rcases tryExchange_of_not_accepted hrejected with heq | heq
  · rw [heq]
    exact hnoted.toFaithful.tallied_renewAndSettle ht hpivot htallied
  · rw [heq]
    have hbasic : (e.note .pivotMismatch).statusOf x.leaving = .basic := by
      rw [hx.leaving_eq]
      exact hnoted.sound.statusOf_basicAt hx.position_lt
    have hcounted := htallied.countRecovery hnoted.sound
    have hstanding := standing_countRecovery (e.note .pivotMismatch)
    generalize (e.note .pivotMismatch).countRecovery = p at hcounted hstanding ⊢
    cases p with
    | stopped e' status => exact hcounted
    | going e' =>
      refine Tallied.relaxBound hcounted (hnoted.sound.of_standing hstanding) ?_
      exact (statusOf_congr (status_congr hstanding) x.leaving).trans hbasic

/-- Without a basis change an iteration leaves the duals alone or renews them. -/
theorem Settled.tallied_iterate_of_not_accepted (h : e.Settled t) (htallied : e.Tallied t full)
    (hnone : ∀ tried, e.exchange? t = some tried → accept? t tried.1 tried.2 = none) :
    (e.iterate t).engine.Tallied t full := by
  cases htried : e.exchange? t with
  | none =>
    have hpriced : ∀ position, (e.priceRow t position).1.Tallied t full := fun position =>
      htallied.of_standing h.sound
        ((standing_price _ _).trans (standing_inverseRow e position)) rfl
    rcases iterate_of_exchange_eq_none htried with heq | ⟨position, ⟨ray, heq⟩ | heq⟩
    · rw [heq]
      exact htallied
    · rw [heq]
      exact hpriced position
    · rw [heq]
      exact hpriced position
  | some tried =>
    obtain ⟨e₂, x⟩ := tried
    have hdecided := h.sound.decided_of_exchange ht htried
    have hrow : (e.priceRow t x.position).1.Settled t := h.of_standing
      ((standing_price _ _).trans (standing_inverseRow e x.position))
    obtain ⟨hsettled, -⟩ := hrow.ftranEntering ht hdecided.fits.entering_lt
      hdecided.column_eq.symm
    rw [← hdecided.engine_eq] at hsettled
    have htallied : e₂.Tallied t full :=
      htallied.congr h.sound hsettled.sound hdecided.ledger_eq fun _ => h.valid
    rw [iterate_of_exchange htried, engine_toStep]
    exact hsettled.tallied_tryExchange_of_not_accepted ht hpivot hdecided.fits htallied
      (hnone (e₂, x) htried)

theorem Settled.tallied_advance (h : e.Settled t) (htallied : e.Tallied t full) :
    (e.advance t).engine.Tallied t (full ∧ e.StepsFully t) := by
  cases hchange : e.pivot? t with
  | some change =>
    obtain ⟨e', x⟩ := change
    obtain ⟨-, -, -, -, -, -, hadvance⟩ := h.sound.of_pivot ht hchange
    obtain ⟨hsettled, hfits, hentered, -⟩ := h.of_pivot ht hpivot hchange
    rw [hadvance, engine_toStep]
    exact hsettled.tallied_performExchange ht hpivot hfits hentered
      (h.tallied_applyExchange ht hpivot htallied hchange)
  | none =>
    refine Tallied.mono ?_ And.left
    have hrenewed := h.tallied_renewIfDue ht hpivot htallied
    have hsettles := h.renewIfDue ht hpivot
    unfold pivot? at hchange
    unfold Engine.advance
    generalize e.renewIfDue t = p at hrenewed hsettles hchange ⊢
    cases hstop : limitReached? t with
    | some status => exact htallied
    | none =>
      rw [hstop] at hchange
      cases p with
      | stopped e' status => exact hrenewed
      | going e₁ =>
        refine Settled.tallied_iterate_of_not_accepted ht hpivot hsettles hrenewed
          fun tried htried => ?_
        exact Option.map_eq_none_iff.mp (Option.bind_eq_none_iff.mp hchange tried htried)

end Iterations

/-! ## Phases and verdicts -/

theorem Tallied.congr_settled (h : e.Tallied t full) (hsettled : e.Settled t)
    (hsettled' : e'.Settled t) (hledger : e'.ledger = e.ledger) : e'.Tallied t full :=
  h.congr hsettled.sound hsettled'.sound hledger fun _ => hsettled.valid

section Phases

include ht

theorem Settled.tallied_enterAuxiliary (h : e.Settled t) (htallied : e.Tallied t full) :
    (e.enterAuxiliary t).Tallied t full :=
  htallied.congr_settled h (h.enterAuxiliary ht) ((ledger_solveValues _).trans
    (ledger_foldl_rest (fun e j => feasibleStatus (e.boundsOf j) (e.reducedCostOf j)) _ _))

theorem Settled.tallied_leaveAuxiliary (h : e.Settled t) (htallied : e.Tallied t full) :
    (e.leaveAuxiliary t).engine.Tallied t full := by
  have hfinally : (e.restFinally t).ledger = e.ledger :=
    (ledger_foldl_rest (fun e j => finalStatus (e.boundsOf j) (e.reducedCostOf j)) _ _).trans
      (ledger_foldl_rest (fun e j => if (e.boundsOf j).allows (e.statusOf j) then e.statusOf j
        else (e.boundsOf j).restingStatus) _ _)
  have hsound := h.sound.restFinally ht
  have hfooting : (e.restFinally t).footing = e.footing :=
    (footing_foldl_rest (fun e j => finalStatus (e.boundsOf j) (e.reducedCostOf j)) _ _).trans
      (footing_restoreBounds e)
  have hvalues := (htallied.congr h.sound hsound hfinally fun _ => h.valid).solveValues hsound
  have hsettled := h.solveValues ht hsound hfooting
  rcases leaveAuxiliary_cases (t := t) e with heq | heq | heq
  · rw [heq.2]
    exact hvalues
  · rw [heq.2]
    exact hvalues.congr_settled hsettled (hsettled.withRays _ _) rfl
  · have hnoted := hsettled.of_standing (standing_note _ .unboundedRayRejected)
    rw [heq]
    exact (hvalues.congr_settled hsettled hnoted (ledger_note _ _)).settleReducedCosts hnoted.sound

theorem Settled.tallied_undoRelaxations (h : e.Settled t) (htallied : e.Tallied t full)
    (hundo : e.undoRelaxations? = some e') : (e'.solveValues t).Tallied t full :=
  htallied.congr_settled h (h.undoRelaxations ht hundo)
    ((ledger_solveValues e').trans (ledger_undoRelaxations hundo))

include hpivot in
theorem Settled.tallied_rejectRay (h : e.Settled t) (htallied : e.Tallied t full) :
    (e.rejectRay t).engine.Tallied t full := by
  have hnote := h.of_standing (standing_note e .unboundedRayRejected)
  have htallied := htallied.of_standing h.sound (standing_note e .unboundedRayRejected) rfl
  unfold Engine.rejectRay Engine.recover
  split
  · rename_i e' hundo
    exact hnote.tallied_undoRelaxations ht htallied hundo
  · have hcounted := htallied.countRecovery hnote.sound
    have hsettles : (e.note .unboundedRayRejected).countRecovery.Settles t := by
      have hstanding := standing_countRecovery (e.note .unboundedRayRejected)
      generalize (e.note .unboundedRayRejected).countRecovery = p at hstanding ⊢
      cases p with
      | going e' => exact hnote.of_standing hstanding
      | stopped e' status => exact (hnote.of_standing hstanding).halted status
    refine Progress.tallied_andThen hcounted hsettles fun e he htallied => ?_
    have hraised := standing_raiseThreshold e
    refine (he.of_standing hraised).toFaithful.tallied_renewAndSettle ht hpivot
      (Tallied.of_standing htallied he.sound hraised ?_)
    unfold Engine.raiseThreshold
    split
    · rfl
    · rfl

/-- A review computes the duals from the costs of the program. -/
theorem Settled.tallied_reviewed (h : e.Settled t) : (e.reviewed t).Tallied t full := by
  have hback := h.withoutRelaxations ht
  have hcost : (e.withoutRelaxations t).cost.size = t.size := by
    rw [cost_withoutRelaxations]
    exact t.size_costs
  have hindex : (e.reviewed t).basicIndex = ((e.withoutRelaxations t).solveDuals t).basicIndex :=
    (basicIndex_congr (setting_reviewed e)).trans
      (basicIndex_congr (setting_congr (standing_solveDuals _))).symm
  have hduals : Tallied t full _ := hback.tallied_solveDuals ht hcost
  exact hduals.congr_settled (hback.of_standing (standing_solveDuals (t := t) _)) (h.reviewed ht)
    (Prod.ext (pricing_reviewed e) hindex)

theorem Settled.tallied_dropCosts (h : e.Settled t) (htallied : e.Tallied t full) :
    (e.dropCosts t).Tallied t full :=
  Settled.tallied_solveDuals (e := { e with cost := e.cost.map fun _ => 0 })
    (h.of_standing rfl) ht (Array.size_map.trans htallied.size_cost)

end Phases

theorem tallied_start (t : Job (Exact 0)) (basis : Basis) : (start t basis).Tallied t True :=
  ⟨⟨t.size_costs, Array.size_replicate, Array.size_replicate⟩, fun _ hvalid =>
    absurd hvalid Bool.false_ne_true⟩

end Engine
end DualSimplex
