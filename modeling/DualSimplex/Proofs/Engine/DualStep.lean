import DualSimplex.Proofs.Engine.Pivoting
import DualSimplex.Proofs.Engine.Duals
import DualSimplex.Proofs.Pricing
import DualSimplex.Proofs.RatioStep

/-!
# What a basis change does to reduced costs

A dual step moves the reduced costs along the pivot row.  The candidates of the ratio
test keep their sign up to the tolerance, or have moved to their other bound.  The others
were no candidates because their entries are tiny or of the harmless sign, so that they
get infeasible by at most the pivot tolerance for each unit of the step.
-/

namespace DualSimplex

open Scalar Exact

/-! ## Pivot rows -/

namespace PivotRow

variable {t : Job (Exact 0)} {r : PivotRow (Exact 0)}

/-- Every variable with an entry is listed once. -/
structure Listed (t : Job (Exact 0)) (r : PivotRow (Exact 0)) : Prop where
  columns : r.columns.Listed t.columnCount
  rho : r.rho.Listed t.rowCount

theorem Listed.nodup_support (h : r.Listed t) : (r.support t).Nodup := by
  refine List.nodup_append'.mpr ⟨h.columns.nodup, ?_, ?_⟩
  · exact h.rho.nodup.map fun i k hik => Nat.add_left_cancel hik
  · intro j hj hk
    obtain ⟨i, -, rfl⟩ := List.mem_map.mp hk
    have hlt := h.columns.lt hj
    omega

theorem Listed.entry_eq_zero (h : r.Listed t) {j : Nat} (hj : j ∉ r.support t) :
    (r.entry t j).value = 0 := by
  unfold entry
  split
  · exact h.columns.valueAt_eq_zero fun hc => hj (List.mem_append_left _ hc)
  · rename_i hcolumn
    refine h.rho.valueAt_eq_zero fun hc => hj (List.mem_append_right _ ?_)
    exact List.mem_map.mpr ⟨_, hc, by omega⟩

/-- The entries, by variable. -/
def entries (t : Job (Exact 0)) (r : PivotRow (Exact 0)) : List (Nat × Exact 0) :=
  r.columns.entries ++ r.rho.entries.map fun u => (t.columnCount + u.1, u.2)

theorem coefficient_shift (n : Nat) (l : List (Nat × Exact 0)) (j : Nat) :
    coefficient (l.map fun u => (n + u.1, u.2)) j = if j < n then 0 else coefficient l (j - n) := by
  induction l with
  | nil => rw [List.map_nil, coefficient_nil, coefficient_nil, ite_self]
  | cons u l ih =>
    rw [List.map_cons, coefficient_cons, ih, coefficient_cons]
    by_cases hj : j < n
    · rw [if_pos hj, if_neg (by omega), if_pos hj, add_zero]
    · rw [if_neg hj, if_neg hj]
      refine congrArg (· + _) (if_congr ?_ rfl rfl)
      omega

theorem Listed.coefficient_entries (h : r.Listed t) (j : Nat) :
    coefficient (r.entries t) j = (r.entry t j).value := by
  unfold entries entry
  rw [coefficient_append, coefficient_shift, h.columns.coefficient_entries,
    h.rho.coefficient_entries]
  by_cases hj : j < t.columnCount
  · rw [if_pos hj, if_pos hj, add_zero]
    rfl
  · have hbeyond : r.columns.valueAt j = 0 :=
      SparseVector.valueAt_of_dim_le (h.columns.dim_eq.symm ▸ not_lt.mp hj)
    rw [if_neg hj, if_neg hj, hbeyond, zero_add]
    rfl

end PivotRow

namespace Engine

variable {t : Job (Exact 0)} {e e' : Engine (Exact 0)} {x : Exchange (Exact 0)}

theorem Current.listed_priceRow (hcurrent : e.Current t) (ht : t.WellFormed) (h : e.Sound t)
    {position : Nat} (hposition : position < t.rowCount) : (e.priceRow t position).2.Listed t := by
  have hunit : (t.zeroRow.setOnly position 1).Listed t.rowCount :=
    listed_zeroRow.setOnly hposition (by rw [Job.zeroRow, SparseVector.get_zero]; rfl)
      (beq_zero_eq_false one_ne_zero)
  have hrho := hcurrent.listed_btran h hunit
  obtain ⟨hrow, hcolumn⟩ := SparseVector.listed_price ht.program (e.inverseRow t position).2
    t.parameters.density
  refine ⟨?_, hrho⟩
  unfold Engine.priceRow Engine.price
  dsimp only
  split
  · exact hrow
  · exact hcolumn

/-! ## Reduced costs along a row -/

section Lower

variable (step : Exact 0) (key : Nat → Nat)
  (f : Engine (Exact 0) → Nat × Exact 0 → Engine (Exact 0))

/-- Whatever else is done at each entry, the reduced costs outside the basis are lowered
by it. -/
theorem value_foldl_lower (hf : ∀ e u, (f e u).status = e.status ∧
      (f e u).reducedCost = (e.lowerReducedCost (key u.1) (step * u.2)).reducedCost)
    (l : List (Nat × Exact 0)) (e : Engine (Exact 0)) :
    (l.foldl f e).status = e.status ∧ (l.foldl f e).reducedCost.size = e.reducedCost.size ∧
    ∀ j, j < e.reducedCost.size → e.statusOf j ≠ .basic →
      ((l.foldl f e).reducedCostOf j).value = (e.reducedCostOf j).value -
        step.value * coefficient (l.map fun u => (key u.1, u.2)) j := by
  induction l generalizing e with
  | nil =>
    refine ⟨rfl, rfl, fun j _ _ => ?_⟩
    rw [List.map_nil, coefficient_nil, mul_zero, sub_zero]
    rfl
  | cons u l ih =>
    obtain ⟨hstatus, hreduced⟩ := hf e u
    have hsize : (f e u).reducedCost.size = e.reducedCost.size := by
      rw [hreduced]
      unfold lowerReducedCost
      split
      · rfl
      · exact Array.size_modify
    obtain ⟨ihstatus, ihsize, ihvalue⟩ := ih (f e u)
    refine ⟨ihstatus.trans hstatus, ihsize.trans hsize, fun j hj hbasic => ?_⟩
    have hstep : ((f e u).reducedCostOf j).value = (e.reducedCostOf j).value -
        step.value * if key u.1 = j then u.2.value else 0 := by
      unfold reducedCostOf
      rw [hreduced]
      unfold lowerReducedCost
      by_cases hkey : key u.1 = j
      · have hnot : ¬e.isBasic j = true := fun hc => hbasic (of_decide_eq_true hc)
        rw [hkey, if_neg hnot, if_pos rfl]
        dsimp only
        rw [getD_modify, if_pos ⟨rfl, hj⟩, value_sub, value_mul]
      · rw [if_neg hkey, mul_zero, sub_zero]
        by_cases hskip : e.isBasic (key u.1) = true
        · rw [if_pos hskip]
        · rw [if_neg hskip]
          dsimp only
          rw [getD_modify_ne hkey]
    rw [List.foldl_cons, ihvalue j (hsize.symm ▸ hj) (by rwa [statusOf_congr hstatus]), hstep,
      List.map_cons, coefficient_cons]
    ring

end Lower

theorem value_dualStep {r : PivotRow (Exact 0)} (hr : r.Listed t) (step : Exact 0)
    (e : Engine (Exact 0)) : (e.dualStep t r step).reducedCost.size = e.reducedCost.size ∧
    ∀ j, j < e.reducedCost.size → e.statusOf j ≠ .basic →
      ((e.dualStep t r step).reducedCostOf j).value =
        (e.reducedCostOf j).value - step.value * (r.entry t j).value := by
  have hkeep : ∀ (e : Engine (Exact 0)) j (a : Exact 0),
      (e.lowerReducedCost j a).status = e.status := fun e j a =>
    status_congr (standing_lowerReducedCost e j a)
  obtain ⟨hstatus, hsize, hvalue⟩ := value_foldl_lower step id
    (fun e u => e.lowerReducedCost u.1 (step * u.2)) (fun e u => ⟨hkeep e _ _, rfl⟩)
    r.columns.entries e
  obtain ⟨-, hsize', hvalue'⟩ := value_foldl_lower step (t.columnCount + ·)
    (fun e u =>
      let e := e.lowerReducedCost (t.columnCount + u.1) (step * u.2)
      { e with multipliers := e.multipliers.modify u.1 (· + step * u.2) })
    (fun e u => ⟨hkeep e _ _, rfl⟩) r.rho.entries
    (r.columns.entries.foldl (fun e u => e.lowerReducedCost u.1 (step * u.2)) e)
  refine ⟨hsize'.trans hsize, fun j hj hbasic => ?_⟩
  have hcolumns : r.columns.entries.map (fun u => (id u.1, u.2)) = r.columns.entries :=
    List.map_id _
  refine (hvalue' j (hsize.symm ▸ hj) (by rwa [statusOf_congr hstatus])).trans ?_
  rw [hvalue j hj hbasic, hcolumns, ← hr.coefficient_entries, PivotRow.entries,
    coefficient_append]
  ring

/-- The reduced costs after the dual step of a basis change. -/
theorem value_moveDuals (hr : x.row.Listed t) (e : Engine (Exact 0)) {j : Nat}
    (hbasic : e.statusOf j ≠ .basic) (hentering : x.entering ≠ j) (hleaving : x.leaving ≠ j) :
    ((e.moveDuals t x).reducedCostOf j).value = (e.reducedCostOf j).value -
      x.step.value * (x.direction.value * (x.row.entry t j).value) ∨
    ((e.moveDuals t x).reducedCostOf j).value = 0 := by
  have hmoved : (e.moveDuals t x).reducedCostOf j = (if x.step * x.direction == 0 then e
      else e.dualStep t x.row (x.step * x.direction)).reducedCostOf j := by
    unfold Engine.moveDuals Engine.reducedCostOf
    dsimp only
    rw [getD_setIfInBounds_ne hentering, getD_setIfInBounds_ne hleaving]
  rw [hmoved]
  obtain ⟨hsize, hvalue⟩ := value_dualStep hr (x.step * x.direction) e
  split
  · rename_i hzero
    have hzero : x.step.value * x.direction.value = 0 := value_eq_zero_of_beq hzero
    rw [← mul_assoc, hzero, zero_mul, sub_zero]
    exact Or.inl rfl
  · by_cases hj : j < e.reducedCost.size
    · rw [hvalue j hj hbasic, value_mul, mul_assoc]
      exact Or.inl rfl
    · right
      unfold Engine.reducedCostOf
      rw [getD_of_size_le (by omega)]
      rfl

theorem value_moveDuals_leaving (e : Engine (Exact 0)) (hne : x.entering ≠ x.leaving) :
    ((e.moveDuals t x).reducedCostOf x.leaving).value = -(x.step.value * x.direction.value) ∨
    ((e.moveDuals t x).reducedCostOf x.leaving).value = 0 := by
  unfold Engine.moveDuals Engine.reducedCostOf
  dsimp only
  generalize (if x.step * x.direction == 0 then e
    else e.dualStep t x.row (x.step * x.direction)).reducedCost = reducedCost
  rw [getD_setIfInBounds_ne hne]
  by_cases hlt : x.leaving < reducedCost.size
  · rw [getD_setIfInBounds_self hlt]
    exact Or.inl rfl
  · rw [getD_of_size_le (by rw [Array.size_setIfInBounds]; omega)]
    exact Or.inr rfl

/-! ## Statuses and reduced costs after a basis change -/

theorem flipInto_statusOf {s : Engine (Exact 0) × SparseVector (Exact 0)} (h : s.1.Shaped t)
    {j : Nat} (hj : j < t.size) : (flipInto t s j).1.Shaped t ∧ ∀ k, (flipInto t s j).1.statusOf k =
      if j = k then (s.1.statusOf k).opposite else s.1.statusOf k := by
  have hflip : (s.1.flip j).Shaped t ∧ ∀ k, (s.1.flip j).statusOf k =
      if j = k then (s.1.statusOf k).opposite else s.1.statusOf k :=
    ⟨h.rest j _, statusOf_flip h hj⟩
  have hstay : (s.1.statusOf j).opposite = s.1.statusOf j → ∀ k, s.1.statusOf k =
      if j = k then (s.1.statusOf k).opposite else s.1.statusOf k := by
    intro hsame k
    by_cases hjk : j = k
    · rw [if_pos hjk, ← hjk, hsame]
    · rw [if_neg hjk]
  unfold Engine.flipInto
  dsimp only
  cases hstatus : s.1.statusOf j with
  | atLower => exact hflip
  | atUpper => exact hflip
  | basic | fixed | free => exact ⟨h, hstay (by rw [hstatus]; rfl)⟩

theorem flipPassed_statusOf (h : e.Shaped t) {flips : List Nat} (hflips : flips.Nodup)
    (hlt : ∀ j ∈ flips, j < t.size) (k : Nat) : (e.flipPassed t flips).statusOf k =
      if k ∈ flips then (e.statusOf k).opposite else e.statusOf k := by
  unfold Engine.flipPassed
  split
  · rename_i hnone
    rw [List.isEmpty_iff.mp hnone, if_neg List.not_mem_nil]
  · have hfold := foldl_distinct (fun s : Engine (Exact 0) × SparseVector (Exact 0) => s.1.Shaped t)
      (fun s => s.1.statusOf) VariableStatus.opposite hflips (s := (e, t.zeroRow)) h
      fun s hs j hj _ => flipInto_statusOf hs (hlt j hj)
    dsimp only
    rw [statusOf_congr (status_lowerBasicValues _ _)]
    exact hfold.2 k

theorem flipPassed_reducedCost (e : Engine (Exact 0)) (flips : List Nat) :
    (e.flipPassed t flips).reducedCost = e.reducedCost :=
  flipPassed_keeps Engine.reducedCost (fun _ _ => rfl) (fun _ _ => rfl) (fun _ _ => rfl) e flips

theorem tau_duals (e : Engine (Exact 0)) (rho : SparseVector (Exact 0)) :
    (e.tau? t rho).1.reducedCost = e.reducedCost ∧ (e.tau? t rho).1.status = e.status := by
  unfold Engine.tau?
  split
  · exact ⟨rfl, rfl⟩
  · exact ⟨rfl, rfl⟩

/-- The engine on the way through a basis change, when the passed variables have moved to
their other bounds. -/
def flipped (t : Job (Exact 0)) (e : Engine (Exact 0)) (x : Exchange (Exact 0)) :
    Engine (Exact 0) :=
  ((e.tau? t x.row.rho).1.moveDuals t x).flipPassed t x.flips

theorem Sound.statusOf_flipped (h : e.Sound t) (hflips : x.flips.Nodup)
    (hlt : ∀ j ∈ x.flips, j < t.size) (k : Nat) : (e.flipped t x).statusOf k =
      if k ∈ x.flips then (e.statusOf k).opposite else e.statusOf k := by
  have hduals : ((e.tau? t x.row.rho).1.moveDuals t x).standing = e.standing :=
    (standing_moveDuals _ x).trans (standing_tau e _)
  have hmoved := flipPassed_statusOf (h.of_standing hduals).toShaped hflips hlt k
  rw [statusOf_congr (status_congr hduals)] at hmoved
  exact hmoved

/-- Where the variables stand after a basis change, and their reduced costs. -/
theorem Fits.duals_applyExchange (ht : t.WellFormed) (h : e.Sound t) (hx : e.Fits t x)
    (hflips : x.flips.Nodup) (hlt : ∀ j ∈ x.flips, j < t.size) :
    (e.applyExchange t x).1.reducedCost = ((e.tau? t x.row.rho).1.moveDuals t x).reducedCost ∧
    ∀ k, (e.applyExchange t x).1.statusOf k =
      if x.leaving = k then e.leavingStatus x else if x.entering = k then .basic
      else if k ∈ x.flips then (e.statusOf k).opposite else e.statusOf k := by
  obtain ⟨e₁, w, hflipped, h₁, hsetting, -, heq⟩ := hx.exists_swap ht h
  have hfits := hx.congr hsetting
  obtain ⟨hlowered, hentering⟩ := h₁.lowerAmounts hfits
  constructor
  · rw [heq]
    show ((e₁.lowerBasicValues (e₁.amounts x))).reducedCost = _
    rw [lowerBasicValues_eq, hflipped]
    exact flipPassed_reducedCost _ x.flips
  · intro k
    have hstatus : e₁.statusOf k =
        if k ∈ x.flips then (e.statusOf k).opposite else e.statusOf k := by
      rw [hflipped]
      exact h.statusOf_flipped hflips hlt k
    have hleaving : (e₁.lowerBasicValues (e₁.amounts x)).basicAt x.position = x.leaving := by
      rw [basicAt_congr (setting_lowerBasicValues e₁ (e₁.amounts x))]
      exact hfits.leaving_eq.symm
    have hrests : e₁.leavingStatus x = e.leavingStatus x := by
      unfold Engine.leavingStatus
      rw [boundsOf_congr hsetting]
    rw [heq, ← hrests]
    show ((e₁.lowerBasicValues (e₁.amounts x)).swap x.position x.entering (e₁.leavingStatus x)
      ((e₁.valueOf x.leaving - e₁.target x) / x.pivot) (e₁.target x)).statusOf k = _
    rw [hlowered.statusOf_swap hx.position_lt hentering k, hleaving,
      statusOf_congr (status_lowerBasicValues e₁ _), hstatus]

/-- A variable leaves, or it is basic, or its reduced cost takes part in the dual step. -/
theorem Fits.dual_cases (ht : t.WellFormed) (h : e.Sound t) (hx : e.Fits t x)
    (hr : x.row.Listed t) (hflips : x.flips.Nodup) (hlt : ∀ j ∈ x.flips, j < t.size) (j : Nat) :
    (e.applyExchange t x).1.statusOf j = .basic ∨
    ((e.applyExchange t x).1.statusOf j = e.leavingStatus x ∧
      (((e.applyExchange t x).1.reducedCostOf j).value = -(x.step.value * x.direction.value) ∨
        ((e.applyExchange t x).1.reducedCostOf j).value = 0)) ∨
    (e.applyExchange t x).1.statusOf j =
        (if j ∈ x.flips then (e.statusOf j).opposite else e.statusOf j) ∧
      (((e.applyExchange t x).1.reducedCostOf j).value = (e.reducedCostOf j).value -
          x.step.value * (x.direction.value * (x.row.entry t j).value) ∨
        ((e.applyExchange t x).1.reducedCostOf j).value = 0) := by
  obtain ⟨hduals, hstatuses⟩ := hx.duals_applyExchange ht h hflips hlt
  obtain ⟨htauDuals, htauStatus⟩ := tau_duals (t := t) e x.row.rho
  have hreduced : (e.applyExchange t x).1.reducedCostOf j =
      ((e.tau? t x.row.rho).1.moveDuals t x).reducedCostOf j := by
    unfold reducedCostOf
    rw [hduals]
  have hold : (e.tau? t x.row.rho).1.reducedCostOf j = e.reducedCostOf j := by
    unfold reducedCostOf
    rw [htauDuals]
  rw [hreduced, hstatuses, ← hold]
  by_cases hleaving : x.leaving = j
  · have hne : x.entering ≠ x.leaving := by
      intro hc
      refine hx.entering_notMem ?_
      rw [hc, hx.leaving_eq]
      exact h.basicAt_mem hx.position_lt
    subst hleaving
    rw [if_pos rfl]
    exact Or.inr (Or.inl ⟨rfl, value_moveDuals_leaving _ hne⟩)
  · rw [if_neg hleaving]
    by_cases hentering : x.entering = j
    · rw [if_pos hentering]
      exact Or.inl rfl
    · rw [if_neg hentering]
      by_cases hbasic : e.statusOf j = .basic
      · rw [hbasic]
        exact Or.inl (ite_self _)
      · refine Or.inr (Or.inr ⟨rfl, value_moveDuals hr _ ?_ hentering hleaving⟩)
        rw [statusOf_congr htauStatus]
        exact hbasic

/-! ## Candidates -/

theorem value_sign (x : Exact 0) :
    (sign x).value = 1 ∧ 0 ≤ x.value ∨ (sign x).value = -1 ∧ x.value < 0 := by
  by_cases hx : x < 0
  · refine Or.inr ⟨?_, hx⟩
    rw [sign, if_pos hx]
    rfl
  · refine Or.inl ⟨?_, not_lt.mp hx⟩
    rw [sign, if_neg hx]
    rfl

theorem abs_sign (x : Exact 0) : |(sign x).value| = 1 := by
  rcases value_sign x with ⟨hvalue, -⟩ | ⟨hvalue, -⟩
  · rw [hvalue, abs_one]
  · rw [hvalue, abs_neg, abs_one]

theorem of_movingSign {signed moving : Exact 0} {s : VariableStatus}
    (h : movingSign? signed s = some moving) : |moving.value| = 1 ∧ ∀ m, s.Moves m →
      m = moving.value ∨ s = .free ∧ m = -moving.value ∧ 0 ≤ moving.value * signed.value := by
  cases s with
  | basic | fixed => exact absurd h nofun
  | atLower =>
    obtain rfl := Option.some.inj h
    exact ⟨abs_one, fun m hm => Or.inl hm⟩
  | atUpper =>
    obtain rfl := Option.some.inj h
    exact ⟨(abs_neg 1).trans abs_one, fun m hm => Or.inl hm⟩
  | free =>
    obtain rfl := Option.some.inj h
    refine ⟨abs_sign signed, fun m hm => ?_⟩
    rcases value_sign signed with ⟨hvalue, hsigned⟩ | ⟨hvalue, hsigned⟩
    · rw [hvalue, one_mul]
      exact hm.imp_right fun hm => ⟨rfl, hm, hsigned⟩
    · rw [hvalue, neg_neg]
      rcases hm with hm | hm
      · exact Or.inr ⟨rfl, hm, by linarith⟩
      · exact Or.inl hm

section Candidates

variable {r : PivotRow (Exact 0)} {direction : Exact 0} {j : Nat}

theorem candidates_ratioTest : (e.ratioTest t r direction).candidates =
    (r.support t).filterMap (e.candidate? t r direction) := by
  unfold Engine.ratioTest
  rw [RatioTest.candidates_foldl_push]
  rfl

theorem nodup_candidates (hr : r.Listed t) :
    ((e.ratioTest t r direction).candidates.map Candidate.variableIndex).Nodup := by
  rw [candidates_ratioTest, List.map_filterMap]
  refine hr.nodup_support.filterMap fun i k index hi hk => ?_
  obtain ⟨c, hc, rfl⟩ := Option.map_eq_some_iff.mp hi
  obtain ⟨d, hd, hsame⟩ := Option.map_eq_some_iff.mp hk
  rw [← (of_candidate hc).1, ← (of_candidate hd).1, hsame]

variable (hpivot : 0 ≤ t.parameters.pivotTolerance.value)

include hpivot

theorem exists_falls (hdirection : |direction.value| = 1) {c : Candidate (Exact 0)}
    (h : e.candidate? t r direction j = some c) : ∃ m, c.Falls (e.statusOf j)
      (direction.value * (r.entry t j).value) (e.reducedCostOf j).value m := by
  unfold Engine.candidate? at h
  dsimp only at h
  split at h
  · exact absurd h nofun
  · rename_i moving hmoving
    split at h
    · exact absurd h nofun
    · rename_i hlarge
      obtain rfl := Option.some.inj h
      obtain ⟨hunit, hmoves⟩ := of_movingSign hmoving
      have hpositive : 0 < moving.value * (direction.value * (r.entry t j).value) :=
        hpivot.trans_lt (not_le.mp hlarge)
      have hvalue : moving.value * (direction.value * (r.entry t j).value) =
          |(r.entry t j).value| := by
        rw [← abs_of_pos hpositive, abs_mul, abs_mul, hunit, hdirection, one_mul, one_mul]
      have halpha : (magnitude (r.entry t j)).value = |(r.entry t j).value| := Exact.abs_eq _
      refine ⟨moving.value, fun m hm => ?_, ?_, ?_, ?_⟩
      · exact (hmoves m hm).imp_right fun hfree => ⟨hfree.1, hfree.2.1⟩
      · rw [halpha, ← hvalue]
        exact hpositive
      · rw [halpha, hvalue]
      · have hne : (magnitude (r.entry t j)).value ≠ 0 := by
          rw [halpha, ← hvalue]
          exact hpositive.ne'
        exact (mul_div_cancel₀ _ hne).symm

/-- A variable that is no candidate has a tiny entry, or one of the harmless sign. -/
theorem le_of_candidate_eq_none (h : e.candidate? t r direction j = none) {m : ℚ}
    (hm : (e.statusOf j).Moves m) :
    m * (direction.value * (r.entry t j).value) ≤ t.parameters.pivotTolerance.value := by
  unfold Engine.candidate? at h
  dsimp only at h
  split at h
  · rename_i hnone
    generalize e.statusOf j = s at hm hnone
    cases s with
    | basic | fixed => exact absurd hm id
    | atLower | atUpper | free => exact absurd hnone nofun
  · rename_i moving hmoving
    split at h
    · rename_i hsmall
      have hsmall : moving.value * (direction.value * (r.entry t j).value) ≤
        t.parameters.pivotTolerance.value := hsmall
      rcases (of_movingSign hmoving).2 m hm with rfl | ⟨-, rfl, hnonneg⟩
      · exact hsmall
      · have hnonneg : 0 ≤ moving.value * (direction.value * (r.entry t j).value) := hnonneg
        rw [neg_mul]
        linarith
    · exact absurd h nofun

end Candidates

/-! ## Reduced costs of the wrong sign -/

/-- No reduced cost is of the wrong sign by more than a limit. -/
def DualWithin (limit : ℚ) (e : Engine (Exact 0)) : Prop :=
  ∀ j, (e.dualInfeasibility j).value ≤ limit

section Within

variable {limit : ℚ}

theorem DualWithin.mono {limit' : ℚ} (h : e.DualWithin limit) (hle : limit ≤ limit') :
    e.DualWithin limit' :=
  fun j => (h j).trans hle

theorem DualWithin.congr (h : e.DualWithin limit) (hstatus : ∀ j, e'.statusOf j = e.statusOf j)
    (hreduced : e'.reducedCost = e.reducedCost) : e'.DualWithin limit := by
  intro j
  have hsame : e'.dualInfeasibility j = e.dualInfeasibility j := by
    unfold dualInfeasibility reducedCostOf
    rw [hstatus, hreduced]
  rw [hsame]
  exact h j

theorem DualWithin.nonneg (h : e.DualWithin limit) : 0 ≤ limit := by
  have hbeyond := h e.status.size
  unfold dualInfeasibility statusOf at hbeyond
  rw [getD_of_size_le le_rfl] at hbeyond
  exact hbeyond

theorem Sound.dualWithin_of_lt (h : e.Sound t) (hlimit : 0 ≤ limit)
    (hwithin : ∀ j, j < t.size → (e.dualInfeasibility j).value ≤ limit) : e.DualWithin limit := by
  intro j
  by_cases hj : j < t.size
  · exact hwithin j hj
  · have hbasic : e.statusOf j = .basic := by
      by_contra hc
      exact hj (h.lt_of_statusOf_ne hc)
    unfold dualInfeasibility
    rw [hbasic]
    exact hlimit

theorem dualWithin_iff (hlimit : 0 ≤ limit) : e.DualWithin limit ↔
    ∀ j m, (e.statusOf j).Moves m → -limit ≤ m * (e.reducedCostOf j).value :=
  forall_congr' fun _ => VariableStatus.value_dualInfeasibility_le hlimit

end Within

/-! ## The step of a basis change -/

namespace Decided

variable {e₁ : Engine (Exact 0)} (hx : e.Decided t e₁ x)

include hx

theorem abs_direction : |x.direction.value| = 1 := by
  obtain ⟨delta, -, -, hdirection⟩ := hx.violates
  rw [hdirection]
  exact abs_sign delta

theorem step_nonneg : 0 ≤ x.step.value := by
  obtain ⟨alpha, slope, hresult, -⟩ := hx.found
  obtain ⟨-, -, last, -, -, -, hstep⟩ := RatioTest.exists_endsAt hresult
  rw [hstep, value_larger]
  exact le_max_right _ _

/-- The ratio test ends behind the variables that it has passed, and not far behind any
other candidate. -/
theorem exists_last (hr : x.row.Listed t) : ∃ last : ℚ, x.step.value = max last 0 ∧
    x.flips.Nodup ∧
    (∀ j ∈ x.flips, ∃ c, e.candidate? t x.row x.direction j = some c ∧ c.ratio.value < last) ∧
    ∀ j c, j ∈ x.row.support t → j ∉ x.flips → e.candidate? t x.row x.direction j = some c →
      last ≤ c.ratio.value + t.parameters.dualTolerance.value / c.alpha.value := by
  obtain ⟨alpha, slope, hresult, hflips⟩ := hx.found
  obtain ⟨passed, rest, last, hends, hpassed, -, hstep⟩ := RatioTest.exists_endsAt hresult
  have hflips : x.flips = passed.map Candidate.variableIndex := hflips.symm.trans hpassed
  have hmem : ∀ c, c ∈ passed ++ rest ↔
      ∃ j ∈ x.row.support t, e.candidate? t x.row x.direction j = some c := by
    intro c
    rw [hends.perm.mem_iff, candidates_ratioTest, List.mem_filterMap]
  refine ⟨last.ratio.value, hstep ▸ value_larger _ _, ?_, fun j hj => ?_,
    fun j c hj hout hc => hends.le_of_rest c ?_⟩
  · have hnodup := (hends.perm.map Candidate.variableIndex).nodup_iff.mpr (nodup_candidates hr)
    rw [List.map_append] at hnodup
    exact hflips ▸ hnodup.of_append_left
  · rw [hflips] at hj
    obtain ⟨c, hc, rfl⟩ := List.mem_map.mp hj
    obtain ⟨j, -, hj⟩ := (hmem c).mp (List.mem_append_left rest hc)
    rw [(of_candidate hj).1]
    exact ⟨c, hj, hends.lt_of_passed c hc⟩
  · refine (List.mem_append.mp ((hmem c).mpr ⟨j, hj, hc⟩)).resolve_left fun hc' => hout ?_
    rw [hflips, ← (of_candidate hc).1]
    exact List.mem_map_of_mem hc'

/-- The reduced cost of the leaving variable has the sign that its bound asks for. -/
theorem leaving_moves {m : ℚ} (hm : (e'.leavingStatus x).Moves m) :
    0 ≤ m * -(x.step.value * x.direction.value) := by
  have hstep := hx.step_nonneg
  obtain ⟨delta, -, -, hdirection⟩ := hx.violates
  unfold Engine.leavingStatus at hm
  split at hm
  · exact absurd hm id
  · rcases value_sign delta with ⟨hvalue, -⟩ | ⟨hvalue, -⟩
    · rw [← hdirection] at hvalue
      have hpositive : (0 : Exact 0) < x.direction := by
        rw [lt_iff, hvalue]
        exact one_pos
      rw [if_pos hpositive] at hm
      obtain rfl : m = -1 := hm
      rw [hvalue]
      linarith
    · rw [← hdirection] at hvalue
      have hnegative : ¬(0 : Exact 0) < x.direction := by
        rw [lt_iff, hvalue]
        exact not_lt.mpr (by norm_num)
      rw [if_neg hnegative] at hm
      obtain rfl : m = 1 := hm
      rw [hvalue]
      linarith

section Change

variable {limit : ℚ} (hpivot : 0 ≤ t.parameters.pivotTolerance.value) (hr : x.row.Listed t)

include hpivot hr

/-- A variable that is not passed gets infeasible by the pivot tolerance for each unit of
the step, if the ratio test has not kept it within the dual tolerance. -/
theorem moved_of_notMem {last : ℚ} (hstep : x.step.value = max last 0) {j : Nat}
    (hleft : ∀ c, j ∈ x.row.support t → e.candidate? t x.row x.direction j = some c →
      last ≤ c.ratio.value + t.parameters.dualTolerance.value / c.alpha.value)
    (hlimit : t.parameters.dualTolerance.value ≤ limit)
    (hwithin : ∀ m, (e.statusOf j).Moves m → -limit ≤ m * (e.reducedCostOf j).value) {m : ℚ}
    (hm : (e.statusOf j).Moves m) :
    -(limit + t.parameters.pivotTolerance.value * x.step.value) ≤ m * ((e.reducedCostOf j).value -
      x.step.value * (x.direction.value * (x.row.entry t j).value)) := by
  have hnonneg := hx.step_nonneg
  have hgrowth : 0 ≤ t.parameters.pivotTolerance.value * x.step.value := mul_nonneg hpivot hnonneg
  have hold := hwithin m hm
  by_cases hj : j ∈ x.row.support t
  · cases hcandidate : e.candidate? t x.row x.direction j with
    | none =>
      have hsmall := le_of_candidate_eq_none hpivot hcandidate hm
      have hscaled := mul_le_mul_of_nonneg_right hsmall hnonneg
      linarith
    | some c =>
      obtain ⟨m', hfalls⟩ := exists_falls hpivot hx.abs_direction hcandidate
      have hleft := hfalls.left hstep (hleft c hj hcandidate) hlimit hwithin hm
      linarith
  · rw [hr.entry_eq_zero hj, mul_zero, mul_zero, sub_zero]
    linarith

/-- A basis change makes no reduced cost worse by more than the pivot tolerance for each
unit of its step. -/
theorem dualWithin (ht : t.WellFormed) (h : e'.Sound t) (hfits : e'.Fits t x)
    (hstatus : e'.status = e.status) (hreduced : e'.reducedCost = e.reducedCost)
    (hlimit : t.parameters.dualTolerance.value ≤ limit) (hwithin : e.DualWithin limit) :
    (e'.applyExchange t x).1.DualWithin
      (limit + t.parameters.pivotTolerance.value * x.step.value) := by
  obtain ⟨last, hstep, hnodup, hpassed, hleft⟩ := hx.exists_last hr
  have hnonneg := hx.step_nonneg
  have hlimit' : 0 ≤ limit + t.parameters.pivotTolerance.value * x.step.value :=
    add_nonneg hwithin.nonneg (mul_nonneg hpivot hx.step_nonneg)
  have hlt : ∀ j ∈ x.flips, j < t.size := by
    intro j hj
    obtain ⟨c, hc, -⟩ := hpassed j hj
    refine h.lt_of_statusOf_ne ?_
    rw [statusOf_congr hstatus]
    exact (of_candidate hc).2.2
  rw [dualWithin_iff hlimit']
  intro j m hm
  have hcases := hfits.dual_cases ht h hr hnodup hlt j
  have hold : e'.reducedCostOf j = e.reducedCostOf j := by
    unfold reducedCostOf
    rw [hreduced]
  rw [hold, statusOf_congr hstatus] at hcases
  have hzero : -(limit + t.parameters.pivotTolerance.value * x.step.value) ≤ m * 0 := by
    rw [mul_zero]
    exact neg_nonpos.mpr hlimit'
  rcases hcases with hbasic | ⟨hrests, hmoved | hnone⟩ | ⟨hrests, hmoved | hnone⟩
  · rw [hbasic] at hm
    exact absurd hm id
  · rw [hrests] at hm
    rw [hmoved]
    exact (neg_nonpos.mpr hlimit').trans (hx.leaving_moves hm)
  · rw [hnone]
    exact hzero
  · rw [hrests] at hm
    rw [hmoved]
    by_cases hflip : j ∈ x.flips
    · rw [if_pos hflip] at hm
      obtain ⟨c, hc, hratio⟩ := hpassed j hflip
      obtain ⟨m', hfalls⟩ := exists_falls hpivot hx.abs_direction hc
      have hfree : e.statusOf j ≠ .free := by
        rw [← statusOf_congr hstatus]
        exact h.statusOf_ne_free (hfits.flips j hflip)
      exact (neg_nonpos.mpr hlimit').trans (hfalls.passed hstep hratio hfree hm)
    · rw [if_neg hflip] at hm
      exact hx.moved_of_notMem hpivot hr hstep (fun c hj => hleft j c hj hflip) hlimit
        ((dualWithin_iff hwithin.nonneg).mp hwithin j) hm
  · rw [hnone]
    exact hzero

end Change

end Decided
end Engine
end DualSimplex
