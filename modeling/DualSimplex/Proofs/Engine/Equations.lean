import DualSimplex.Proofs.Engine.Boundary
import DualSimplex.Proofs.Factor.Replacement

/-!
# The equations of an engine

With exact numbers the values of an engine solve the equations of the program
between any two steps, because the factors are those of the basis whenever values
are computed with them.
-/

namespace DualSimplex

open Scalar Exact

namespace Engine

variable {t : Job (Exact 0)} {e e' : Engine (Exact 0)}

/-- What the values of an engine make of a row of `[A I]`. -/
def balance (t : Job (Exact 0)) (e : Engine (Exact 0)) (i : Nat) : ℚ :=
  ∑ j ∈ Finset.range t.size, coefficient (t.column j) i * (e.valueOf j).value

/-- The values solve the equations. -/
def Balanced (t : Job (Exact 0)) (e : Engine (Exact 0)) : Prop :=
  ∀ i, i < t.rowCount → e.balance t i = 0

/-- A sum over all variables, those outside the basis first. -/
theorem sum_variables (h : e.Placed t) (f : Nat → ℚ) : ∑ j ∈ Finset.range t.size, f j =
    ∑ j ∈ Finset.range t.size, (if e.statusOf j = .basic then 0 else f j) +
      ∑ p ∈ Finset.range t.rowCount, f (e.basicAt p) := by
  have hbasic : ∑ p ∈ Finset.range t.rowCount, f (e.basicAt p) =
      ∑ j ∈ (Finset.range t.size).filter fun j => e.statusOf j = .basic, f j := by
    refine Finset.sum_nbij e.basicAt (fun p hp => ?_) (fun p hp q hq he => ?_) (fun j hj => ?_)
      fun _ _ => rfl
    · have hp := Finset.mem_range.mp hp
      exact Finset.mem_filter.mpr ⟨Finset.mem_range.mpr (h.basicAt_lt hp), h.statusOf_basicAt hp⟩
    · exact h.basicAt_inj (Finset.mem_range.mp hp) (Finset.mem_range.mp hq) he
    · obtain ⟨hj, hstatus⟩ := Finset.mem_filter.mp hj
      obtain ⟨p, hp, he⟩ := h.exists_position ((h.mem_iff j (Finset.mem_range.mp hj)).mpr hstatus)
      exact ⟨p, Finset.mem_coe.mpr (Finset.mem_range.mpr hp), he⟩
  rw [hbasic, Finset.sum_filter, ← Finset.sum_add_distrib]
  refine Finset.sum_congr rfl fun j _ => ?_
  split
  · rw [zero_add]
  · rw [add_zero]

/-! ## Values that follow from the others -/

theorem valueAt_nonbasicActivity (ht : t.WellFormed) {i : Nat} (hi : i < t.rowCount) :
    (e.nonbasicActivity t).Listed t.rowCount ∧
    (e.nonbasicActivity t).valueAt i = -∑ j ∈ Finset.range t.size,
      if e.statusOf j = .basic then 0 else coefficient (t.column j) i * (e.valueOf j).value := by
  have hfold : ∀ k, k ≤ t.size → ((List.range k).foldl (fun v j =>
      if e.isBasic j || e.valueOf j == 0 then v
      else v.addAll ((t.column j).map fun u => (u.1, -u.2 * e.valueOf j))) t.zeroRow).Listed
        t.rowCount ∧
      ((List.range k).foldl (fun v j =>
      if e.isBasic j || e.valueOf j == 0 then v
      else v.addAll ((t.column j).map fun u => (u.1, -u.2 * e.valueOf j))) t.zeroRow).valueAt i =
        -∑ j ∈ Finset.range k,
          if e.statusOf j = .basic then 0
          else coefficient (t.column j) i * (e.valueOf j).value := by
    intro k hk
    induction k with
    | zero =>
      refine ⟨listed_zeroRow, ?_⟩
      rw [Finset.range_zero, Finset.sum_empty, neg_zero]
      exact SparseVector.valueAt_zero ..
    | succ k ih =>
      obtain ⟨hlisted, hvalue⟩ := ih (by omega)
      rw [List.range_succ, List.foldl_append, List.foldl_cons, List.foldl_nil,
        Finset.sum_range_succ, neg_add, ← hvalue]
      by_cases hskip : (e.isBasic k || e.valueOf k == 0) = true
      · rw [if_pos hskip]
        refine ⟨hlisted, ?_⟩
        rcases Bool.or_eq_true_iff.mp hskip with hbasic | hzero
        · rw [if_pos (of_decide_eq_true hbasic), neg_zero, add_zero]
        · rw [value_eq_zero_of_beq hzero, mul_zero, ite_self, neg_zero, add_zero]
      · rw [if_neg hskip]
        have hbasic : e.statusOf k ≠ .basic := fun hbasic => hskip (by
          rw [Bool.or_eq_true_iff]
          exact Or.inl (decide_eq_true hbasic))
        refine ⟨listed_addColumn ht hlisted (by omega) _, ?_⟩
        have hscale : coefficient ((t.column k).map fun u => (u.1, -u.2 * e.valueOf k)) i =
            coefficient (t.column k) i * -(e.valueOf k).value :=
          coefficient_map_mul _ (fun u _ => by rw [value_mul, value_neg]; ring) i
        rw [SparseVector.valueAt_addAll _ _ (hlisted.dim_eq ▸ hi), if_neg hbasic, hscale, mul_neg]
  exact hfold t.size (Nat.le_refl _)

/-- The factors are those of the basis. -/
structure Current (t : Job (Exact 0)) (e : Engine (Exact 0)) : Prop where
  solvable : e.factor.lu.Solvable
  matrixAt : ∀ i p, i < t.rowCount → p < t.rowCount →
    e.factor.lu.matrixAt i p = coefficient (t.column (e.basicAt p)) i

theorem Current.congr (h : e.Current t) (hlu : e'.factor.lu = e.factor.lu)
    (hindex : e'.basicIndex = e.basicIndex) : e'.Current t where
  solvable := by rw [hlu]; exact h.solvable
  matrixAt := by
    intro i p hi hp
    have hat : e'.basicAt p = e.basicAt p := by
      unfold basicAt
      rw [hindex]
    rw [hlu, hat]
    exact h.matrixAt i p hi hp

theorem Current.of_setting (h : e.Current t) (hsetting : e'.setting = e.setting) :
    e'.Current t :=
  h.congr (lu_congr hsetting) (basicIndex_congr hsetting)

theorem Current.ftran (hcurrent : e.Current t) (h : e.Sound t) {v : SparseVector (Exact 0)}
    (hv : v.Listed t.rowCount) : (e.ftran v).2.Listed t.rowCount ∧
    ∀ i, i < t.rowCount → ∑ p ∈ Finset.range t.rowCount,
      coefficient (t.column (e.basicAt p)) i * (e.ftran v).2.valueAt p = v.valueAt i := by
  have hm : t.rowCount = e.factor.lu.m := h.factor.m_eq.symm
  have hmatrix := hcurrent.matrixAt
  rw [hm] at hv hmatrix ⊢
  refine ⟨(hcurrent.solvable.sum_solution_mul_upper hv).1, fun i hi => ?_⟩
  rw [← hcurrent.solvable.sum_matrixAt_mul_ftran hv hi]
  refine Finset.sum_congr rfl fun p hp => ?_
  rw [hmatrix i p hi (Finset.mem_range.mp hp)]
  rfl

theorem valueOf_solveValues (h : e.Sound t) {p : Nat} (hp : p < t.rowCount) :
    (e.solveValues t).valueOf (e.basicAt p) = (e.ftran (e.nonbasicActivity t)).2.get p := by
  have hlt : p < e.basicIndex.size := h.size_basicIndex ▸ hp
  have hmem : (e.basicAt p, p) ∈ e.basicIndex.toList.zipIdx := by
    rw [List.mk_mem_zipIdx_iff_getElem?]
    unfold Engine.basicAt
    rw [getD_eq_getElem hlt, Array.getElem?_toList, Array.getElem?_eq_getElem hlt]
  have hkeys : (e.basicIndex.toList.zipIdx.map Prod.fst).Nodup := by
    rw [List.zipIdx_map_fst]
    exact h.nodup
  rw [solveValues_eq]
  refine getD_foldl_set_of_mem Prod.fst _ hkeys hmem ?_ 0
  show e.basicAt p < e.value.size
  rw [h.size_value]
  exact h.basicAt_lt hp

theorem valueOf_solveValues_of_ne (h : e.Sound t) {j : Nat} (hj : e.statusOf j ≠ .basic) :
    (e.solveValues t).valueOf j = e.valueOf j := by
  rw [solveValues_eq]
  refine getD_foldl_set_of_notMem _ _ (fun x hx he => hj ?_) _ _
  have hmem : j ∈ e.basicIndex.toList := he ▸ List.fst_mem_of_mem_zipIdx hx
  exact (h.mem_iff j (h.lt j hmem)).mp hmem

/-- What the variables outside the basis contribute to a row stays. -/
theorem resting_solveValues (h : e.Sound t) (i : Nat) : ∑ j ∈ Finset.range t.size,
    (if e.statusOf j = .basic then 0
      else coefficient (t.column j) i * ((e.solveValues t).valueOf j).value) =
    ∑ j ∈ Finset.range t.size,
      if e.statusOf j = .basic then 0 else coefficient (t.column j) i * (e.valueOf j).value := by
  refine Finset.sum_congr rfl fun j _ => ?_
  split
  · rfl
  · rename_i hstatus
    rw [valueOf_solveValues_of_ne h hstatus]

/-- Values that are computed from the others solve the equations. -/
theorem Current.balanced_solveValues (hcurrent : e.Current t) (ht : t.WellFormed) (h : e.Sound t) :
    (e.solveValues t).Balanced t := by
  intro i hi
  obtain ⟨hlisted, hactivity⟩ := valueAt_nonbasicActivity (e := e) ht hi
  have hsolved := (hcurrent.ftran h hlisted).2 i hi
  unfold Engine.balance
  rw [sum_variables h.toPlaced]
  have hbasic : ∑ p ∈ Finset.range t.rowCount, coefficient (t.column (e.basicAt p)) i *
      ((e.solveValues t).valueOf (e.basicAt p)).value = (e.nonbasicActivity t).valueAt i := by
    rw [← hsolved]
    refine Finset.sum_congr rfl fun p hp => ?_
    rw [valueOf_solveValues h (Finset.mem_range.mp hp)]
    rfl
  rw [hbasic, resting_solveValues h, hactivity]
  exact add_neg_cancel _

/-! ## Values that move together -/

theorem balance_of_change {k : Nat} (hk : k < t.size) {delta : ℚ}
    (hvalue : ∀ j, j < t.size → (e'.valueOf j).value =
      (e.valueOf j).value + if j = k then delta else 0) (i : Nat) :
    e'.balance t i = e.balance t i + coefficient (t.column k) i * delta := by
  have hterm : ∀ j ∈ Finset.range t.size, coefficient (t.column j) i * (e'.valueOf j).value =
      coefficient (t.column j) i * (e.valueOf j).value +
        if j = k then coefficient (t.column j) i * delta else 0 := by
    intro j hj
    rw [hvalue j (Finset.mem_range.mp hj), mul_add, mul_ite, mul_zero]
  unfold Engine.balance
  rw [Finset.sum_congr rfl hterm, Finset.sum_add_distrib, Finset.sum_ite_eq',
    if_pos (Finset.mem_range.mpr hk)]

section Lower

variable (h : e.Sound t) {amounts : List (Nat × Exact 0)}
  (hamounts : ∀ u ∈ amounts, u.1 < t.rowCount)

include h hamounts

theorem value_lowerBasicValues (j : Nat) : ((e.lowerBasicValues amounts).valueOf j).value =
    (e.valueOf j).value - coefficient (amounts.map fun u => (e.basicAt u.1, u.2)) j := by
  rw [lowerBasicValues_eq]
  have hlt : ∀ u ∈ amounts.map fun u => (e.basicAt u.1, u.2), u.1 < e.value.size := by
    intro u hu
    obtain ⟨v, hv, rfl⟩ := List.mem_map.mp hu
    rw [h.size_value]
    exact h.basicAt_lt (hamounts v hv)
  have hfold : arrayAt ((amounts.map fun u => (e.basicAt u.1, u.2)).foldl
      (fun a u => a.modify u.1 (· - u.2)) e.value) j =
      arrayAt e.value j + coefficient (amounts.map fun u => (e.basicAt u.1, u.2)) j * -1 :=
    arrayAt_foldl_update (fun u x => by rw [value_sub, mul_neg_one, sub_eq_add_neg]) hlt j
  rw [List.foldl_map, mul_neg_one, ← sub_eq_add_neg] at hfold
  exact hfold

theorem coefficient_amounts {p : Nat} (hp : p < t.rowCount) :
    coefficient (amounts.map fun u => (e.basicAt u.1, u.2)) (e.basicAt p) =
      coefficient amounts p := by
  induction amounts with
  | nil => rfl
  | cons u amounts ih =>
    have hu := hamounts u List.mem_cons_self
    rw [List.map_cons, coefficient_cons, coefficient_cons,
      ih fun v hv => hamounts v (List.mem_cons_of_mem u hv)]
    by_cases hup : u.1 = p
    · rw [if_pos hup, if_pos (by rw [hup])]
    · rw [if_neg hup, if_neg fun he => hup (h.basicAt_inj hu hp he)]

theorem balance_lowerBasicValues (i : Nat) : (e.lowerBasicValues amounts).balance t i =
    e.balance t i - ∑ p ∈ Finset.range t.rowCount,
      coefficient (t.column (e.basicAt p)) i * coefficient amounts p := by
  have hterm : ∀ j ∈ Finset.range t.size,
      coefficient (t.column j) i * ((e.lowerBasicValues amounts).valueOf j).value =
      coefficient (t.column j) i * (e.valueOf j).value -
        coefficient (amounts.map fun u => (e.basicAt u.1, u.2)) j * coefficient (t.column j) i := by
    intro j _
    rw [value_lowerBasicValues h hamounts]
    ring
  have hlt : ∀ u ∈ amounts.map fun u => (e.basicAt u.1, u.2), u.1 < t.size := by
    intro u hu
    obtain ⟨v, hv, rfl⟩ := List.mem_map.mp hu
    exact h.basicAt_lt (hamounts v hv)
  unfold Engine.balance
  rw [Finset.sum_congr rfl hterm, Finset.sum_sub_distrib, sum_coefficient_mul hlt]
  refine congrArg _ ?_
  have hsum := sum_coefficient_mul hamounts fun p => coefficient (t.column (e.basicAt p)) i
  rw [List.map_map]
  refine Eq.trans ?_ (hsum.symm.trans (Finset.sum_congr rfl fun p _ => mul_comm ..))
  rfl

end Lower

theorem balance_congr (hvalue : e'.value = e.value) (i : Nat) : e'.balance t i = e.balance t i := by
  unfold balance
  refine Finset.sum_congr rfl fun j _ => ?_
  rw [valueOf_congr hvalue]

/-! ## Flips -/

/-- A flip changes the rows by as much as the vector that is kept of the flips. -/
theorem balance_flipInto {s : Engine (Exact 0) × SparseVector (Exact 0)} (h : Sound t s.1)
    (hlisted : s.2.Listed t.rowCount) (j : Nat) {i : Nat} (hi : i < t.rowCount) :
    (flipInto t s j).1.balance t i - (flipInto t s j).2.valueAt i =
      s.1.balance t i - s.2.valueAt i := by
  have hmove : s.1.statusOf j ≠ .basic → (s.1.flip j).balance t i -
      (s.2.addAll ((t.column j).map fun u =>
        (u.1, u.2 * ((s.1.flip j).valueOf j - s.1.valueOf j)))).valueAt i =
      s.1.balance t i - s.2.valueAt i := by
    intro hstatus
    have hj := h.lt_of_statusOf_ne hstatus
    have hvalue : ∀ k, k < t.size → ((s.1.flip j).valueOf k).value = (s.1.valueOf k).value +
        if k = j then ((s.1.flip j).valueOf j - s.1.valueOf j).value else 0 := by
      intro k _
      by_cases hk : k = j
      · rw [if_pos hk, hk, value_sub]
        ring
      · have hsame : (s.1.flip j).valueOf k = s.1.valueOf k := by
          unfold Engine.flip
          rw [valueOf_rest, if_neg fun hc => hk hc.1.symm]
        rw [if_neg hk, add_zero, hsame]
    rw [balance_of_change hj hvalue, SparseVector.valueAt_addAll _ _ (hlisted.dim_eq ▸ hi),
      coefficient_map_mul _ fun _ _ => value_mul _ _]
    ring
  unfold Engine.flipInto
  dsimp only
  split
  · rename_i hstatus
    exact hmove (by rw [hstatus]; exact nofun)
  · rename_i hstatus
    exact hmove (by rw [hstatus]; exact nofun)
  · rfl

/-- The basic values make up for the flips. -/
theorem Current.balance_flipPassed (hcurrent : e.Current t) (ht : t.WellFormed) (h : e.Sound t)
    {flips : List Nat} (hflips : ∀ j ∈ flips, e.hasTwoBounds j = true) {i : Nat}
    (hi : i < t.rowCount) : (e.flipPassed t flips).balance t i = e.balance t i := by
  unfold Engine.flipPassed
  split
  · rfl
  · obtain ⟨hsound, hsetting, hlisted, hbalance⟩ := h.foldl_flipInto
      (P := fun s => s.1.balance t i - s.2.valueAt i = e.balance t i) ht hflips
      (by rw [Job.zeroRow, SparseVector.valueAt_zero, sub_zero])
      fun s j hs hv hP => (balance_flipInto hs hv j hi).trans hP
    obtain ⟨hchange, hsolved⟩ := (hcurrent.of_setting hsetting).ftran hsound hlisted
    dsimp only
    generalize flips.foldl (Engine.flipInto t) (e, t.zeroRow) = s at *
    have hlt : ∀ u ∈ (s.1.ftran s.2).2.entries, u.1 < t.rowCount := by
      intro u hu
      obtain ⟨p, hp, rfl⟩ := List.mem_map.mp hu
      exact hchange.lt hp
    have hmoved : Sound t (s.1.ftran s.2).1 := hsound.of_standing (standing_ftran _ _)
    rw [balance_lowerBasicValues hmoved hlt, ← hbalance, ← hsolved i hi]
    refine congrArg (s.1.balance t i - ·) (Finset.sum_congr rfl fun p _ => ?_)
    rw [hchange.coefficient_entries]
    rfl

/-! ## The basis change -/

/-- What the solve for the entering variable has found: its column in terms of the
basis, and the spike for the update of the factors. -/
structure Entered (t : Job (Exact 0)) (e : Engine (Exact 0)) (x : Exchange (Exact 0)) : Prop where
  listed : x.column.Listed t.rowCount
  solves : ∀ i, i < t.rowCount → ∑ p ∈ Finset.range t.rowCount,
    coefficient (t.column (e.basicAt p)) i * x.column.valueAt p =
      coefficient (t.column x.entering) i
  restores : ∀ i, i < t.rowCount →
    e.factor.lu.restore e.factor.spike.valueAt i = coefficient (t.column x.entering) i
  pivot_ne : x.pivot.value ≠ 0

variable {x : Exchange (Exact 0)}

theorem Entered.of_setting (h : e.Entered t x) (hsetting : e'.setting = e.setting) :
    e'.Entered t x where
  listed := h.listed
  solves := by
    intro i hi
    rw [← h.solves i hi]
    refine Finset.sum_congr rfl fun p _ => ?_
    rw [basicAt_congr hsetting]
  restores := by
    intro i hi
    rw [lu_congr hsetting, spike_congr hsetting]
    exact h.restores i hi
  pivot_ne := h.pivot_ne

theorem Entered.coefficient_exchange (hentered : e.Entered t x) (p : Nat) :
    coefficient (e.amounts x) p =
      x.column.valueAt p * ((e.valueOf x.leaving - e.target x) / x.pivot).value := by
  rw [← hentered.listed.coefficient_entries]
  exact coefficient_map_mul _ (fun u _ => by rw [value_mul, mul_comm]) p

/-- The swap leaves the values alone but for that of the entering variable, as the
leaving one has come to its bound already. -/
theorem Entered.value_swap (hentered : e.Entered t x) (h : e.Sound t) (hx : e.Fits t x) (j : Nat) :
    (((e.lowerBasicValues (e.amounts x)).swap x.position x.entering (e.leavingStatus x)
      ((e.valueOf x.leaving - e.target x) / x.pivot) (e.target x)).valueOf j).value =
    ((e.lowerBasicValues (e.amounts x)).valueOf j).value +
      if j = x.entering then ((e.valueOf x.leaving - e.target x) / x.pivot).value else 0 := by
  obtain ⟨hlowered, hentering⟩ := h.lowerAmounts hx
  have hsame := setting_lowerBasicValues e (e.amounts x)
  by_cases he : j = x.entering
  · rw [if_pos he, he, hlowered.valueOf_swap_entering hx.position_lt hentering, value_add]
  · rw [if_neg he, add_zero, hlowered.valueOf_swap hx.position_lt (Ne.symm he)]
    by_cases hleaving : (e.lowerBasicValues (e.amounts x)).basicAt x.position = j
    · have hcolumn : x.column.valueAt x.position = x.pivot.value := rfl
      rw [if_pos hleaving, ← hleaving, basicAt_congr hsame,
        value_lowerBasicValues h hx.amounts_lt, coefficient_amounts h hx.amounts_lt hx.position_lt,
        hentered.coefficient_exchange, ← hx.leaving_eq, hcolumn, value_div,
        mul_div_cancel₀ _ hentered.pivot_ne, value_sub, sub_sub_cancel]
    · rw [if_neg hleaving]

/-- The entering variable takes over what the basic variables give up. -/
theorem Entered.balance_exchange (hentered : e.Entered t x) (h : e.Sound t) (hx : e.Fits t x)
    (w : EdgeWeights (Exact 0)) {i : Nat} (hi : i < t.rowCount) :
    ({ e.movePrimal x with weights := w }.exchange x).balance t i = e.balance t i := by
  rw [exchange_movePrimal e hx.leaving_eq]
  have hterm : ∀ p ∈ Finset.range t.rowCount,
      coefficient (t.column (e.basicAt p)) i * coefficient (e.amounts x) p =
      coefficient (t.column (e.basicAt p)) i * x.column.valueAt p *
        ((e.valueOf x.leaving - e.target x) / x.pivot).value := by
    intro p _
    rw [hentered.coefficient_exchange, mul_assoc]
  calc ({ (e.lowerBasicValues (e.amounts x)).swap x.position x.entering (e.leavingStatus x)
        ((e.valueOf x.leaving - e.target x) / x.pivot) (e.target x) with
          weights := w } : Engine (Exact 0)).balance t i
      = (e.lowerBasicValues (e.amounts x)).balance t i + coefficient (t.column x.entering) i *
          ((e.valueOf x.leaving - e.target x) / x.pivot).value :=
        balance_of_change hx.entering_lt (fun j _ => hentered.value_swap h hx j) i
    _ = e.balance t i := by
        rw [balance_lowerBasicValues h hx.amounts_lt, ← hentered.solves i hi, Finset.sum_mul,
          Finset.sum_congr rfl hterm, sub_add_cancel]

/-- A basis change keeps the equations. -/
theorem Entered.balance_applyExchange (hentered : e.Entered t x) (hcurrent : e.Current t)
    (ht : t.WellFormed) (h : e.Sound t) (hx : e.Fits t x) {i : Nat} (hi : i < t.rowCount) :
    (e.applyExchange t x).1.balance t i = e.balance t i := by
  have hduals : ((e.tau? t x.row.rho).1.moveDuals t x).standing = e.standing :=
    (standing_moveDuals _ x).trans (standing_tau e _)
  have hsame := setting_congr hduals
  rw [← balance_congr (value_congr hduals)]
  unfold Engine.applyExchange
  dsimp only
  generalize (e.tau? t x.row.rho).2 = tau
  have h := h.of_standing hduals
  have hx := hx.congr hsame
  have hentered := hentered.of_setting hsame
  have hcurrent := hcurrent.of_setting hsame
  generalize (e.tau? t x.row.rho).1.moveDuals t x = e at h hx hentered hcurrent ⊢
  obtain ⟨hflipped, hsetting⟩ := h.flipPassed ht hx.flips
  rw [← hcurrent.balance_flipPassed ht h hx.flips hi]
  exact (hentered.of_setting hsetting).balance_exchange hflipped (hx.congr hsetting)
    (((e.flipPassed t x.flips).movePrimal x).weights.update x.position x.column tau).1 hi

/-- Updated factors are those of the new basis. -/
theorem Entered.current_update (hentered : e.Entered t x) (hcurrent : e.Current t) (h : e.Sound t)
    (hx : e.Fits t x) (htolerance : 0 < e.factor.parameters.pivotTolerance.value)
    {lu' : LU (Exact 0)} (hupdate : e.factor.lu.update x.position e.factor.spike x.pivot
      e.factor.parameters.pivotTolerance = .ok lu')
    (hindex : e'.basicIndex = e.basicIndex.setIfInBounds x.position x.entering)
    (hlu : e'.factor.lu = lu') : e'.Current t := by
  have hm : e.factor.lu.m = t.rowCount := h.factor.m_eq
  have hspike : e.factor.spike.Listed e.factor.lu.m := hm.symm ▸ h.factor.spike
  have hposition : x.position < e.factor.lu.m := hm.symm ▸ hx.position_lt
  refine ⟨?_, fun i p hi hp => ?_⟩
  · rw [hlu]
    exact hcurrent.solvable.update hposition hspike.nodup (fun i hi => hspike.lt hi) htolerance
      hupdate
  · rw [hlu, hcurrent.solvable.matrixAt_update hposition hspike hupdate
      (hm.symm ▸ hi) (hm.symm ▸ hp)]
    have hat : e'.basicAt p = if p = x.position then x.entering else e.basicAt p := by
      unfold basicAt
      rw [hindex, getD_setIfInBounds, h.size_basicIndex]
      by_cases hpx : p = x.position
      · rw [if_pos ⟨hpx.symm, hp⟩, if_pos hpx]
      · rw [if_neg fun hc => hpx hc.1.symm, if_neg hpx]
    rw [hat]
    by_cases hpx : p = x.position
    · rw [if_pos hpx, if_pos hpx]
      exact hentered.restores i hi
    · rw [if_neg hpx, if_neg hpx]
      exact hcurrent.matrixAt i p hi hp

end Engine
end DualSimplex
