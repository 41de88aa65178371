import DualSimplex.Proofs.Engine.Equations

/-!
# Reduced costs

With exact numbers the multipliers that an engine computes make the basic columns
worth what they cost.  The reduced cost of a variable is what its cost exceeds the
worth of its column by.
-/

namespace DualSimplex

open Scalar Exact

/-- What a column is worth if its rows are worth `y`. -/
def Job.worth (t : Job (Exact 0)) (y : Nat → ℚ) (j : Nat) : ℚ :=
  ∑ i ∈ Finset.range t.rowCount, coefficient (t.column j) i * y i

namespace Job

variable {t : Job (Exact 0)} {y : Nat → ℚ}

theorem worth_column (ht : t.WellFormed) {j : Nat} (hj : j < t.columnCount)
    (multipliers : Array (Exact 0)) :
    (t.program.columns.lineDot j multipliers).value = t.worth (arrayAt multipliers) j := by
  have hrow : ∀ u ∈ t.program.columns.line j, u.1 < t.rowCount := ht.program.row_lt j hj
  have hcolumn : t.column j = t.program.columns.line j := if_pos hj
  unfold worth
  rw [hcolumn, sum_coefficient_mul hrow, Matrix.lineDot, value_sum, List.map_map]
  refine congrArg List.sum (List.map_congr_left fun u _ => ?_)
  exact value_mul _ _

theorem coefficient_logical (i k : Nat) :
    coefficient (t.column (t.columnCount + k)) i = if k = i then 1 else 0 := by
  have hcolumn : t.column (t.columnCount + k) = [(k, 1)] := by
    unfold column
    rw [if_neg (by omega), Nat.add_sub_cancel_left]
  rw [hcolumn, coefficient_cons, coefficient_nil, add_zero]
  rfl

theorem worth_logical {k : Nat} (hk : k < t.rowCount) : t.worth y (t.columnCount + k) = y k := by
  have hterm : ∀ i ∈ Finset.range t.rowCount,
      coefficient (t.column (t.columnCount + k)) i * y i = if k = i then y i else 0 := by
    intro i _
    rw [coefficient_logical, ite_mul, one_mul, zero_mul]
  unfold worth
  rw [Finset.sum_congr rfl hterm, Finset.sum_ite_eq, if_pos (Finset.mem_range.mpr hk)]

end Job

namespace Engine

variable {t : Job (Exact 0)} {e e' : Engine (Exact 0)}

/-! ## Multipliers -/

theorem basicCosts_eq (e : Engine (Exact 0)) : e.basicCosts t =
    t.zeroRow.addAll (e.basicIndex.toList.zipIdx.map fun u => (u.2, e.costOf u.1)) := by
  unfold basicCosts SparseVector.addAll
  rw [List.foldl_map]
  refine congrArg (fun f => List.foldl f t.zeroRow e.basicIndex.toList.zipIdx)
    (funext fun v => funext fun u => ?_)
  dsimp only
  split
  · rename_i hzero
    unfold SparseVector.add
    rw [if_pos hzero]
  · rfl

/-- The costs of the basic variables, by position. -/
theorem Placed.basicCosts (h : e.Placed t) : (e.basicCosts t).Listed t.rowCount ∧
    ∀ p, p < t.rowCount → (e.basicCosts t).valueAt p = (e.costOf (e.basicAt p)).value := by
  have hlt : ∀ u ∈ e.basicIndex.toList.zipIdx.map fun u => (u.2, e.costOf u.1),
      u.1 < t.rowCount := by
    intro u hu
    obtain ⟨⟨j, p⟩, hp, rfl⟩ := List.mem_map.mp hu
    obtain ⟨hp, -⟩ := List.getElem?_eq_some_iff.mp (List.mk_mem_zipIdx_iff_getElem?.mp hp)
    rw [Array.length_toList, h.size_basicIndex] at hp
    exact hp
  have hkeys : DistinctKeys (e.basicIndex.toList.zipIdx.map fun u => (u.2, e.costOf u.1)) := by
    unfold DistinctKeys
    rw [List.map_map]
    show (e.basicIndex.toList.zipIdx.map Prod.snd).Nodup
    rw [List.zipIdx_map_snd]
    exact List.nodup_range'
  rw [basicCosts_eq]
  refine ⟨listed_zeroRow.addAll hlt, fun p hp => ?_⟩
  have hzero : t.zeroRow.valueAt p = 0 := SparseVector.valueAt_zero ..
  rw [SparseVector.valueAt_addAll _ _ ((listed_zeroRow (t := t)).dim_eq ▸ hp), hzero, zero_add]
  refine coefficient_of_mem hkeys (List.mem_map.mpr ⟨(e.basicAt p, p), ?_, rfl⟩)
  have hlt : p < e.basicIndex.size := h.size_basicIndex ▸ hp
  rw [List.mk_mem_zipIdx_iff_getElem?]
  unfold Engine.basicAt
  rw [getD_eq_getElem hlt, Array.getElem?_toList, Array.getElem?_eq_getElem hlt]

/-- What a solve with the transpose of the basis gives. -/
theorem Current.btran (hcurrent : e.Current t) (h : e.Sound t) {v : SparseVector (Exact 0)}
    (hv : v.Listed t.rowCount) {p : Nat} (hp : p < t.rowCount) :
    t.worth (e.btran v).2.valueAt (e.basicAt p) = v.valueAt p := by
  have hm : t.rowCount = e.factor.lu.m := h.factor.m_eq.symm
  have hmatrix := hcurrent.matrixAt
  unfold Job.worth
  rw [hm] at hv hp hmatrix ⊢
  rw [← hcurrent.solvable.sum_matrixAt_mul_btran hv hp]
  refine Finset.sum_congr rfl fun i hi => ?_
  rw [hmatrix i p (Finset.mem_range.mp hi) hp]
  rfl

theorem Current.listed_btran (hcurrent : e.Current t) (h : e.Sound t)
    {v : SparseVector (Exact 0)} (hv : v.Listed t.rowCount) :
    (e.btran v).2.Listed t.rowCount := by
  have hm : t.rowCount = e.factor.lu.m := h.factor.m_eq.symm
  rw [hm] at hv ⊢
  exact (hcurrent.solvable.btran_stages hv).1

/-! ## Reduced costs -/

/-- The reduced costs are the costs less what the multipliers make the columns worth,
and nothing is left for the basic variables. -/
structure Priced (t : Job (Exact 0)) (e : Engine (Exact 0)) : Prop where
  reducedCost : ∀ j, j < t.size → (e.reducedCostOf j).value =
    (e.costOf j).value - t.worth (arrayAt e.multipliers) j
  basic : ∀ j, j < t.size → e.statusOf j = .basic → (e.reducedCostOf j).value = 0

theorem value_reducedCosts (ht : t.WellFormed) (h : e.Placed t) (multipliers : Array (Exact 0))
    {j : Nat} (hj : j < t.size) : ((e.reducedCosts t multipliers).getD j 0).value =
      if e.statusOf j = .basic then 0
      else (e.costOf j).value - t.worth (arrayAt multipliers) j := by
  unfold Engine.reducedCosts
  dsimp only
  rw [← Array.foldl_toList]
  generalize hall : (List.map (fun j => e.costOf j - t.program.columns.lineDot j multipliers)
    (List.range t.columnCount) ++ List.map (fun i => e.costOf (t.columnCount + i) -
      multipliers.getD i 0) (List.range t.rowCount)).toArray = all
  have hsize : all.size = t.size := by
    rw [← hall, List.size_toArray, List.length_append, List.length_map, List.length_map,
      List.length_range, List.length_range]
    rfl
  have hvalue : (all.getD j 0).value = (e.costOf j).value - t.worth (arrayAt multipliers) j := by
    rw [← hall, getD_toArray, List.getD_eq_getElem?_getD]
    by_cases hcolumn : j < t.columnCount
    · rw [List.getElem?_append_left (by simpa using hcolumn), List.getElem?_map,
        List.getElem?_range hcolumn, ← Job.worth_column ht hcolumn]
      rfl
    · obtain ⟨i, rfl⟩ : ∃ i, j = t.columnCount + i := ⟨j - t.columnCount, by omega⟩
      have hi : i < t.rowCount := Nat.lt_of_add_lt_add_left hj
      rw [List.getElem?_append_right (by simp), List.length_map, List.length_range,
        Nat.add_sub_cancel_left, List.getElem?_map, List.getElem?_range hi, Job.worth_logical hi]
      rfl
  have hkeys : (e.basicIndex.toList.map id).Nodup := by
    rw [List.map_id]
    exact h.nodup
  split
  · rename_i hbasic
    exact congrArg Exact.value (getD_foldl_set_of_mem id (fun _ => (0 : Exact 0)) hkeys
      ((h.mem_iff j hj).mpr hbasic) (hsize.symm ▸ hj) 0)
  · rename_i hbasic
    have hout : ∀ k ∈ e.basicIndex.toList, id k ≠ j := by
      rintro k hk rfl
      exact hbasic ((h.mem_iff k hj).mp hk)
    rw [← hvalue]
    exact congrArg Exact.value (getD_foldl_set_of_notMem id (fun _ => (0 : Exact 0)) hout all 0)

/-- Whatever the costs are, the reduced costs that are computed from them go with the
multipliers. -/
theorem Current.priced_solveDuals (hcurrent : e.Current t) (ht : t.WellFormed) (h : e.Sound t) :
    (e.solveDuals t).Priced t := by
  obtain ⟨hlisted, hcosts⟩ := h.toPlaced.basicCosts
  have hvalue : ∀ j, j < t.size → ((e.solveDuals t).reducedCostOf j).value =
      if e.statusOf j = .basic then 0
      else (e.costOf j).value - t.worth (arrayAt (e.solveDuals t).multipliers) j := fun j hj =>
    value_reducedCosts ht (h.of_standing (standing_btran e (e.basicCosts t))).toPlaced _ hj
  refine ⟨fun j hj => ?_, fun j hj hbasic => ?_⟩
  · rw [hvalue j hj]
    split
    · rename_i hbasic
      obtain ⟨p, hp, rfl⟩ := h.exists_position ((h.mem_iff j hj).mpr hbasic)
      have hpriced : t.worth (arrayAt (e.solveDuals t).multipliers) (e.basicAt p) =
          (e.costOf (e.basicAt p)).value := by
        rw [← hcosts p hp]
        exact hcurrent.btran h hlisted hp
      show 0 = (e.costOf (e.basicAt p)).value - _
      rw [hpriced, sub_self]
    · rfl
  · rw [hvalue j hj]
    exact if_pos hbasic

/-- The reduced costs depend on the costs, the basis and its factors. -/
theorem solveDuals_congr (hcost : e'.cost = e.cost) (hindex : e'.basicIndex = e.basicIndex)
    (hlu : e'.factor.lu = e.factor.lu) :
    (e'.solveDuals t).multipliers = (e.solveDuals t).multipliers ∧
    (e'.solveDuals t).reducedCost = (e.solveDuals t).reducedCost := by
  have hcostOf : e'.costOf = e.costOf := by
    unfold costOf
    rw [hcost]
  have hcosts : e'.basicCosts t = e.basicCosts t := by
    unfold Engine.basicCosts
    rw [hindex, hcostOf]
  have hmultipliers : (e'.solveDuals t).multipliers = (e.solveDuals t).multipliers := by
    show (e'.factor.lu.btran (e'.basicCosts t)).values = (e.factor.lu.btran (e.basicCosts t)).values
    rw [hcosts, hlu]
  refine ⟨hmultipliers, ?_⟩
  show (e'.btran (e'.basicCosts t)).1.reducedCosts t (e'.solveDuals t).multipliers =
    (e.btran (e.basicCosts t)).1.reducedCosts t (e.solveDuals t).multipliers
  have hreduced : ∀ y, e'.reducedCosts t y = e.reducedCosts t y := by
    intro y
    unfold Engine.reducedCosts
    rw [hindex, hcostOf]
  rw [hmultipliers]
  exact hreduced _

end Engine
end DualSimplex
