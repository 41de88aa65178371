import DualSimplex.Proofs.BasisInverse
import DualSimplex.Proofs.EdgeWeights
import DualSimplex.Proofs.Sparse
import Mathlib.LinearAlgebra.Matrix.Notation

/-!
# Weights of steepest edge pricing

The weight of a basis position stands for the squared norm of its row of the basis inverse, but
it is never less than one.  Weights that were raised to one stay above the norms through a basis
change, as the weight at the pivot enters those at other positions with a square.
-/

section

open Matrix BasisInverse

namespace DualSimplex

open Scalar Exact

theorem SparseVector.Listed.value_normSquared {v : SparseVector (Exact 0)} {m : Nat}
    (hv : v.Listed m) : v.normSquared.value = ∑ i ∈ Finset.range m, v.valueAt i ^ 2 := by
  have hfold : ∀ (l : List Nat) (x : Exact 0),
      (l.foldl (fun total i => total + v.get i * v.get i) x).value =
        x.value + (l.map fun i => v.valueAt i ^ 2).sum := by
    intro l
    induction l with
    | nil => exact fun x => (add_zero _).symm
    | cons i l ih =>
      intro x
      rw [List.foldl_cons, ih, List.map_cons, List.sum_cons, value_add, value_mul, add_assoc, sq]
      rfl
  have hzero : (0 : Exact 0).value = 0 := rfl
  rw [SparseVector.normSquared, hfold, hzero, zero_add, ← List.sum_toFinset _ hv.nodup]
  refine Finset.sum_subset (fun i hi => ?_) fun i _ hi => ?_
  · exact Finset.mem_range.mpr (hv.lt (List.mem_toFinset.mp hi))
  · rw [hv.valueAt_eq_zero fun hmem => hi (List.mem_toFinset.mpr hmem), sq, zero_mul]

namespace EdgeWeights

variable {weights : Array (Exact 0)} {position : Nat} {column : SparseVector (Exact 0)}

/-! ## What an update does to each weight -/

/-- Weights that are put at distinct positions are each renewed from the old one. -/
theorem getD_foldl_put {α : Type} [Scalar α] (renew : Nat → α → α) {l : List Nat} (hl : l.Nodup)
    {t : Tally α} (hlt : ∀ i ∈ l, i < t.weights.size) :
    (l.foldl (fun t i => t.put i (renew i (t.weights.getD i 1))) t).weights.size =
      t.weights.size ∧
    ∀ k, (l.foldl (fun t i => t.put i (renew i (t.weights.getD i 1))) t).weights.getD k 1 =
      if k ∈ l then renew k (t.weights.getD k 1) else t.weights.getD k 1 := by
  have hstep : ∀ s : Tally α, s.weights.size = t.weights.size → ∀ j ∈ l,
      (s.put j (renew j (s.weights.getD j 1))).weights.size = t.weights.size ∧ ∀ k,
        (k, (s.put j (renew j (s.weights.getD j 1))).weights.getD k 1) =
          if j = k then (k, renew k (s.weights.getD k 1)) else (k, s.weights.getD k 1) := by
    intro s hs j hj
    have hj : j < s.weights.size := hs.symm ▸ hlt j hj
    refine ⟨(Array.size_setIfInBounds ..).trans hs, fun k => ?_⟩
    have hput : (s.put j (renew j (s.weights.getD j 1))).weights.getD k 1 =
        if j = k then renew j (s.weights.getD j 1) else s.weights.getD k 1 :=
      getD_setIfInBounds_of_lt hj k _ _
    rw [hput]
    by_cases hjk : j = k
    · subst hjk
      rw [if_pos rfl, if_pos rfl]
    · rw [if_neg hjk, if_neg hjk]
  obtain ⟨hsize, hview⟩ := foldl_distinct
    (fun s : Tally α => s.weights.size = t.weights.size)
    (fun s k => (k, s.weights.getD k 1)) (fun u => (u.1, renew u.1 u.2)) hl rfl
    fun s hs j hj _ => hstep s hs j hj
  refine ⟨hsize, fun k => ?_⟩
  have hk := congrArg Prod.snd (hview k)
  by_cases hmem : k ∈ l
  · rw [if_pos hmem] at hk ⊢
    exact hk
  · rw [if_neg hmem] at hk ⊢
    exact hk

/-- The weight that an update gives to a position where the column has the value `entry`. -/
def renewed (tau : SparseVector (Exact 0)) (pivot pivotWeight : ℚ) (i : Nat) (entry old : ℚ) : ℚ :=
  max (old + entry / pivot * (entry / pivot * pivotWeight - 2 * tau.valueAt i)) 1

/-- `renewed` as the update computes it. -/
def renewal (column tau : SparseVector (Exact 0)) (position : Nat) (pivotWeight : Exact 0) (i : Nat)
    (old : Exact 0) : Exact 0 :=
  larger (old + column.get i / column.get position *
    (column.get i / column.get position * pivotWeight - 2.0 * tau.get i)) 1

theorem value_renewal (column tau : SparseVector (Exact 0)) (position : Nat)
    (pivotWeight : Exact 0) (i : Nat) (old : Exact 0) :
    (renewal column tau position pivotWeight i old).value =
      renewed tau (column.valueAt position) pivotWeight.value i (column.valueAt i) old.value := by
  have htwo : (2.0 : Exact 0).value = 2 := by
    show (2.0 : ℚ) = 2
    norm_num
  rw [renewal, value_larger, value_add, value_mul, value_div, value_sub, value_mul, value_mul,
    value_div, htwo]
  rfl

/-- The positions that an update visits besides that of the pivot. -/
def visited (column : SparseVector (Exact 0)) (position : Nat) : List Nat :=
  column.support.filter (· != position)

theorem update_steepestEdge (weights : Array (Exact 0)) (position : Nat)
    (column tau : SparseVector (Exact 0)) :
    ((steepestEdge weights).update position column (some tau)).1 = .steepestEdge
      (((visited column position).foldl (fun t i => Tally.put t i
        (renewal column tau position (weights.getD position 1) i (t.weights.getD i 1)))
        ({ weights := weights, largest := 0 } : Tally (Exact 0))).weights.setIfInBounds position
          (larger (weights.getD position 1 / (column.get position * column.get position)) 1)) := by
  have hvisited : column.entries.filter (fun u => u.1 != position) =
      (visited column position).map fun i => (i, column.get i) := List.filter_map ..
  unfold EdgeWeights.update pivotWeights
  dsimp only
  rw [hvisited, List.foldl_map]
  rfl

theorem value_getD_one {ws : Array (Exact 0)} {i : Nat} (hi : i < ws.size) :
    (ws.getD i 1).value = arrayAt ws i := by
  rw [arrayAt, getD_eq_getElem hi, getD_eq_getElem hi]

/-- An update renews the weights at the positions that the column lists, each from its old value
and the old weight at the pivot, and leaves the others alone. -/
theorem exists_update (hposition : position < weights.size)
    (hcolumn : column.Listed weights.size) (tau : SparseVector (Exact 0)) : ∃ ws,
    ((steepestEdge weights).update position column (some tau)).1 = .steepestEdge ws ∧
    ws.size = weights.size ∧ ∀ i, i < weights.size → arrayAt ws i =
      if i = position then
        max (arrayAt weights position / (column.valueAt position * column.valueAt position)) 1
      else if i ∈ column.support then
        renewed tau (column.valueAt position) (arrayAt weights position) i (column.valueAt i)
          (arrayAt weights i)
      else arrayAt weights i := by
  have hdistinct : (visited column position).Nodup := hcolumn.nodup.filter _
  obtain ⟨hsize, hfold⟩ := getD_foldl_put
    (renewal column tau position (weights.getD position 1)) hdistinct
    (t := { weights := weights, largest := 0 })
    fun i hi => hcolumn.lt (List.mem_of_mem_filter hi)
  refine ⟨_, update_steepestEdge weights position column tau,
    (Array.size_setIfInBounds ..).trans hsize, fun i hi => ?_⟩
  rw [arrayAt, getD_setIfInBounds_of_lt (hsize.symm ▸ hposition)]
  by_cases hpivot : i = position
  · rw [if_pos hpivot.symm, if_pos hpivot, value_larger, value_div, value_mul,
      value_getD_one hposition]
    rfl
  · have hmem : i ∈ visited column position ↔ i ∈ column.support := by
      rw [visited, List.mem_filter, bne_iff_ne]
      exact and_iff_left hpivot
    rw [if_neg (Ne.symm hpivot), if_neg hpivot]
    refine (value_getD_one (hsize.symm ▸ hi)).symm.trans ?_
    rw [hfold]
    by_cases hlisted : i ∈ column.support
    · rw [if_pos (hmem.mpr hlisted), if_pos hlisted, value_renewal, value_getD_one hi,
        value_getD_one hposition]
    · rw [if_neg fun hc => hlisted (hmem.mp hc), if_neg hlisted, value_getD_one hi]

/-! ## Norms -/

variable {m : Nat} {B : Square m} {a : Fin m → ℚ} {p : Fin m} {tau : SparseVector (Exact 0)}

/-- The column of a basis change and the product that belongs to its pivot row, as they are
solved for with the basis matrix. -/
structure Solved (B : Square m) (a : Fin m → ℚ) (p : Fin m) (column tau : SparseVector (Exact 0)) :
    Prop where
  listed : column.Listed m
  column : ∀ i : Fin m, column.valueAt i = (B⁻¹ *ᵥ a) i
  tau : ∀ i : Fin m, tau.valueAt i = (B⁻¹ *ᵥ (B⁻¹ᵀ *ᵥ Pi.single p 1)) i

section Solved

variable (hB : IsUnit B.det) (hpivot : (B⁻¹ *ᵥ a) p ≠ 0) (hsolved : Solved B a p column tau)

include hB hpivot hsolved

/-- The norms of the new rows, as far as an update is concerned with them. -/
theorem Solved.rowNorm_eq (i : Fin m) : rowNorm (B.updateCol p a)⁻¹ i =
    if i = p then rowNorm B⁻¹ p / (column.valueAt p * column.valueAt p)
    else if i.val ∈ column.support then
      rowNorm B⁻¹ i + column.valueAt i / column.valueAt p *
        (column.valueAt i / column.valueAt p * rowNorm B⁻¹ p - 2 * tau.valueAt i)
    else rowNorm B⁻¹ i := by
  by_cases hi : i = p
  · rw [rowNorm_updateCol hB hpivot, hsolved.column p, if_pos hi, if_pos hi]
  · rw [if_neg hi]
    by_cases hlisted : i.val ∈ column.support
    · rw [if_pos hlisted, rowNorm_updateCol hB hpivot, if_neg hi, hsolved.column p,
        hsolved.column i, hsolved.tau i]
    · rw [if_neg hlisted]
      have hzero : (B⁻¹ *ᵥ a) i = 0 :=
        (hsolved.column i).symm.trans (hsolved.listed.valueAt_eq_zero hlisted)
      exact rowNorm_updateCol_of_eq_zero hB hpivot hi hzero

omit hB hpivot in
/-- An update at the position of the replaced column, as far as the norms of the rows go. -/
theorem Solved.exists_update (hsize : weights.size = m) : ∃ ws,
    ((steepestEdge weights).update p column (some tau)).1 = .steepestEdge ws ∧ ws.size = m ∧
    ∀ i : Fin m, arrayAt ws i =
      if i = p then max (arrayAt weights p / (column.valueAt p * column.valueAt p)) 1
      else if i.val ∈ column.support then
        renewed tau (column.valueAt p) (arrayAt weights p) i (column.valueAt i) (arrayAt weights i)
      else arrayAt weights i := by
  subst hsize
  obtain ⟨ws, hupdate, hsize, hvalue⟩ := EdgeWeights.exists_update p.isLt hsolved.listed tau
  refine ⟨ws, hupdate, hsize, fun i => (hvalue i i.isLt).trans ?_⟩
  by_cases hi : i = p
  · rw [if_pos hi, if_pos (congrArg Fin.val hi)]
  · rw [if_neg hi, if_neg fun h => hi (Fin.ext h)]

/-- Weights that are at least as large as the norms stay so. -/
theorem Solved.le_update (hsize : weights.size = m)
    (hle : ∀ i : Fin m, max 1 (rowNorm B⁻¹ i) ≤ arrayAt weights i) : ∃ ws,
    ((steepestEdge weights).update p column (some tau)).1 = .steepestEdge ws ∧ ws.size = m ∧
    ∀ i : Fin m, max 1 (rowNorm (B.updateCol p a)⁻¹ i) ≤ arrayAt ws i := by
  obtain ⟨ws, hupdate, hsize', hvalue⟩ := hsolved.exists_update hsize
  have hnorm : ∀ i, rowNorm B⁻¹ i ≤ arrayAt weights i := fun i => (le_max_right _ _).trans (hle i)
  refine ⟨ws, hupdate, hsize', fun i => ?_⟩
  rw [hsolved.rowNorm_eq hB hpivot, hvalue]
  by_cases hi : i = p
  · rw [if_pos hi, if_pos hi, max_comm]
    exact max_le_max (div_le_div_of_nonneg_right (hnorm p) (mul_self_nonneg _)) le_rfl
  · rw [if_neg hi, if_neg hi]
    by_cases hlisted : i.val ∈ column.support
    · rw [if_pos hlisted, if_pos hlisted, max_comm]
      unfold renewed
      generalize column.valueAt i / column.valueAt p = r
      -- the weight at the pivot stands for a norm that is added with a square
      have hsquare : r * r * rowNorm B⁻¹ p ≤ r * r * arrayAt weights p :=
        mul_le_mul_of_nonneg_left (hnorm p) (mul_self_nonneg r)
      have hold := hnorm i
      exact max_le_max (by linarith) le_rfl
    · rw [if_neg hlisted, if_neg hlisted]
      exact hle i

/-- An update turns the norms into the new ones, raised to one where it has touched them. -/
theorem Solved.update_eq (hsize : weights.size = m)
    (hnorms : ∀ i : Fin m, arrayAt weights i = rowNorm B⁻¹ i) : ∃ ws,
    ((steepestEdge weights).update p column (some tau)).1 = .steepestEdge ws ∧ ws.size = m ∧
    ∀ i : Fin m, arrayAt ws i =
      if i = p ∨ i.val ∈ column.support then max 1 (rowNorm (B.updateCol p a)⁻¹ i)
      else rowNorm (B.updateCol p a)⁻¹ i := by
  obtain ⟨ws, hupdate, hsize', hvalue⟩ := hsolved.exists_update hsize
  refine ⟨ws, hupdate, hsize', fun i => ?_⟩
  rw [hsolved.rowNorm_eq hB hpivot, hvalue]
  by_cases hi : i = p
  · rw [if_pos hi, if_pos (Or.inl hi), if_pos hi, max_comm, hnorms]
  · rw [if_neg hi, if_neg hi]
    by_cases hlisted : i.val ∈ column.support
    · rw [if_pos hlisted, if_pos (Or.inr hlisted), if_pos hlisted, max_comm]
      unfold renewed
      rw [hnorms, hnorms]
    · rw [if_neg hlisted, if_neg hlisted, if_neg fun hc => hc.elim hi hlisted, hnorms]

end Solved

/-- A row that a basis change leaves alone keeps a weight below one. -/
theorem update_leaves_weight_below_one :
    let B : Square 2 := Matrix.diagonal ![2, 1]
    let a : Fin 2 → ℚ := ![0, 2]
    let weights : Array (Exact 0) := #[ofRat (1 / 4), 1]
    let column : SparseVector (Exact 0) := SparseVector.single 2 1 (ofRat 2)
    let tau : SparseVector (Exact 0) := SparseVector.single 2 1 1
    IsUnit B.det ∧ IsUnit (B.updateCol 1 a).det ∧
    (∀ i : Fin 2, arrayAt weights i = rowNorm B⁻¹ i) ∧ Solved B a 1 column tau ∧
    ∃ ws, ((steepestEdge weights).update 1 column (some tau)).1 = .steepestEdge ws ∧
      arrayAt ws 0 ≠ max 1 (rowNorm (B.updateCol 1 a)⁻¹ 0) := by
  intro B a weights column tau
  have hinverse : B⁻¹ = Matrix.diagonal ![1 / 2, 1] := by
    refine Matrix.inv_eq_left_inv ?_
    rw [Matrix.diagonal_mul_diagonal, ← Matrix.diagonal_one]
    refine congrArg Matrix.diagonal (funext fun i => ?_)
    fin_cases i
    · norm_num
    · norm_num
  have hnew : B.updateCol 1 a = Matrix.diagonal ![2, 2] := by
    ext i j
    fin_cases i <;> fin_cases j <;> simp [B, a]
  have hnorm : ∀ i : Fin 2, arrayAt weights i = rowNorm B⁻¹ i := by
    intro i
    rw [hinverse, rowNorm, Fin.sum_univ_two]
    fin_cases i
    · norm_num [arrayAt, weights]
    · norm_num [arrayAt, weights]
  have hcolumn : ∀ (x : Exact 0) (i : Fin 2),
      (SparseVector.single 2 1 x).valueAt i = if i = 1 then x.value else 0 := by
    intro x i
    rw [SparseVector.valueAt_single (by decide)]
    fin_cases i
    · rfl
    · rfl
  have hsolved : Solved B a 1 column tau := by
    refine ⟨SparseVector.listed_single (by decide) (by decide), fun i => ?_, fun i => ?_⟩
    · rw [hinverse, Matrix.mulVec_diagonal, hcolumn]
      fin_cases i
      · simp [a]
      · simp [a]
    · rw [hinverse, Matrix.diagonal_transpose, Matrix.mulVec_diagonal, Matrix.mulVec_diagonal,
        hcolumn]
      fin_cases i
      · simp
      · simp
  refine ⟨?_, ?_, hnorm, hsolved, ?_⟩
  · rw [Matrix.det_diagonal, Fin.prod_univ_two]
    norm_num
  · rw [hnew, Matrix.det_diagonal, Fin.prod_univ_two]
    norm_num
  · obtain ⟨ws, hupdate, -, hvalue⟩ := hsolved.exists_update (show weights.size = 2 from rfl)
    have hold := hvalue 0
    have hunlisted : (0 : Fin 2).val ∉ column.support := by decide
    rw [if_neg (by decide), if_neg hunlisted] at hold
    refine ⟨ws, hupdate, ne_of_lt ?_⟩
    calc arrayAt ws 0 = 1 / 4 := hold
      _ < 1 := by norm_num
      _ ≤ max 1 _ := le_max_left ..

end EdgeWeights
end DualSimplex

end
