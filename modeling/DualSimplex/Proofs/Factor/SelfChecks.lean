import DualSimplex.Proofs.Factor.FactoredBasis
import DualSimplex.Proofs.Factor.Replacement

/-!
# The checks that factors make on themselves

Fresh factors are tried on the sum of all columns, for which the solution is all ones.  A
replacement computes its new diagonal value in two ways.  With exact numbers neither check
ever finds a difference.
-/

namespace DualSimplex

open Scalar Exact

/-- Two computations of a number other than zero do not differ, whatever their marks. -/
theorem Bound.exceeds_discrepancy_of_ne_zero {a b : Exact 0} (hvalue : a.value = b.value)
    (hne : a.value ≠ 0) {limit : Exact 0} (hlimit : 0 ≤ limit.value) :
    (Bound.discrepancy a b).exceeds limit = false := by
  have hscale : (smaller (magnitude a) (magnitude b)).value = |a.value| := by
    unfold smaller
    split
    · exact Exact.abs_eq _
    · exact (Exact.abs_eq _).trans (by rw [hvalue])
  have hsignificant : (smaller (magnitude a) (magnitude b) == 0) = false :=
    beq_zero_eq_false (by rw [hscale]; exact abs_ne_zero.mpr hne)
  have hdifference : (magnitude (a - b) / smaller (magnitude a) (magnitude b)).value = 0 := by
    rw [value_div, value_magnitude, value_sub, hvalue, sub_self, Exact.abs_eq, abs_zero, zero_div]
  unfold Bound.discrepancy
  dsimp only
  rw [hsignificant, if_neg Bool.false_ne_true]
  refine decide_eq_false fun hlt => ?_
  rw [lt_iff, hdifference] at hlt
  exact absurd hlt (not_lt.mpr hlimit)

/-! ## The residual -/

theorem value_maxAbs_of_zero {xs : List (Exact 0)} (h : ∀ x ∈ xs, x.value = 0) :
    (maxAbs xs).value = 0 := by
  refine List.foldlRecOn (motive := fun m : Exact 0 => m.value = 0) xs _ (b := 0) rfl
    fun m hm x hx => ?_
  rw [value_larger, value_magnitude, Exact.abs_eq, hm, h x hx, abs_zero, max_self]

/-- The sum of all columns. -/
theorem coefficient_flatten (columns : List (List (Nat × Exact 0))) (i : Nat) :
    coefficient columns.flatten i =
      ∑ p ∈ Finset.range columns.length, coefficient (columns.getD p []) i := by
  induction columns with
  | nil => rfl
  | cons column columns ih =>
    rw [List.flatten_cons, coefficient_append, ih, List.length_cons, Finset.sum_range_succ',
      add_comm]
    rfl

namespace FactoredBasis

variable {f : FactoredBasis (Exact 0)} {columns : List (List (Nat × Exact 0))}

/-- Factors of the columns find no residual. -/
theorem value_residual (hf : f.lu.Solvable) (hcolumns : SquareColumns columns)
    (hm : columns.length = f.m) (hmatrix : ∀ i p, i < f.m → p < f.m →
      f.lu.matrixAt i p = coefficient (columns.getD p []) i) : (f.residual columns).value = 0 := by
  have hzero : (SparseVector.zero (α := Exact 0) f.m SparseVector.defaultDensity).Listed f.m :=
    SparseVector.listed_zero _ _
  have hlt : ∀ u ∈ columns.flatten, u.1 < f.m := by
    intro u hu
    obtain ⟨column, hcolumn, hu⟩ := List.mem_flatten.mp hu
    exact hm ▸ hcolumns.row_lt column hcolumn u hu
  have hlisted : (SparseVector.ofTerms f.m columns.flatten).Listed f.m := hzero.addAll hlt
  have hsum : ∀ i, i < f.m → ∑ p ∈ Finset.range f.m, f.lu.matrixAt i p * 1 =
      (SparseVector.ofTerms f.m columns.flatten).valueAt i := by
    intro i hi
    have hterms : (SparseVector.ofTerms f.m columns.flatten).valueAt i =
        coefficient columns.flatten i := by
      have hvalue : (SparseVector.zero (α := Exact 0) f.m
          SparseVector.defaultDensity).valueAt i = 0 := SparseVector.valueAt_zero ..
      have hdim : i < (SparseVector.zero (α := Exact 0) f.m SparseVector.defaultDensity).dim := by
        rw [hzero.dim_eq]
        exact hi
      rw [SparseVector.ofTerms, SparseVector.valueAt_addAll _ _ hdim, hvalue, zero_add]
    rw [hterms, coefficient_flatten, hm]
    refine Finset.sum_congr rfl fun p hp => ?_
    rw [mul_one, hmatrix i p hi (Finset.mem_range.mp hp)]
  have hsize : (f.lu.ftran (SparseVector.ofTerms f.m columns.flatten)).solution.values.size =
      f.m := (hf.sum_solution_mul_upper hlisted).1.dim_eq
  refine value_maxAbs_of_zero fun x hx => ?_
  obtain ⟨y, hy, rfl⟩ := List.mem_map.mp hx
  obtain ⟨p, hp, rfl⟩ := List.mem_iff_getElem.mp hy
  have hlt : p < (f.lu.ftran (SparseVector.ofTerms f.m columns.flatten)).solution.values.size := by
    rwa [Array.length_toList] at hp
  have hone := hf.ftran_unique hlisted (x := fun _ => 1) hsum (hsize ▸ hlt)
  have hget : (f.lu.ftran (SparseVector.ofTerms f.m columns.flatten)).solution.valueAt p =
      ((f.lu.ftran (SparseVector.ofTerms f.m columns.flatten)).solution.values.toList[p]).value :=
    congrArg Exact.value (getD_eq_getElem hlt 0)
  rw [value_sub, ← hget, ← hone]
  exact sub_self _

/-- Whatever matrix is factored, fresh factors that are accepted find no residual. -/
theorem value_residual_factorAnew (hcolumns : SquareColumns columns)
    (htolerance : 0 < f.parameters.pivotTolerance.value) {f' : FactoredBasis (Exact 0)}
    {summary : FactorSummary (Exact 0)} (h : f.factorAnew columns = (f', .ok summary)) :
    (f'.residual columns).value = 0 := by
  obtain ⟨lu, hfactor, -, rfl⟩ := of_factorAnew_ok h
  obtain ⟨steps, hsteps, rfl⟩ := LU.exists_factored hcolumns htolerance hfactor
  have hm : columns.length = (LU.ofSteps steps.steps steps.upperColumns).m := by
    rw [← hsteps.length_steps]
    rfl
  refine value_residual (hsteps.solvable htolerance) hcolumns hm fun i p hi hp => ?_
  exact hsteps.matrixAt htolerance (hm ▸ hi) (hm ▸ hp)

end FactoredBasis

/-! ## The new diagonal value -/

/-- A replacement by a column that was solved for is never unstable. -/
theorem LU.Solvable.update_ne_unstable {lu : LU (Exact 0)} (h : lu.Solvable)
    {a : SparseVector (Exact 0)} (ha : a.Listed lu.m) {position : Nat} (hposition : position < lu.m)
    {spike : SparseVector (Exact 0)} (hspike : spike.valueAt = (lu.ftran a).spike.valueAt)
    {pivot : Exact 0} (hpivot : pivot.value = (lu.ftran a).solution.valueAt position)
    (tolerance diagonal expected : Exact 0) :
    lu.update position spike pivot tolerance ≠ .error (.unstable diagonal expected) := by
  have hdiagonal : ((lu.eta (lu.labels.apply position)).pivotValue spike.values).value =
      (lu.diagonalOf position).value * pivot.value := by
    rw [hpivot]
    refine h.value_pivotValue hposition fun i hi => ?_
    rw [hspike]
    exact (h.sum_solution_mul_upper ha).2 i hi
  rw [LU.update_eq tolerance hdiagonal]
  split
  · exact nofun
  · exact nofun

end DualSimplex
