import Mathlib.Algebra.BigOperators.Field
import Mathlib.LinearAlgebra.Matrix.NonsingularInverse

/-!
# The inverse of a matrix with one column replaced

A basis change replaces a column of the basis matrix.  It divides the row of the inverse that
belongs to the column by the pivot element and subtracts multiples of it from the other rows,
from which their norms follow.
-/

namespace BasisInverse

open Matrix

/-- Square matrices with rational entries. -/
abbrev Square (m : Nat) : Type :=
  Matrix (Fin m) (Fin m) ℚ

variable {m : Nat} {B : Square m} {a : Fin m → ℚ} {p : Fin m}

/-- The squared norm of a row. -/
def rowNorm (C : Square m) (i : Fin m) : ℚ :=
  ∑ j, C i j ^ 2

/-- The inner products of the pivot row with the rows of the inverse. -/
theorem inv_mulVec_inv_row (B : Square m) (p i : Fin m) :
    (B⁻¹ *ᵥ (B⁻¹ᵀ *ᵥ Pi.single p 1)) i = ∑ j, B⁻¹ i j * B⁻¹ p j := by
  rw [Matrix.mulVec_single_one]
  rfl

/-- A basis change to a regular matrix has a pivot element other than zero. -/
theorem pivot_ne_zero (hB : IsUnit B.det) (hnew : IsUnit (B.updateCol p a).det) :
    (B⁻¹ *ᵥ a) p ≠ 0 := by
  intro hzero
  have hcramer := congrFun (Matrix.det_smul_inv_mulVec_eq_cramer B a hB) p
  rw [Matrix.cramer_apply, Pi.smul_apply, hzero, smul_zero] at hcramer
  exact hnew.ne_zero hcramer.symm

/-- The rows of the inverse after a basis change. -/
theorem inv_updateCol (hB : IsUnit B.det) (hpivot : (B⁻¹ *ᵥ a) p ≠ 0) :
    (B.updateCol p a)⁻¹ = Matrix.of fun i j =>
      if i = p then B⁻¹ p j / (B⁻¹ *ᵥ a) p
      else B⁻¹ i j - (B⁻¹ *ᵥ a) i / (B⁻¹ *ᵥ a) p * B⁻¹ p j := by
  have hleft : B⁻¹ * B = 1 := Matrix.nonsing_inv_mul B hB
  refine Matrix.inv_eq_left_inv ?_
  ext i k
  have hentry : ∀ i, ∑ j, B⁻¹ i j * B.updateCol p a j k =
      if k = p then (B⁻¹ *ᵥ a) i else (1 : Square m) i k := by
    intro i
    by_cases hk : k = p
    · subst hk
      rw [if_pos rfl]
      exact Finset.sum_congr rfl fun j _ => by rw [Matrix.updateCol_self]
    · rw [if_neg hk, ← hleft]
      exact Finset.sum_congr rfl fun j _ => by rw [Matrix.updateCol_ne hk]
  rw [Matrix.mul_apply]
  simp only [Matrix.of_apply]
  by_cases hi : i = p
  · subst hi
    simp only [if_true, div_mul_eq_mul_div]
    rw [← Finset.sum_div, hentry]
    by_cases hk : k = i
    · rw [if_pos hk, hk, Matrix.one_apply_eq, div_self hpivot]
    · rw [if_neg hk, Matrix.one_apply_ne (Ne.symm hk), zero_div]
  · simp only [if_neg hi, sub_mul, mul_assoc]
    rw [Finset.sum_sub_distrib, ← Finset.mul_sum, hentry, hentry]
    by_cases hk : k = p
    · rw [if_pos hk, if_pos hk, hk, Matrix.one_apply_ne hi, div_mul_cancel₀ _ hpivot, sub_self]
    · rw [if_neg hk, if_neg hk, Matrix.one_apply_ne (Ne.symm hk), mul_zero, sub_zero]

/-- The norms of the rows after a basis change. -/
theorem rowNorm_updateCol (hB : IsUnit B.det) (hpivot : (B⁻¹ *ᵥ a) p ≠ 0) (i : Fin m) :
    rowNorm (B.updateCol p a)⁻¹ i =
      if i = p then rowNorm B⁻¹ p / ((B⁻¹ *ᵥ a) p * (B⁻¹ *ᵥ a) p)
      else rowNorm B⁻¹ i + (B⁻¹ *ᵥ a) i / (B⁻¹ *ᵥ a) p *
        ((B⁻¹ *ᵥ a) i / (B⁻¹ *ᵥ a) p * rowNorm B⁻¹ p -
          2 * (B⁻¹ *ᵥ (B⁻¹ᵀ *ᵥ Pi.single p 1)) i) := by
  rw [inv_mulVec_inv_row]
  unfold rowNorm
  rw [inv_updateCol hB hpivot]
  simp only [Matrix.of_apply]
  generalize (B⁻¹ *ᵥ a) p = w at hpivot
  by_cases hi : i = p
  · simp only [if_pos hi]
    rw [Finset.sum_div]
    exact Finset.sum_congr rfl fun j _ => by rw [div_pow, sq w]
  · simp only [if_neg hi]
    generalize (B⁻¹ *ᵥ a) i / w = r
    have hterm : ∀ j, (B⁻¹ i j - r * B⁻¹ p j) ^ 2 =
        B⁻¹ i j ^ 2 + r * (r * B⁻¹ p j ^ 2 - 2 * (B⁻¹ i j * B⁻¹ p j)) := fun j => by ring
    simp only [hterm, Finset.sum_add_distrib, ← Finset.mul_sum, Finset.sum_sub_distrib]

theorem rowNorm_updateCol_of_eq_zero (hB : IsUnit B.det) (hpivot : (B⁻¹ *ᵥ a) p ≠ 0) {i : Fin m}
    (hi : i ≠ p) (hzero : (B⁻¹ *ᵥ a) i = 0) :
    rowNorm (B.updateCol p a)⁻¹ i = rowNorm B⁻¹ i := by
  rw [rowNorm_updateCol hB hpivot, if_neg hi, hzero, zero_div, zero_mul, add_zero]

end BasisInverse
