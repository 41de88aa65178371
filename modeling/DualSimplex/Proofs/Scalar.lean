import Mathlib.Algebra.Order.Field.Rat
import Mathlib.Tactic.Linarith
import Mathlib.Tactic.NormNum
import DualSimplex.Scalar.Exact

/-!
# Lawful scalars

What the solver relies on of its numbers, whether they are rounded or not.  Zeros
are told apart from marks and recognized as tiny.  Comparisons order whatever is
a number, and rounding does not turn them around.  All of this is true of binary
floating point with its infinities, signed zeros and subnormal numbers, and of
exact numbers with any cutoff.
-/

namespace DualSimplex

open Scalar

class LawfulScalar (α : Type) [Scalar α] : Prop where
  zero_beq_zero : ((0 : α) == 0) = true
  cancelled_beq_zero : ((cancelled : α) == 0) = false
  vanished_beq_zero : ((vanished : α) == 0) = false
  isTiny_of_beq_zero {x : α} : (x == 0) = true → isTiny x = true
  div_one_beq_zero {x : α} : isTiny x = false → (x / 1 == 0) = false

/-- Scalars whose comparisons can be relied on. -/
class OrderedScalar (α : Type) [Scalar α] : Prop extends LawfulScalar α where
  beq_symm {x y : α} : (x == y) = true → (y == x) = true
  beq_trans {x y z : α} : (x == y) = true → (y == z) = true → (x == z) = true
  beq_neg {x y : α} : (x == y) = true → (-x == -y) = true
  beq_self {x : α} : isFinite x = true → (x == x) = true
  isFinite_zero : isFinite (0 : α) = true
  isFinite_one : isFinite (1 : α) = true
  isFinite_thousand : isFinite (1000.0 : α) = true
  isFinite_neg (x : α) : isFinite (-x) = isFinite x
  isNaN_of_isFinite {x : α} : isFinite x = true → isNaN x = false
  /-- A number below another that is not finite is below all numbers. -/
  least {x y : α} : x < y → isFinite x = false → ∀ z, ¬ z < x
  greatest {x y : α} : y < x → isFinite x = false → ∀ z, ¬ x < z
  isNaN_of_le {x y : α} : x ≤ y → isNaN x = false ∧ isNaN y = false
  le_total {x y : α} : isNaN x = false → isNaN y = false → x ≤ y ∨ y ≤ x
  le_trans {x y z : α} : x ≤ y → y ≤ z → x ≤ z
  le_of_lt {x y : α} : x < y → x ≤ y
  le_of_not_lt {x y : α} : isNaN x = false → isNaN y = false → ¬ x < y → y ≤ x
  zero_lt_one : (0 : α) < 1
  not_zero_lt_neg_one : ¬ (0 : α) < -1
  one_le_ten_million : (1 : α) ≤ 1e7
  lt_of_add_lt {x y z : α} : 0 < y → x + y < z → x < z
  lt_of_lt_sub {x y z : α} : 0 < y → x < z - y → x < z
  sub_lt_zero {x y : α} : x < y → x - y < 0
  not_sub_lt_zero {x y : α} : y < x → ¬ x - y < 0
  isNaN_sub {x : α} (y : α) : isNaN x = true → isNaN (x - y) = true
  /-- What a tolerance leaves of a slope is a number unless the slope is infinite or
  not a number. -/
  isNaN_sub_self {x y : α} : isFinite y = true → isNaN (x - y * (1 + x)) = true →
    isNaN (x - x) = true

/-- Scalars whose zero is its own mirror image. -/
class MirroredScalar (α : Type) [Scalar α] : Prop extends OrderedScalar α where
  neg_zero_beq_zero : (-(0 : α) == 0) = true

namespace Scalar

export LawfulScalar (zero_beq_zero cancelled_beq_zero vanished_beq_zero isTiny_of_beq_zero
  div_one_beq_zero)

variable {α : Type} [Scalar α] [LawfulScalar α]

theorem isTiny_zero : isTiny (0 : α) = true :=
  isTiny_of_beq_zero zero_beq_zero

theorem beq_zero_of_isTiny {x : α} (h : isTiny x = false) : (x == 0) = false :=
  Bool.eq_false_iff.mpr fun hx => Bool.noConfusion (h.symm.trans (isTiny_of_beq_zero hx))

theorem beq_zero_of_isSignificant {x : α} (h : isSignificant x = true) : (x == 0) = false := by
  rw [isSignificant, Bool.not_eq_true', Bool.or_eq_false_iff] at h
  exact beq_zero_of_isTiny h.1

end Scalar

namespace OrderedScalar

variable {α : Type} [Scalar α] [OrderedScalar α]

theorem le_self {x : α} (hx : isNaN x = false) : x ≤ x := by
  rcases le_total hx hx with h | h
  · exact h
  · exact h

theorem one_le_one : (1 : α) ≤ 1 :=
  le_self (isNaN_of_isFinite isFinite_one)

omit [OrderedScalar α] in
theorem isNaN_larger {x : α} (hx : isNaN x = false) (y : α) : isNaN (larger x y) = false := by
  rw [larger]
  by_cases hle : y ≤ x
  · rw [if_pos hle]
    exact hx
  · rw [if_neg hle]
    cases hy : isNaN y
    · exact hy
    · exact hx

theorem le_larger_left {x : α} (hx : isNaN x = false) (y : α) : x ≤ larger x y := by
  rw [larger]
  by_cases hle : y ≤ x
  · rw [if_pos hle]
    exact le_self hx
  · rw [if_neg hle]
    cases hy : isNaN y
    · exact (le_total hx hy).resolve_right hle
    · exact le_self hx

theorem le_larger_right {x y : α} (hy : isNaN y = false) : y ≤ larger x y := by
  rw [larger]
  by_cases hle : y ≤ x
  · rw [if_pos hle]
    exact hle
  · rw [if_neg hle, hy]
    exact le_self hy

end OrderedScalar

namespace Exact

variable {cutoff : Rat}

theorem beq_iff {x y : Exact cutoff} : (x == y) = true ↔ x = y :=
  decide_eq_true_iff

theorem beq_eq_false {x y : Exact cutoff} : (x == y) = false ↔ x ≠ y :=
  decide_eq_false_iff_not

theorem eq_iff {x y : Exact cutoff} : x = y ↔ x.value = y.value ∧ x.marked = y.marked := by
  cases x
  cases y
  simp

theorem isTiny_eq_false_iff {x : Exact cutoff} :
    isTiny x = false ↔ x.value ≠ 0 ∧ ¬ x.value.abs < cutoff := by
  rw [← Bool.not_eq_true, isTiny_eq_true_iff, not_or]

instance : LawfulScalar (Exact cutoff) where
  zero_beq_zero := beq_iff.mpr rfl
  cancelled_beq_zero := beq_eq_false.mpr mark_ne_zero
  vanished_beq_zero := beq_eq_false.mpr mark_ne_zero
  isTiny_of_beq_zero h := isTiny_eq_true_iff.mpr (Or.inl (congrArg value (beq_iff.mp h)))
  div_one_beq_zero {x} h := by
    have hx := (isTiny_eq_false_iff.mp h).1
    rw [beq_eq_false, ne_eq, eq_iff, value_div, value_one, div_one]
    exact fun h => hx h.1

instance : OrderedScalar (Exact cutoff) where
  beq_symm h := beq_iff.mpr (beq_iff.mp h).symm
  beq_trans h h' := beq_iff.mpr ((beq_iff.mp h).trans (beq_iff.mp h'))
  beq_neg h := beq_iff.mpr (congrArg Neg.neg (beq_iff.mp h))
  beq_self _ := beq_iff.mpr rfl
  isFinite_zero := rfl
  isFinite_one := rfl
  isFinite_thousand := rfl
  isFinite_neg _ := rfl
  isNaN_of_isFinite _ := rfl
  least _ h := absurd h Bool.noConfusion
  greatest _ h := absurd h Bool.noConfusion
  isNaN_of_le _ := ⟨rfl, rfl⟩
  le_total {x y} _ _ := le_total x.value y.value
  le_trans {x y z} (h : x.value ≤ y.value) (h' : y.value ≤ z.value) := h.trans h'
  le_of_lt {x y} (h : x.value < y.value) := h.le
  le_of_not_lt {x y} _ _ (h : ¬ x.value < y.value) := not_lt.mp h
  zero_lt_one := (by norm_num : (0 : ℚ) < 1)
  not_zero_lt_neg_one := (by norm_num : ¬ (0 : ℚ) < -1)
  one_le_ten_million := (by norm_num : (1 : ℚ) ≤ 1e7)
  lt_of_add_lt {x y z} (h : 0 < y.value) (h' : x.value + y.value < z.value) :=
    (by linarith : x.value < z.value)
  lt_of_lt_sub {x y z} (h : 0 < y.value) (h' : x.value < z.value - y.value) :=
    (by linarith : x.value < z.value)
  sub_lt_zero {x y} (h : x.value < y.value) := sub_neg.mpr h
  not_sub_lt_zero {x y} (h : y.value < x.value) := (by linarith : ¬ x.value - y.value < 0)
  isNaN_sub _ h := absurd h Bool.noConfusion
  isNaN_sub_self _ h := absurd h Bool.noConfusion

instance : MirroredScalar (Exact cutoff) where
  neg_zero_beq_zero := beq_iff.mpr (eq_iff.mpr ⟨neg_zero, rfl⟩)

end Exact
end DualSimplex
