import Mathlib.Algebra.Order.BigOperators.Group.Finset
import DualSimplex.Proofs.Engine.Duals
import DualSimplex.Proofs.Points

/-!
# Weak duality

A point of the program is a solution of the equations of an engine, with the logical
variables at minus the activities.  Going from the values of an engine to another
solution changes the cost by what the reduced costs of the resting variables make of
the way, and they rest where that gains little.
-/

namespace DualSimplex

open Scalar Exact

namespace Job

variable {t : Job (Exact 0)}

/-- The values of all variables at a point of the program. -/
def extend (t : Job (Exact 0)) (x : Nat → ℚ) (j : Nat) : ℚ :=
  if j < t.columnCount then x j else -t.program.activityAt x (j - t.columnCount)

theorem extend_column (x : Nat → ℚ) {j : Nat} (hj : j < t.columnCount) : t.extend x j = x j :=
  if_pos hj

theorem extend_row (x : Nat → ℚ) (i : Nat) :
    t.extend x (t.columnCount + i) = -t.program.activityAt x i := by
  unfold extend
  rw [if_neg (by omega), Nat.add_sub_cancel_left]

theorem sum_size (t : Job (Exact 0)) (f : Nat → ℚ) : ∑ j ∈ Finset.range t.size, f j =
    ∑ j ∈ Finset.range t.columnCount, f j +
      ∑ i ∈ Finset.range t.rowCount, f (t.columnCount + i) :=
  Finset.sum_range_add f t.columnCount t.rowCount

/-- A row of `[A I]` is a row of the matrix and a logical variable. -/
theorem sum_column_mul (z : Nat → ℚ) {i : Nat} (hi : i < t.rowCount) :
    ∑ j ∈ Finset.range t.size, coefficient (t.column j) i * z j =
      t.program.activityAt z i + z (t.columnCount + i) := by
  have hcolumns : ∑ j ∈ Finset.range t.columnCount, coefficient (t.column j) i * z j =
      t.program.activityAt z i := by
    refine Finset.sum_congr rfl fun j hj => ?_
    have hcolumn : t.column j = t.program.columns.line j := if_pos (Finset.mem_range.mp hj)
    rw [hcolumn]
  have hlogicals : ∀ k ∈ Finset.range t.rowCount,
      coefficient (t.column (t.columnCount + k)) i * z (t.columnCount + k) =
        if k = i then z (t.columnCount + k) else 0 := by
    intro k _
    rw [coefficient_logical, ite_mul, one_mul, zero_mul]
  rw [sum_size, hcolumns, Finset.sum_congr rfl hlogicals, Finset.sum_ite_eq',
    if_pos (Finset.mem_range.mpr hi)]

/-- The equations hold at every point. -/
theorem sum_column_extend (x : Nat → ℚ) {i : Nat} (hi : i < t.rowCount) :
    ∑ j ∈ Finset.range t.size, coefficient (t.column j) i * t.extend x j = 0 := by
  have hactivity : t.program.activityAt (t.extend x) i = t.program.activityAt x i :=
    Finset.sum_congr rfl fun j hj => by rw [extend_column x (Finset.mem_range.mp hj)]
  rw [sum_column_mul _ hi, hactivity, extend_row, add_neg_cancel]

/-- What the rows are worth does not change along the solutions of the equations. -/
theorem sum_worth_mul (y : Nat → ℚ) {z : Nat → ℚ} (hz : ∀ i, i < t.rowCount →
    ∑ j ∈ Finset.range t.size, coefficient (t.column j) i * z j = 0) :
    ∑ j ∈ Finset.range t.size, t.worth y j * z j = 0 := by
  have hswap : ∑ j ∈ Finset.range t.size, t.worth y j * z j = ∑ i ∈ Finset.range t.rowCount,
      y i * ∑ j ∈ Finset.range t.size, coefficient (t.column j) i * z j := by
    simp only [worth, Finset.sum_mul, Finset.mul_sum]
    rw [Finset.sum_comm]
    refine Finset.sum_congr rfl fun i _ => Finset.sum_congr rfl fun j _ => ?_
    ring
  rw [hswap]
  refine Finset.sum_eq_zero fun i hi => ?_
  rw [hz i (Finset.mem_range.mp hi), mul_zero]

end Job

namespace Engine

variable {t : Job (Exact 0)} {e : Engine (Exact 0)}

/-- The logical variable of a row is minus its activity. -/
theorem Balanced.value_logical (hbalanced : e.Balanced t) {i : Nat} (hi : i < t.rowCount) :
    (e.valueOf (t.columnCount + i)).value =
      -t.program.activityAt (fun j => (e.valueOf j).value) i := by
  have hrow := hbalanced i hi
  unfold Engine.balance at hrow
  rw [Job.sum_column_mul (fun j => (e.valueOf j).value) hi] at hrow
  exact eq_neg_of_add_eq_zero_right hrow

/-- The way from the values of an engine to another solution. -/
theorem Balanced.sum_column_sub (hbalanced : e.Balanced t) {z : Nat → ℚ} {i : Nat}
    (hi : i < t.rowCount)
    (hz : ∑ j ∈ Finset.range t.size, coefficient (t.column j) i * z j = 0) :
    ∑ j ∈ Finset.range t.size, coefficient (t.column j) i * (z j - (e.valueOf j).value) = 0 := by
  have hvalues : e.balance t i = 0 := hbalanced i hi
  unfold Engine.balance at hvalues
  simp only [mul_sub, Finset.sum_sub_distrib]
  rw [hz, hvalues, sub_zero]

/-- What the way to another solution costs, by reduced costs. -/
theorem Priced.sum_cost_mul_sub (hpriced : e.Priced t) (hbalanced : e.Balanced t) {z : Nat → ℚ}
    (hz : ∀ i, i < t.rowCount →
      ∑ j ∈ Finset.range t.size, coefficient (t.column j) i * z j = 0) :
    ∑ j ∈ Finset.range t.size, (e.costOf j).value * (z j - (e.valueOf j).value) =
      ∑ j ∈ Finset.range t.size, (e.reducedCostOf j).value * (z j - (e.valueOf j).value) := by
  have hterm : ∀ j ∈ Finset.range t.size,
      (e.costOf j).value * (z j - (e.valueOf j).value) =
        (e.reducedCostOf j).value * (z j - (e.valueOf j).value) +
          t.worth (arrayAt e.multipliers) j * (z j - (e.valueOf j).value) := by
    intro j hj
    rw [hpriced.reducedCost j (Finset.mem_range.mp hj)]
    ring
  rw [Finset.sum_congr rfl hterm, Finset.sum_add_distrib,
    Job.sum_worth_mul (arrayAt e.multipliers) fun i hi => hbalanced.sum_column_sub hi (hz i hi),
    add_zero]

/-- No solution within the bounds costs less than the values of an engine, but for the
way that the resting variables would have to go, times the largest reduced cost of the
wrong sign. -/
theorem Priced.sum_cost_le (hpriced : e.Priced t) (hbalanced : e.Balanced t) (h : e.Rests t)
    (hcanonical : ∀ j, j < t.size → (e.boundsOf j).Canonical) {limit : ℚ}
    (hlimit : ∀ j, j < t.size → (e.dualInfeasibility j).value ≤ limit) {z : Nat → ℚ}
    (hz : ∀ i, i < t.rowCount →
      ∑ j ∈ Finset.range t.size, coefficient (t.column j) i * z j = 0)
    (hwithin : ∀ j, j < t.size → (e.boundsOf j).Within 0 (z j)) :
    ∑ j ∈ Finset.range t.size, (e.costOf j).value * (e.valueOf j).value ≤
      ∑ j ∈ Finset.range t.size, (e.costOf j).value * z j + limit *
        ∑ j ∈ Finset.range t.size,
          if e.statusOf j = .basic then 0 else |z j - (e.valueOf j).value| := by
  have hterm : ∀ j ∈ Finset.range t.size,
      -(limit * if e.statusOf j = .basic then 0 else |z j - (e.valueOf j).value|) ≤
        (e.reducedCostOf j).value * (z j - (e.valueOf j).value) := by
    intro j hj
    have hj := Finset.mem_range.mp hj
    -- basic variables have no reduced cost, and the others rest where their own is of the
    -- right sign up to the limit
    split
    · rename_i hbasic
      rw [hpriced.basic j hj hbasic, mul_zero, neg_zero, zero_mul]
    · rename_i hrests
      have hvalue : e.valueOf j = (e.boundsOf j).restingValue (e.statusOf j) :=
        beq_iff.mp ((h.rests j).value hrests)
      rw [hvalue]
      exact Interval.neg_le_reducedCost_mul (hcanonical j hj) hrests (h.rests j).allows
        (hlimit j hj) (hwithin j hj)
  have hway := Finset.sum_le_sum hterm
  rw [Finset.sum_neg_distrib, ← Finset.mul_sum, ← hpriced.sum_cost_mul_sub hbalanced hz] at hway
  simp only [mul_sub, Finset.sum_sub_distrib] at hway
  linarith

end Engine
end DualSimplex
