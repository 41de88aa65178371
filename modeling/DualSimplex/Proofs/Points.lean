import Mathlib.Algebra.Order.Ring.Abs
import DualSimplex.Proofs.Exact
import DualSimplex.Proofs.Program

/-!
# Points of a program

A point gives each column a value and, through the matrix, each row an activity.  It
is feasible if none of them violates its bounds.
-/

namespace DualSimplex

open Scalar Exact

namespace Bound

/-- The bound does not lie above `x`. -/
def AtMost (b : Bound (Exact 0)) (x : ℚ) : Prop :=
  match b with
  | .negInf => True
  | .finite y => y.value ≤ x
  | .posInf => False

/-- The bound does not lie below `x`. -/
def AtLeast (b : Bound (Exact 0)) (x : ℚ) : Prop :=
  match b with
  | .negInf => False
  | .finite y => x ≤ y.value
  | .posInf => True

instance (b : Bound (Exact 0)) (x : ℚ) : Decidable (b.AtMost x) :=
  match b with
  | .negInf => isTrue trivial
  | .finite y => inferInstanceAs (Decidable (y.value ≤ x))
  | .posInf => isFalse id

instance (b : Bound (Exact 0)) (x : ℚ) : Decidable (b.AtLeast x) :=
  match b with
  | .negInf => isFalse id
  | .finite y => inferInstanceAs (Decidable (x ≤ y.value))
  | .posInf => isTrue trivial

theorem atMost_neg (b : Bound (Exact 0)) (x : ℚ) : b.neg.AtMost (-x) ↔ b.AtLeast x := by
  cases b with
  | negInf => exact Iff.rfl
  | posInf => exact Iff.rfl
  | finite y => exact neg_le_neg_iff

theorem atLeast_neg (b : Bound (Exact 0)) (x : ℚ) : b.neg.AtLeast (-x) ↔ b.AtMost x := by
  cases b with
  | negInf => exact Iff.rfl
  | posInf => exact Iff.rfl
  | finite y => exact neg_le_neg_iff

theorem above_neg (b c : Bound (Exact 0)) : c.neg.above b.neg = b.above c := by
  cases b with
  | negInf => cases c <;> rfl
  | posInf => cases c <;> rfl
  | finite x =>
    cases c with
    | negInf => rfl
    | posInf => rfl
    | finite y => exact decide_eq_decide.mpr (neg_lt_neg_iff (a := x.value) (b := y.value))

end Bound

namespace Interval

variable {b : Interval (Exact 0)} {slack : ℚ}

/-- The value violates neither bound by more than the slack. -/
structure Within (b : Interval (Exact 0)) (slack x : ℚ) : Prop where
  lower : b.lower.AtMost (x + slack)
  upper : b.upper.AtLeast (x - slack)

instance (b : Interval (Exact 0)) (slack x : ℚ) : Decidable (b.Within slack x) :=
  decidable_of_iff (b.lower.AtMost (x + slack) ∧ b.upper.AtLeast (x - slack))
    ⟨fun h => ⟨h.1, h.2⟩, fun h => ⟨h.lower, h.upper⟩⟩

theorem Within.mono {slack' x : ℚ} (h : b.Within slack x) (hle : slack ≤ slack') :
    b.Within slack' x := by
  obtain ⟨lower, upper⟩ := b
  obtain ⟨hlower, hupper⟩ := h
  constructor
  · cases lower with
    | negInf => exact trivial
    | finite l => exact hlower.trans (add_le_add_right hle x)
    | posInf => exact hlower
  · cases upper with
    | negInf => exact hupper
    | finite u => exact (sub_le_sub_left hle x).trans hupper
    | posInf => exact trivial

theorem within_neg {x : ℚ} : b.neg.Within slack (-x) ↔ b.Within slack x := by
  have hlower : b.neg.lower.AtMost (-x + slack) ↔ b.upper.AtLeast (x - slack) := by
    rw [show -x + slack = -(x - slack) by ring]
    exact Bound.atMost_neg b.upper _
  have hupper : b.neg.upper.AtLeast (-x - slack) ↔ b.lower.AtMost (x + slack) := by
    rw [← neg_add']
    exact Bound.atLeast_neg b.lower _
  exact ⟨fun h => ⟨hupper.mp h.upper, hlower.mp h.lower⟩,
    fun h => ⟨hlower.mpr h.upper, hupper.mpr h.lower⟩⟩

theorem within_of_canonical (hb : b.Canonical) {x : ℚ}
    (hlower : ∀ l, b.lower = .finite l → l.value ≤ x + slack)
    (hupper : ∀ u, b.upper = .finite u → x - slack ≤ u.value) : b.Within slack x := by
  obtain ⟨lower, upper⟩ := b
  constructor
  · cases lower with
    | negInf => exact trivial
    | finite l => exact hlower l rfl
    | posInf => exact absurd rfl hb.lower_ne
  · cases upper with
    | negInf => exact absurd rfl hb.upper_ne
    | finite u => exact hupper u rfl
    | posInf => exact trivial

/-- A value is no farther from its bounds than the distance says. -/
theorem within_of_distance (hb : b.Canonical) {x : Exact 0}
    (h : (b.distance x).value ≤ slack) : b.Within slack x.value := by
  obtain ⟨lower, upper⟩ := b
  refine within_of_canonical hb (fun l hl => ?_) fun u hu => ?_
  · have hdistance : l.value - x.value ≤ ((Interval.mk lower upper).distance x).value := by
      rw [show lower = .finite l from hl]
      cases upper with
      | finite u =>
        show _ ≤ (larger (larger (l - x) (x - u)) 0).value
        rw [value_larger, value_larger]
        exact (le_max_left ..).trans (le_max_left ..)
      | negInf | posInf =>
        show _ ≤ (larger (l - x) 0).value
        rw [value_larger]
        exact le_max_left ..
    linarith
  · have hdistance : x.value - u.value ≤ ((Interval.mk lower upper).distance x).value := by
      rw [show upper = .finite u from hu]
      cases lower with
      | finite l =>
        show _ ≤ (larger (larger (l - x) (x - u)) 0).value
        rw [value_larger, value_larger]
        exact (le_max_right ..).trans (le_max_left ..)
      | negInf | posInf =>
        show _ ≤ (larger (x - u) 0).value
        rw [value_larger]
        exact le_max_left ..
    linarith

/-- A violation of zero is one within the tolerance. -/
theorem within_of_violation (hb : b.Canonical) {tolerance x : Exact 0}
    (htolerance : 0 < tolerance.value) (h : (b.violation tolerance x == 0) = true) :
    b.Within tolerance.value x.value := by
  have hzero : (b.violation tolerance x).value = 0 := value_eq_zero_of_beq h
  obtain ⟨lower, upper⟩ := b
  have hupper : ∀ u, upper = .finite u → ¬ u + tolerance < x := by
    rintro u rfl hlt
    have habove : (Interval.mk lower (.finite u)).violation tolerance x = x - u := if_pos hlt
    rw [habove, value_sub] at hzero
    rw [lt_iff, value_add] at hlt
    linarith
  refine within_of_canonical hb (fun l hl => ?_) fun u hu => ?_
  · by_contra hgt
    have hlt : x < l - tolerance := by
      rw [lt_iff, value_sub]
      linarith
    have hbelow : (Interval.mk lower upper).violation tolerance x = x - l := by
      rw [show lower = .finite l from hl]
      cases upper with
      | finite u => exact (if_neg (hupper u rfl)).trans (if_pos hlt)
      | negInf | posInf => exact if_pos hlt
    rw [hbelow, value_sub] at hzero
    linarith
  · have hle := hupper u hu
    rw [lt_iff, value_add] at hle
    linarith

/-- Within the tolerance a value counts as no violation. -/
theorem Within.violation_eq_zero {tolerance x : Exact 0} (h : b.Within tolerance.value x.value) :
    b.violation tolerance x = 0 := by
  rcases b.violation_cases tolerance x with ⟨u, hu, hlt, -⟩ | ⟨l, hl, hlt, -⟩ | hzero
  · have hupper := h.upper
    rw [hu] at hupper
    have hupper : x.value - tolerance.value ≤ u.value := hupper
    rw [lt_iff, value_add] at hlt
    linarith
  · have hlower := h.lower
    rw [hl] at hlower
    have hlower : l.value ≤ x.value + tolerance.value := hlower
    rw [lt_iff, value_sub] at hlt
    linarith
  · exact hzero

/-- A variable that rests does so within its bounds, if these do not contradict each
other. -/
theorem within_of_resting (hb : b.Canonical) (hordered : b.lower.above b.upper = false)
    {s : VariableStatus} (hs : s ≠ .basic) (hallows : b.allows s = true) :
    b.Within 0 (b.restingValue s).value := by
  obtain ⟨lower, upper⟩ := b
  have hle : ∀ l u, lower = .finite l → upper = .finite u → l.value ≤ u.value := by
    rintro l u rfl rfl
    exact not_lt.mp (of_decide_eq_false hordered)
  refine within_of_canonical hb (fun l hl => ?_) fun u hu => ?_
  · obtain rfl : lower = .finite l := hl
    rw [add_zero]
    cases s with
    | basic => exact absurd rfl hs
    | atLower | fixed => exact le_rfl
    | atUpper =>
      cases upper with
      | finite u => exact hle l u rfl rfl
      | negInf | posInf => exact absurd hallows Bool.false_ne_true
    | free => exact absurd hallows Bool.false_ne_true
  · obtain rfl : upper = .finite u := hu
    rw [sub_zero]
    cases s with
    | basic => exact absurd rfl hs
    | atUpper => exact le_rfl
    | atLower | fixed =>
      cases lower with
      | finite l => exact hle l u rfl rfl
      | negInf | posInf => exact absurd hallows Bool.false_ne_true
    | free =>
      rw [allows, show (Bound.finite u).isFinite = true from rfl, Bool.not_true, Bool.and_false]
        at hallows
      exact absurd hallows Bool.false_ne_true

theorem Within.le_of_atLower {x : ℚ} (hx : b.Within 0 x) (hallows : b.allows .atLower = true) :
    (b.restingValue .atLower).value ≤ x := by
  obtain ⟨lower, upper⟩ := b
  cases lower with
  | finite l => exact add_zero x ▸ hx.1
  | negInf | posInf => exact absurd hallows Bool.false_ne_true

theorem Within.le_of_atUpper {x : ℚ} (hx : b.Within 0 x) (hallows : b.allows .atUpper = true) :
    x ≤ (b.restingValue .atUpper).value := by
  obtain ⟨lower, upper⟩ := b
  cases upper with
  | finite u => exact sub_zero x ▸ hx.2
  | negInf | posInf => exact absurd hallows Bool.false_ne_true

/-- Within bounds that agree there is one place to be. -/
theorem Within.eq_of_fixed {x : ℚ} (hx : b.Within 0 x) (hb : b.Canonical)
    (hallows : b.allows .fixed = true) : x = (b.restingValue .fixed).value := by
  obtain ⟨lower, upper⟩ := b
  cases lower with
  | negInf =>
    cases upper with
    | negInf => exact absurd rfl hb.upper_ne
    | finite u => exact absurd hallows Bool.false_ne_true
    | posInf => exact absurd hallows Bool.false_ne_true
  | posInf => exact absurd rfl hb.lower_ne
  | finite l =>
    cases upper with
    | finite u =>
      obtain rfl : l = u := beq_iff.mp hallows
      exact le_antisymm (sub_zero x ▸ hx.2) (add_zero x ▸ hx.1)
    | negInf => exact absurd hallows Bool.false_ne_true
    | posInf => exact absurd hallows Bool.false_ne_true

/-- From where a variable rests its reduced cost can gain no more than it is of the
wrong sign by. -/
theorem neg_le_reducedCost_mul (hb : b.Canonical) {s : VariableStatus} (hs : s ≠ .basic)
    (hallows : b.allows s = true) {d : Exact 0} {limit : ℚ}
    (hd : (s.dualInfeasibility d).value ≤ limit) {x : ℚ} (hx : b.Within 0 x) :
    -(limit * |x - (b.restingValue s).value|) ≤ d.value * (x - (b.restingValue s).value) := by
  cases s with
  | basic => exact absurd rfl hs
  | atLower =>
    have hd : max (-d.value) 0 ≤ limit := value_larger (-d) 0 ▸ hd
    have hsign : 0 ≤ d.value + limit := by linarith [le_max_left (-d.value) 0]
    have hup : 0 ≤ x - (b.restingValue .atLower).value :=
      sub_nonneg.mpr (hx.le_of_atLower hallows)
    rw [abs_of_nonneg hup]
    linarith [mul_nonneg hsign hup]
  | atUpper =>
    have hd : max d.value 0 ≤ limit := value_larger d 0 ▸ hd
    have hsign : d.value - limit ≤ 0 := by linarith [le_max_left d.value 0]
    have hdown : x - (b.restingValue .atUpper).value ≤ 0 :=
      sub_nonpos.mpr (hx.le_of_atUpper hallows)
    rw [abs_of_nonpos hdown]
    linarith [mul_nonneg_of_nonpos_of_nonpos hsign hdown]
  | fixed =>
    rw [← hx.eq_of_fixed hb hallows, sub_self, abs_zero, mul_zero, mul_zero, neg_zero]
  | free =>
    have hd : |d.value| ≤ limit := Exact.abs_eq d.value ▸ hd
    calc -(limit * |x - 0|) ≤ -(|d.value| * |x - 0|) :=
          neg_le_neg (mul_le_mul_of_nonneg_right hd (abs_nonneg _))
      _ = -|d.value * (x - 0)| := by rw [abs_mul]
      _ ≤ d.value * (x - 0) := neg_abs_le _

end Interval

/-! ## Programs -/

namespace LinearProgram

variable {lp : LinearProgram (Exact 0)} {x : Nat → ℚ}

/-- The activity of a row at a point. -/
def activityAt (lp : LinearProgram (Exact 0)) (x : Nat → ℚ) (i : Nat) : ℚ :=
  ∑ j ∈ Finset.range lp.columnCount, coefficient (lp.columns.line j) i * x j

/-- The objective value of a point, in the sense of the program. -/
def objectiveAt (lp : LinearProgram (Exact 0)) (x : Nat → ℚ) : ℚ :=
  lp.offset.value + ∑ j ∈ Finset.range lp.columnCount, arrayAt lp.costs j * x j

/-- No column and no row violates its bounds by more than the slack. -/
structure Admits (lp : LinearProgram (Exact 0)) (slack : ℚ) (x : Nat → ℚ) : Prop where
  columns : ∀ j (b : Interval (Exact 0)), lp.columnBounds[j]? = some b → b.Within slack (x j)
  rows : ∀ i (b : Interval (Exact 0)), lp.rowBounds[i]? = some b →
    b.Within slack (lp.activityAt x i)

theorem admits_iff {slack : ℚ} : lp.Admits slack x ↔
    (∀ j (hj : j < lp.columnBounds.size), lp.columnBounds[j].Within slack (x j)) ∧
      ∀ i (hi : i < lp.rowBounds.size), lp.rowBounds[i].Within slack (lp.activityAt x i) := by
  constructor
  · intro h
    exact ⟨fun j hj => h.columns j _ (Array.getElem?_eq_getElem hj),
      fun i hi => h.rows i _ (Array.getElem?_eq_getElem hi)⟩
  · intro h
    constructor
    · intro j b hb
      obtain ⟨hj, rfl⟩ := Array.getElem?_eq_some_iff.mp hb
      exact h.1 j hj
    · intro i b hb
      obtain ⟨hi, rfl⟩ := Array.getElem?_eq_some_iff.mp hb
      exact h.2 i hi

instance (lp : LinearProgram (Exact 0)) (slack : ℚ) (x : Nat → ℚ) :
    Decidable (lp.Admits slack x) :=
  decidable_of_iff' _ admits_iff

theorem objectiveAt_congr {x' : Nat → ℚ} (h : ∀ j, j < lp.columnCount → x' j = x j) :
    lp.objectiveAt x' = lp.objectiveAt x :=
  congrArg (lp.offset.value + ·) (Finset.sum_congr rfl fun j hj => by
    rw [h j (Finset.mem_range.mp hj)])

theorem value_objective {xs : Array (Exact 0)} (hsize : xs.size = lp.columnCount) :
    (lp.objective xs).value = lp.objectiveAt (arrayAt xs) := by
  unfold objective
  rw [value_add, value_sum_zipWith rfl hsize]
  rfl

end LinearProgram
end DualSimplex
