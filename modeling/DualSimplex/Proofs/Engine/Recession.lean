import Mathlib.Algebra.Order.Group.MinMax
import DualSimplex.Proofs.Engine.Optimality
import DualSimplex.Proofs.Engine.Widened

/-!
# The direction that phase one finds

At an optimum of the auxiliary problem the values of the columns are a direction in
which no bound of the program is ever left.  Each resting variable stands where its
reduced cost makes it cheapest, so the direction gains as much as the reduced costs are
wrong by under the statuses that the program gives the variables afterwards.
-/

namespace DualSimplex

open Scalar Exact

/-! ## One variable -/

namespace Interval

variable {b : Interval (Exact 0)} {s : VariableStatus} {d : Exact 0}

/-- A value may change by `x` without end. -/
structure Recedes (b : Interval (Exact 0)) (x : ℚ) : Prop where
  lower : b.lower.isFinite = true → 0 ≤ x
  upper : b.upper.isFinite = true → x ≤ 0

instance (b : Interval (Exact 0)) (x : ℚ) : Decidable (b.Recedes x) :=
  decidable_of_iff ((b.lower.isFinite = true → 0 ≤ x) ∧ (b.upper.isFinite = true → x ≤ 0))
    ⟨fun h => ⟨h.1, h.2⟩, fun h => ⟨h.lower, h.upper⟩⟩

theorem recedes_neg {x : ℚ} : b.neg.Recedes (-x) ↔ b.Recedes x := by
  have hlower : b.neg.lower.isFinite = b.upper.isFinite := Bound.isFinite_neg b.upper
  have hupper : b.neg.upper.isFinite = b.lower.isFinite := Bound.isFinite_neg b.lower
  constructor
  · rintro ⟨h, h'⟩
    exact ⟨fun hb => neg_nonpos.mp (h' (hupper.trans hb)),
      fun hb => neg_nonneg.mp (h (hlower.trans hb))⟩
  · rintro ⟨h, h'⟩
    exact ⟨fun hb => neg_nonneg.mpr (h' (hlower.symm.trans hb)),
      fun hb => neg_nonpos.mpr (h (hupper.symm.trans hb))⟩

/-- However far a value goes, it stays within the bounds. -/
theorem Recedes.within_add {x step : ℚ} (h : b.Recedes x) (hstep : 0 ≤ step) {z : ℚ}
    (hz : b.Within 0 z) : b.Within 0 (z + step * x) := by
  obtain ⟨lower, upper⟩ := b
  obtain ⟨hlower, hupper⟩ := hz
  constructor
  · cases lower with
    | negInf => exact trivial
    | posInf => exact hlower
    | finite l =>
      have hx : 0 ≤ step * x := mul_nonneg hstep (h.lower rfl)
      have hlower : l.value ≤ z + 0 := hlower
      show l.value ≤ z + step * x + 0
      linarith
  · cases upper with
    | posInf => exact trivial
    | negInf => exact hupper
    | finite u =>
      have hx : step * x ≤ 0 := mul_nonpos_of_nonneg_of_nonpos hstep (h.upper rfl)
      have hupper : z - 0 ≤ u.value := hupper
      show z + step * x - 0 ≤ u.value
      linarith

theorem kind_cases (b : Interval (Exact 0)) :
    (b.kind = .free ∧ b.lower.isFinite = false ∧ b.upper.isFinite = false) ∨
    (b.kind = .lower ∧ b.lower.isFinite = true ∧ b.upper.isFinite = false) ∨
    (b.kind = .upper ∧ b.lower.isFinite = false ∧ b.upper.isFinite = true) ∨
    ((b.kind = .boxed ∨ b.kind = .fixed) ∧ b.lower.isFinite = true ∧ b.upper.isFinite = true) := by
  unfold kind
  cases b.lower.isFinite with
  | false =>
    cases b.upper.isFinite with
    | false => exact Or.inl ⟨rfl, rfl, rfl⟩
    | true => exact Or.inr (Or.inr (Or.inl ⟨rfl, rfl, rfl⟩))
  | true =>
    cases b.upper.isFinite with
    | false => exact Or.inr (Or.inl ⟨rfl, rfl, rfl⟩)
    | true =>
      refine Or.inr (Or.inr (Or.inr ⟨?_, rfl, rfl⟩))
      cases b.isPoint with
      | false => exact Or.inl rfl
      | true => exact Or.inr rfl

theorem auxiliary_of_boxed (h : b.kind = .boxed ∨ b.kind = .fixed) :
    b.auxiliary = between 0 0 := by
  unfold auxiliary
  rcases h with h | h
  · rw [h]
  · rw [h]

/-- A step that the auxiliary problem allows can be taken without end. -/
theorem recedes_of_auxiliary {x : ℚ} (hx : b.auxiliary.Within 0 x) : b.Recedes x := by
  have hnone : ∀ {c : Bool} {p : Prop}, c = false → c = true → p :=
    fun h h' => absurd (h.symm.trans h') Bool.false_ne_true
  rcases b.kind_cases with ⟨-, hlower, hupper⟩ | ⟨hkind, -, hupper⟩ | ⟨hkind, hlower, -⟩ |
    ⟨hkind, -, -⟩
  · exact ⟨hnone hlower, hnone hupper⟩
  · rw [auxiliary, hkind] at hx
    exact ⟨fun _ => add_zero x ▸ hx.lower, hnone hupper⟩
  · rw [auxiliary, hkind] at hx
    exact ⟨hnone hlower, fun _ => sub_zero x ▸ hx.upper⟩
  · rw [auxiliary_of_boxed hkind] at hx
    exact ⟨fun _ => add_zero x ▸ hx.lower, fun _ => sub_zero x ▸ hx.upper⟩

/-- Between two numbers a variable with a reduced cost of the right sign rests where it
costs least. -/
theorem mul_restingValue_between {x y : Exact 0} (hle : x.value ≤ y.value) (hs : s ≠ .basic)
    (hallows : (between x y).allows s = true) (hsign : (s.dualInfeasibility d).value = 0) :
    d.value * ((between x y).restingValue s).value =
      min (d.value * x.value) (d.value * y.value) := by
  cases s with
  | basic => exact absurd rfl hs
  | free => exact absurd hallows Bool.false_ne_true
  | fixed =>
    obtain rfl : x = y := beq_iff.mp hallows
    exact (min_self _).symm
  | atLower =>
    have hd : max (-d.value) 0 = 0 := (value_larger (-d) 0).symm.trans hsign
    have hd : 0 ≤ d.value := neg_nonpos.mp (max_eq_right_iff.mp hd)
    exact (min_eq_left (mul_le_mul_of_nonneg_left hle hd)).symm
  | atUpper =>
    have hd : max d.value 0 = 0 := (value_larger d 0).symm.trans hsign
    have hd : d.value ≤ 0 := max_eq_right_iff.mp hd
    exact (min_eq_right (mul_le_mul_of_nonpos_left hle hd)).symm

/-- How far the auxiliary problem lets a variable go at most. -/
def stride (b : Interval (Exact 0)) : ℚ :=
  if b.kind = .free then 1000 else 1

theorem stride_pos (b : Interval (Exact 0)) : 0 < b.stride := by
  unfold stride
  split
  · norm_num
  · exact one_pos

/-! ## What a reduced cost is wrong by after phase one -/

theorem finalInfeasibility_of_free (hkind : b.kind = .free) :
    ((Engine.finalStatus b d).dualInfeasibility d).value = |d.value| := by
  rw [Engine.finalStatus, hkind]
  exact Exact.abs_eq _

theorem finalInfeasibility_of_lower (hkind : b.kind = .lower) :
    ((Engine.finalStatus b d).dualInfeasibility d).value = max (-d.value) 0 := by
  rw [Engine.finalStatus, hkind]
  exact value_larger (-d) 0

theorem finalInfeasibility_of_upper (hkind : b.kind = .upper) :
    ((Engine.finalStatus b d).dualInfeasibility d).value = max d.value 0 := by
  rw [Engine.finalStatus, hkind]
  exact value_larger d 0

theorem finalInfeasibility_of_boxed (hkind : b.kind = .boxed ∨ b.kind = .fixed) :
    ((Engine.finalStatus b d).dualInfeasibility d).value = 0 := by
  rcases hkind with hkind | hkind
  · rw [Engine.finalStatus, hkind]
    dsimp only
    split
    · rename_i hneg
      exact (value_larger d 0).trans (max_eq_right (lt_iff.mp hneg).le)
    · rename_i hneg
      have hd : 0 ≤ d.value := not_lt.mp fun h => hneg (lt_iff.mpr h)
      exact (value_larger (-d) 0).trans (max_eq_right (neg_nonpos.mpr hd))
  · rw [Engine.finalStatus, hkind]
    rfl

/-- At rest in the auxiliary problem a variable gains what its reduced cost will be wrong
by, for each unit that it may go. -/
theorem mul_restingValue_auxiliary (hs : s ≠ .basic) (hallows : b.auxiliary.allows s = true)
    (hsign : (s.dualInfeasibility d).value = 0) :
    d.value * (b.auxiliary.restingValue s).value =
      -(b.stride * ((Engine.finalStatus b d).dualInfeasibility d).value) := by
  rcases b.kind_cases with ⟨hkind, -⟩ | ⟨hkind, -⟩ | ⟨hkind, -⟩ | ⟨hkind, -⟩
  · have haux : b.auxiliary = between (-1000.0) 1000.0 := by rw [auxiliary, hkind]
    have hthousand : (1000.0 : Exact 0).value = 1000 := by
      show (1000.0 : ℚ) = 1000
      norm_num
    rw [haux] at hallows ⊢
    rw [mul_restingValue_between (by rw [value_neg, hthousand]; norm_num) hs hallows hsign,
      value_neg, hthousand, finalInfeasibility_of_free hkind, stride, if_pos hkind]
    rcases le_total 0 d.value with hd | hd
    · rw [abs_of_nonneg hd, min_eq_left (by linarith)]
      ring
    · rw [abs_of_nonpos hd, min_eq_right (by linarith)]
      ring
  · have haux : b.auxiliary = between 0 1 := by rw [auxiliary, hkind]
    rw [haux] at hallows ⊢
    rw [mul_restingValue_between (by decide) hs hallows hsign, finalInfeasibility_of_lower hkind,
      stride, if_neg (by rw [hkind]; exact nofun), one_mul, ← min_neg_neg, neg_neg, neg_zero,
      min_comm]
    show min (d.value * 1) (d.value * 0) = _
    rw [mul_one, mul_zero]
  · have haux : b.auxiliary = between (-1) 0 := by rw [auxiliary, hkind]
    rw [haux] at hallows ⊢
    rw [mul_restingValue_between (by decide) hs hallows hsign, finalInfeasibility_of_upper hkind,
      stride, if_neg (by rw [hkind]; exact nofun), one_mul, ← min_neg_neg, neg_zero]
    show min (d.value * -1) (d.value * 0) = _
    rw [mul_neg_one, mul_zero]
  · rw [auxiliary_of_boxed hkind] at hallows ⊢
    rw [mul_restingValue_between le_rfl hs hallows hsign, min_self,
      finalInfeasibility_of_boxed hkind, mul_zero, neg_zero]
    exact mul_zero _

end Interval

theorem VariableStatus.value_dualInfeasibility_nonneg (s : VariableStatus) (d : Exact 0) :
    0 ≤ (s.dualInfeasibility d).value := by
  cases s with
  | basic | fixed => exact le_rfl
  | atLower => exact (le_max_right _ _).trans_eq (value_larger (-d) 0).symm
  | atUpper => exact (le_max_right _ _).trans_eq (value_larger d 0).symm
  | free => exact (abs_nonneg d.value).trans_eq (Exact.abs_eq _).symm

/-! ## Directions of a program -/

namespace LinearProgram

variable {lp : LinearProgram (Exact 0)} {direction : Nat → ℚ}

/-- What a step in a direction costs, as in a minimization. -/
def costAlong (lp : LinearProgram (Exact 0)) (direction : Nat → ℚ) : ℚ :=
  lp.sense.factor * ∑ j ∈ Finset.range lp.columnCount, arrayAt lp.costs j * direction j

/-- No column and no row is ever taken over a bound. -/
structure Recedes (lp : LinearProgram (Exact 0)) (direction : Nat → ℚ) : Prop where
  columns : ∀ j (b : Interval (Exact 0)), lp.columnBounds[j]? = some b → b.Recedes (direction j)
  rows : ∀ i (b : Interval (Exact 0)), lp.rowBounds[i]? = some b →
    b.Recedes (lp.activityAt direction i)

theorem activityAt_add_mul (x direction : Nat → ℚ) (step : ℚ) (i : Nat) :
    lp.activityAt (fun j => x j + step * direction j) i =
      lp.activityAt x i + step * lp.activityAt direction i := by
  unfold activityAt
  rw [Finset.mul_sum, ← Finset.sum_add_distrib]
  refine Finset.sum_congr rfl fun j _ => ?_
  ring

/-- From a feasible point one can go on in such a direction without end. -/
theorem Recedes.admits_add (h : lp.Recedes direction) {x : Nat → ℚ} (hx : lp.Admits 0 x)
    {step : ℚ} (hstep : 0 ≤ step) : lp.Admits 0 fun j => x j + step * direction j where
  columns := fun j b hb => (h.columns j b hb).within_add hstep (hx.columns j b hb)
  rows := by
    intro i b hb
    rw [activityAt_add_mul]
    exact (h.rows i b hb).within_add hstep (hx.rows i b hb)

end LinearProgram

namespace Engine

variable {t : Job (Exact 0)} {e : Engine (Exact 0)}

/-! ## Statuses after phase one -/

theorem boundsOf_restoreBounds (e : Engine (Exact 0)) (j : Nat) :
    (e.restoreBounds t).boundsOf j = t.boundsAt j :=
  boundsOf_eq_boundsAt (bounds_congr (setting_restoreBounds e)) j

theorem pricing_foldl_rest (f : Engine (Exact 0) → Nat → VariableStatus) (l : List Nat)
    (e : Engine (Exact 0)) : (l.foldl (fun e j => e.rest j (f e j)) e).pricing = e.pricing :=
  foldl_keeps pricing (fun e j => show (e.rest j (f e j)).pricing = e.pricing from rfl) l e

theorem reducedCostOf_of_pricing {e' : Engine (Exact 0)} (h : e'.pricing = e.pricing) (j : Nat) :
    e'.reducedCostOf j = e.reducedCostOf j := by
  have hreduced : e'.reducedCost = e.reducedCost := congrArg (fun prices => prices.2.2) h
  unfold reducedCostOf
  rw [hreduced]

theorem pricing_restoreBounds (e : Engine (Exact 0)) : (e.restoreBounds t).pricing = e.pricing :=
  pricing_foldl_rest (fun e j => if (e.boundsOf j).allows (e.statusOf j) then e.statusOf j
    else (e.boundsOf j).restingStatus) _ _

theorem pricing_restFinally (e : Engine (Exact 0)) : (e.restFinally t).pricing = e.pricing :=
  (pricing_foldl_rest (fun e j => finalStatus (e.boundsOf j) (e.reducedCostOf j)) _ _).trans
    (pricing_restoreBounds e)

theorem statusOf_restoreBounds (e : Engine (Exact 0)) (j : Nat) :
    (e.restoreBounds t).statusOf j = .basic ↔ e.statusOf j = .basic := by
  refine statusOf_foldl_rest (f := fun e j => if (e.boundsOf j).allows (e.statusOf j) then
    e.statusOf j else (e.boundsOf j).restingStatus) (fun e' k hk => ?_)
    (fun k hk => (mem_nonbasic.mp hk).2) j
  split
  · exact hk
  · exact Interval.restingStatus_ne_basic _

/-- Bounds and reduced costs stay as the statuses are given. -/
theorem statusOf_foldl_finalStatus (l : List Nat) {k : Nat} (hk : k < e.status.size) :
    (l.foldl (fun e j => e.rest j (finalStatus (e.boundsOf j) (e.reducedCostOf j))) e).statusOf k =
      if k ∈ l then finalStatus (e.boundsOf k) (e.reducedCostOf k) else e.statusOf k := by
  induction l generalizing e with
  | nil => rfl
  | cons j l ih =>
    have hsize : k < (e.rest j (finalStatus (e.boundsOf j) (e.reducedCostOf j))).status.size :=
      hk.trans_eq Array.size_setIfInBounds.symm
    have hstep := statusOf_rest e j k (finalStatus (e.boundsOf j) (e.reducedCostOf j))
    refine (ih hsize).trans ?_
    by_cases hl : k ∈ l
    · rw [if_pos hl, if_pos (List.mem_cons_of_mem j hl)]
      rfl
    · rw [if_neg hl, hstep]
      by_cases hj : j = k
      · subst hj
        rw [if_pos ⟨rfl, hk⟩, if_pos List.mem_cons_self]
      · rw [if_neg fun h => hj h.1, if_neg fun h => (List.mem_cons.mp h).elim (hj ·.symm) hl]

/-- What phase one makes of the statuses. -/
theorem Shaped.statusOf_restFinally (h : e.Shaped t) {j : Nat} (hj : j < t.size) :
    (e.restFinally t).statusOf j =
      if e.statusOf j = .basic then .basic
      else finalStatus (t.boundsAt j) (e.reducedCostOf j) := by
  have hsize : j < (e.restoreBounds t).status.size := by
    have hkept : (e.restoreBounds t).status.size = e.status.size :=
      foldl_keeps (fun e : Engine (Exact 0) => e.status.size)
        (fun e j => show (e.restAgain j).status.size = e.status.size from
          Array.size_setIfInBounds) _ _
    rw [hkept, h.size_status]
    exact hj
  have hstays := statusOf_restoreBounds (t := t) e j
  refine (statusOf_foldl_finalStatus _ hsize).trans ?_
  by_cases hbasic : e.statusOf j = .basic
  · rw [if_pos hbasic, if_neg fun hmem => (mem_nonbasic.mp hmem).2 (hstays.mpr hbasic)]
    exact hstays.mpr hbasic
  · rw [if_neg hbasic, if_pos (mem_nonbasic.mpr ⟨hj, fun hc => hbasic (hstays.mp hc)⟩),
      boundsOf_restoreBounds, reducedCostOf_of_pricing (pricing_restoreBounds e)]

/-! ## Optima of the auxiliary problem -/

/-- The auxiliary problem is solved exactly: the values are feasible and the reduced
costs, which go with the costs of the program, are of the right sign. -/
structure SolvesAuxiliary (t : Job (Exact 0)) (e : Engine (Exact 0)) : Prop extends
    Rests t e where
  bounds : e.bounds = t.bounds.map Interval.auxiliary
  balanced : e.Balanced t
  within : ∀ j, j < t.size → e.statusOf j = .basic →
    (e.boundsOf j).Within 0 (e.valueOf j).value
  reducedCost : ∀ j, j < t.size → (e.reducedCostOf j).value =
    (t.costs.getD j 0).value - t.worth (arrayAt e.multipliers) j
  basic : ∀ j, j < t.size → e.statusOf j = .basic → (e.reducedCostOf j).value = 0
  dual : ∀ j, j < t.size → (e.dualInfeasibility j).value = 0

/-- The values of the columns, as a direction. -/
def direction (t : Job (Exact 0)) (e : Engine (Exact 0)) : Nat → ℚ :=
  arrayAt (e.value.take t.columnCount)

theorem direction_eq {j : Nat} (hj : j < t.columnCount) :
    e.direction t j = (e.valueOf j).value := by
  unfold direction arrayAt valueOf
  rw [Array.getD_eq_getD_getElem?, Array.getD_eq_getD_getElem?, getElem?_take, if_pos hj]

theorem activityAt_direction (i : Nat) : t.program.activityAt (e.direction t) i =
    t.program.activityAt (fun j => (e.valueOf j).value) i :=
  Finset.sum_congr rfl fun j hj => by rw [direction_eq (Finset.mem_range.mp hj)]

namespace SolvesAuxiliary

variable (ht : t.WellFormed) (h : e.SolvesAuxiliary t)

include ht h

theorem boundsOf_eq {j : Nat} (hj : j < t.size) : e.boundsOf j = (t.boundsAt j).auxiliary := by
  have hlt : j < t.bounds.size := ht.size_bounds.symm ▸ hj
  have hmap : j < (t.bounds.map Interval.auxiliary).size := Array.size_map.symm ▸ hlt
  unfold boundsOf Job.boundsAt
  rw [h.bounds, getD_eq_getElem hmap, getD_eq_getElem hlt]
  exact Array.getElem_map ..

theorem within_auxiliary {j : Nat} (hj : j < t.size) :
    (t.boundsAt j).auxiliary.Within 0 (e.valueOf j).value := by
  have hbounds := h.boundsOf_eq ht hj
  by_cases hbasic : e.statusOf j = .basic
  · exact hbounds ▸ h.within j hj hbasic
  · have hvalue := beq_iff.mp ((h.rests j).value hbasic)
    have hallows := (h.rests j).allows
    rw [hbounds] at hvalue hallows
    rw [hvalue]
    refine Interval.within_of_resting (canonical_auxiliary _) ?_ hbasic hallows
    exact Interval.not_above_auxiliary _

/-- A column or row is not taken over a bound. -/
theorem recedes {j : Nat} (hj : j < t.size) : (t.boundsAt j).Recedes (e.valueOf j).value :=
  Interval.recedes_of_auxiliary (h.within_auxiliary ht hj)

theorem recedes_direction : t.program.Recedes (e.direction t) := by
  constructor
  · intro j b hb
    obtain ⟨hlt, rfl⟩ := Array.getElem?_eq_some_iff.mp hb
    have hj : j < t.columnCount := Nat.lt_of_lt_of_eq hlt ht.program.size_columnBounds
    have hcolumn := h.recedes ht (Nat.lt_add_right t.rowCount hj)
    rw [ht.boundsAt_column hlt] at hcolumn
    rw [direction_eq hj]
    exact hcolumn
  · intro i b hb
    obtain ⟨hlt, rfl⟩ := Array.getElem?_eq_some_iff.mp hb
    have hi : i < t.rowCount := hlt
    have hrow := h.recedes ht (Nat.add_lt_add_left hi t.columnCount)
    rw [ht.boundsAt_row hlt, h.balanced.value_logical hi, ← activityAt_direction] at hrow
    exact Interval.recedes_neg.mp hrow

omit ht in
/-- What is wrong with the reduced cost of a variable when phase one ends. -/
theorem dualInfeasibility_restFinally {j : Nat} (hj : j < t.size) :
    (e.restFinally t).dualInfeasibility j =
      if e.statusOf j = .basic then 0
      else (finalStatus (t.boundsAt j) (e.reducedCostOf j)).dualInfeasibility
        (e.reducedCostOf j) := by
  unfold dualInfeasibility
  rw [h.toShaped.statusOf_restFinally hj, reducedCostOf_of_pricing (pricing_restFinally e)]
  split
  · rfl
  · rfl

theorem reducedCost_mul_value {j : Nat} (hj : j < t.size) :
    (e.reducedCostOf j).value * (e.valueOf j).value =
      -((t.boundsAt j).stride * ((e.restFinally t).dualInfeasibility j).value) := by
  rw [h.dualInfeasibility_restFinally hj]
  by_cases hbasic : e.statusOf j = .basic
  · rw [if_pos hbasic, h.basic j hj hbasic, zero_mul]
    exact (neg_eq_zero.mpr (mul_zero _)).symm
  · have hvalue := beq_iff.mp ((h.rests j).value hbasic)
    have hallows := (h.rests j).allows
    rw [h.boundsOf_eq ht hj] at hvalue hallows
    rw [if_neg hbasic, hvalue]
    exact Interval.mul_restingValue_auxiliary hbasic hallows (h.dual j hj)

omit ht in
/-- The multipliers have no part in what the direction costs. -/
theorem costAlong_direction : t.program.costAlong (e.direction t) =
    ∑ j ∈ Finset.range t.size, (e.reducedCostOf j).value * (e.valueOf j).value := by
  have hcosts : t.program.costAlong (e.direction t) =
      ∑ j ∈ Finset.range t.size, (t.costs.getD j 0).value * (e.valueOf j).value := by
    have hall := sum_cost_mul (t := t) (e := { e with cost := t.costs }) rfl
      fun j => (e.valueOf j).value
    refine Eq.trans ?_ hall.symm
    unfold LinearProgram.objectiveAt LinearProgram.costAlong
    rw [add_sub_cancel_left]
    refine congrArg _ (Finset.sum_congr rfl fun j hj => ?_)
    rw [direction_eq (Finset.mem_range.mp hj)]
  have hterm : ∀ j ∈ Finset.range t.size, (t.costs.getD j 0).value * (e.valueOf j).value =
      (e.reducedCostOf j).value * (e.valueOf j).value +
        t.worth (arrayAt e.multipliers) j * (e.valueOf j).value := by
    intro j hj
    rw [h.reducedCost j (Finset.mem_range.mp hj)]
    ring
  rw [hcosts, Finset.sum_congr rfl hterm, Finset.sum_add_distrib,
    Job.sum_worth_mul (arrayAt e.multipliers) h.balanced, add_zero]

/-- The direction gains what is wrong with the reduced costs, each times the way that its
variable may go. -/
theorem costAlong_eq : t.program.costAlong (e.direction t) = -∑ j ∈ Finset.range t.size,
    (t.boundsAt j).stride * ((e.restFinally t).dualInfeasibility j).value := by
  rw [h.costAlong_direction, ← Finset.sum_neg_distrib]
  exact Finset.sum_congr rfl fun j hj => h.reducedCost_mul_value ht (Finset.mem_range.mp hj)

/-- The direction costs less than nothing as soon as one reduced cost is wrong. -/
theorem costAlong_neg_of_wrong {j : Nat} (hj : j < t.size)
    (hwrong : ((e.restFinally t).dualInfeasibility j).value ≠ 0) :
    t.program.costAlong (e.direction t) < 0 := by
  have hterm : ∀ k ∈ Finset.range t.size,
      0 ≤ (t.boundsAt k).stride * ((e.restFinally t).dualInfeasibility k).value := fun k _ =>
    mul_nonneg (t.boundsAt k).stride_pos.le (VariableStatus.value_dualInfeasibility_nonneg _ _)
  have hpositive : 0 < ((e.restFinally t).dualInfeasibility j).value :=
    lt_of_le_of_ne (VariableStatus.value_dualInfeasibility_nonneg _ _) hwrong.symm
  rw [h.costAlong_eq ht]
  exact neg_neg_of_pos (Finset.sum_pos' hterm ⟨j, Finset.mem_range.mpr hj,
    mul_pos (t.boundsAt j).stride_pos hpositive⟩)

end SolvesAuxiliary

/-- An optimum of the auxiliary problem shows a direction in which no bound of the program
is ever left, and which gains exactly what is wrong with the reduced costs under the
statuses that phase one ends with: a thousandfold for variables without bounds.  So
either these statuses are dual feasible or the direction improves the objective, and
never both. -/
theorem recedes_and_costAlong_of_auxiliary (ht : t.WellFormed) (h : e.SolvesAuxiliary t) :
    let direction := arrayAt (e.value.take t.columnCount)
    let wrong := fun j => ((e.restFinally t).dualInfeasibility j).value
    t.program.Recedes direction ∧
    (∀ x step, t.program.Admits 0 x → 0 ≤ step →
      t.program.Admits 0 fun j => x j + step * direction j) ∧
    (∀ j, j < t.size → (e.restFinally t).statusOf j =
      if e.statusOf j = .basic then .basic
      else finalStatus (t.boundsAt j) (e.reducedCostOf j)) ∧
    t.program.costAlong direction =
      -∑ j ∈ Finset.range t.size with e.statusOf j ≠ .basic,
        (if (t.boundsAt j).kind = .free then 1000 else 1) * wrong j ∧
    ((∀ j, j < t.size → wrong j = 0) ∧ t.program.costAlong direction = 0 ∨
      (∃ j, j < t.size ∧ 0 < wrong j) ∧ t.program.costAlong direction < 0) := by
  have hrecedes := h.recedes_direction ht
  refine ⟨hrecedes, fun x step hx hstep => hrecedes.admits_add hx hstep,
    fun j hj => h.toShaped.statusOf_restFinally hj, ?_, ?_⟩
  · refine (h.costAlong_eq ht).trans (congrArg Neg.neg ?_)
    rw [Finset.sum_filter]
    refine Finset.sum_congr rfl fun j hj => ?_
    split
    · rfl
    · rename_i hbasic
      rw [h.dualInfeasibility_restFinally (Finset.mem_range.mp hj), if_pos (not_not.mp hbasic)]
      exact mul_zero _
  · by_cases hall : ∀ j, j < t.size → ((e.restFinally t).dualInfeasibility j).value = 0
    · refine Or.inl ⟨hall, (h.costAlong_eq ht).trans (neg_eq_zero.mpr ?_)⟩
      refine Finset.sum_eq_zero fun j hj => ?_
      rw [hall j (Finset.mem_range.mp hj), mul_zero]
    · obtain ⟨j, hwrong⟩ := not_forall.mp hall
      obtain ⟨hj, hwrong⟩ := Classical.not_imp.mp hwrong
      exact Or.inr ⟨⟨j, hj, lt_of_le_of_ne (VariableStatus.value_dualInfeasibility_nonneg _ _)
        (Ne.symm hwrong)⟩, h.costAlong_neg_of_wrong ht hj hwrong⟩

end Engine

/-- Four columns, of which one has no bounds and one has two, and a row without bounds. -/
def Draft.funnel : Draft (Exact 0) :=
  { (blank 2 4).withMatrix #[0, 1, 2, 3, 4] #[0, 1, 1, 1] #[1, 1, 1, -1] with
    sense := .maximize
    costs := #[.ofRat 2, .ofRat 2, .ofRat 3, -1]
    columnLower := #[.negInf, .finite 0, .finite 0, .finite 0]
    columnUpper := #[.posInf, .posInf, .finite (4 : Nat), .posInf]
    rowUpper := #[.posInf, .finite (3 : Nat)] }

/-- After a basis change phase one has found a direction. -/
theorem Run.recedes_and_costAlong_funnel : ∃ lp, Draft.funnel.build = .ok lp ∧
    let t : Job (Exact 0) := ⟨lp, .default⟩
    let e := ((step t)^[3] (begin t (Basis.slack lp))).engine
    e.SolvesAuxiliary t ∧ lp.Recedes (arrayAt (e.value.take lp.columnCount)) ∧
      lp.costAlong (arrayAt (e.value.take lp.columnCount)) < 0 := by
  obtain ⟨lp, hbuild, hrun⟩ := exists_of_any_toOption (x := Draft.funnel.build)
    (P := fun lp => ((Basis.slack lp).validate lp).toOption.isSome &&
      let t : Job (Exact 0) := ⟨lp, .default⟩
      let r := (step t)^[3] (begin t (Basis.slack lp))
      let e := r.engine
      r.engine.relaxed.isEmpty && decide (r.stage = .auxiliary ∧
        (∀ j, j < t.size → e.statusOf j = .basic → (e.boundsOf j).Within 0 (e.valueOf j).value ∧
          (e.reducedCostOf j).value = 0) ∧
        (∀ j, j < t.size → (e.reducedCostOf j).value =
          (t.costs.getD j 0).value - t.worth (arrayAt e.multipliers) j) ∧
        (∀ j, j < t.size → (e.dualInfeasibility j).value = 0) ∧ 0 < t.size ∧
        ((e.restFinally t).dualInfeasibility 0).value = 2)) (by decide +kernel)
  rw [Bool.and_eq_true] at hrun
  have hbasis := eq_ok_of_isSome hrun.1
  obtain ⟨hrelaxed, hrun⟩ := Bool.and_eq_true_iff.mp hrun.2
  obtain ⟨hstage, hbasic, hreduced, hdual, hsize, hwrong⟩ := of_decide_eq_true hrun
  have ht := Job.wellFormed_of_build Draft.funnel.canonical_exact hbuild Parameters.validate_default
  have hvalid := Basis.valid_of_validate ht.program hbasis
  have hsettled := (settles_iterate_step ht
    (Parameters.pivotTolerance_pos Parameters.validate_default) hvalid 3).settled
    (by rw [hstage]; exact fun _ => nofun)
  have hstands := stands_iterate_step ht hvalid 3
  unfold Stands at hstands
  rw [hstage] at hstands
  have hsolves : Engine.SolvesAuxiliary ⟨lp, .default⟩
      ((step ⟨lp, .default⟩)^[3] (begin ⟨lp, .default⟩ (Basis.slack lp))).engine :=
    { hsettled.sound.toRests with
      bounds := Engine.bounds_of_ground hstands (List.isEmpty_iff.mp hrelaxed)
      balanced := hsettled.balanced
      within := fun j hj hj' => (hbasic j hj hj').1
      reducedCost := hreduced
      basic := fun j hj hj' => (hbasic j hj hj').2
      dual := hdual }
  obtain ⟨hrecedes, -, -, -, hdecides⟩ := Engine.recedes_and_costAlong_of_auxiliary ht hsolves
  refine ⟨lp, hbuild, hsolves, hrecedes, (hdecides.resolve_left fun hzero => ?_).2⟩
  exact two_ne_zero (hwrong.symm.trans (hzero.1 0 hsize))

end DualSimplex
