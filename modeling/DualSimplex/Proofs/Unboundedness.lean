import Mathlib.Algebra.Order.Field.Basic
import DualSimplex.Proofs.Engine.Recession

/-!
# What a primal ray proves

A direction that is accepted as a primal ray leads from each point within the bounds to
ever better ones, and out of the bounds no faster than its tolerance says.  No direction
of recession is turned away that improves the objective by more than counts as zero.
-/

namespace DualSimplex

open Scalar Exact

/-! ## One variable -/

namespace Interval

variable {b : Interval (Exact 0)} {slack x : ℚ}

/-- A change of a value by `x` leads out of the bounds by no more than the slack. -/
structure NearlyRecedes (b : Interval (Exact 0)) (slack x : ℚ) : Prop where
  lower : b.lower.isFinite = true → -slack ≤ x
  upper : b.upper.isFinite = true → x ≤ slack

theorem Recedes.nearly (h : b.Recedes x) (hslack : 0 ≤ slack) : b.NearlyRecedes slack x where
  lower hb := (neg_nonpos.mpr hslack).trans (h.lower hb)
  upper hb := (h.upper hb).trans hslack

theorem recedes_iff {u v : Exact 0} :
    DualSimplex.recedes u v b = true ↔ b.NearlyRecedes u.value v.value := by
  have hend : ∀ {c : Bool} {p : Prop} [Decidable p],
      (!c || decide p) = true ↔ (c = true → p) := by
    intro c p _
    cases c with
    | false => exact ⟨fun _ h => absurd h Bool.false_ne_true, fun _ => rfl⟩
    | true => exact ⟨fun h _ => of_decide_eq_true h, fun h => decide_eq_true (h rfl)⟩
  unfold DualSimplex.recedes
  rw [Bool.and_eq_true, hend, hend, le_iff, le_iff, value_neg]
  exact ⟨fun h => ⟨h.1, h.2⟩, fun h => ⟨h.lower, h.upper⟩⟩

/-- The farther a value goes the more it may leave its bounds. -/
theorem NearlyRecedes.within_add {step z : ℚ} (h : b.NearlyRecedes slack x) (hstep : 0 ≤ step)
    (hz : b.Within 0 z) : b.Within (step * slack) (z + step * x) := by
  obtain ⟨lower, upper⟩ := b
  obtain ⟨hlower, hupper⟩ := hz
  constructor
  · cases lower with
    | negInf => exact trivial
    | posInf => exact hlower
    | finite l =>
      have hx : step * -slack ≤ step * x := mul_le_mul_of_nonneg_left (h.lower rfl) hstep
      have hlower : l.value ≤ z + 0 := hlower
      show l.value ≤ z + step * x + step * slack
      linarith
  · cases upper with
    | posInf => exact trivial
    | negInf => exact hupper
    | finite u =>
      have hx : step * x ≤ step * slack := mul_le_mul_of_nonneg_left (h.upper rfl) hstep
      have hupper : z - 0 ≤ u.value := hupper
      show z + step * x - step * slack ≤ u.value
      linarith

end Interval

/-! ## Directions of a program -/

namespace LinearProgram

variable {lp : LinearProgram (Exact 0)} {direction : Array (Exact 0)}

/-- Adding the columns of a program one after the other. -/
theorem arrayAt_foldl_columns {l : List (Exact 0 × Nat)} {r : Array (Exact 0)}
    (hlt : ∀ p ∈ l, ∀ t ∈ lp.columns.line p.2, t.1 < r.size) :
    let result := l.foldl (fun r p =>
      if p.1 == 0 then r
      else (lp.columns.line p.2).foldl (fun r t => r.modify t.1 (· + t.2 * p.1)) r) r
    result.size = r.size ∧ ∀ i, arrayAt result i =
      arrayAt r i + (l.map fun p => coefficient (lp.columns.line p.2) i * p.1.value).sum := by
  induction l generalizing r with
  | nil => exact ⟨rfl, fun i => (add_zero _).symm⟩
  | cons p l ih =>
    have hrest : ∀ q ∈ l, ∀ t ∈ lp.columns.line q.2, t.1 < r.size :=
      fun q hq => hlt q (List.mem_cons_of_mem p hq)
    cases hzero : p.1 == 0 with
    | true =>
      obtain ⟨hsize, harray⟩ := ih hrest
      simp only [List.foldl_cons, hzero, if_pos]
      refine ⟨hsize, fun i => ?_⟩
      rw [harray, List.map_cons, List.sum_cons, value_eq_zero_of_beq hzero, mul_zero, zero_add]
    | false =>
      have hline : ((lp.columns.line p.2).foldl
          (fun r t => r.modify t.1 (· + t.2 * p.1)) r).size = r.size := size_foldl_modify ..
      obtain ⟨hsize, harray⟩ := ih (by rw [hline]; exact hrest)
      simp only [List.foldl_cons, hzero, Bool.false_eq_true, if_false]
      refine ⟨hsize.trans hline, fun i => ?_⟩
      rw [harray, arrayAt_foldl_modify _ _ (hlt p List.mem_cons_self), List.map_cons,
        List.sum_cons, add_assoc]

/-- The activities that are computed are those at the point. -/
theorem activities_spec (hlp : lp.WellFormed) (hsize : direction.size = lp.columnCount) :
    (lp.activities direction).size = lp.rowCount ∧
    ∀ i, i < lp.rowCount →
      arrayAt (lp.activities direction) i = lp.activityAt (arrayAt direction) i := by
  have hzip : direction.toList.zipIdx =
      (List.range lp.columnCount).map fun j => (direction.getD j 0, j) := by
    refine List.ext_getElem (by simp [hsize]) fun j hj _ => ?_
    have hj : j < direction.size := by simpa using hj
    simp only [List.getElem_zipIdx, Array.getElem_toList, zero_add, List.getElem_map,
      List.getElem_range, getD_eq_getElem hj]
  have hlt : ∀ p ∈ direction.toList.zipIdx, ∀ t ∈ lp.columns.line p.2,
      t.1 < (Array.replicate lp.rowCount (0 : Exact 0)).size := by
    rw [hzip]
    intro p hp
    obtain ⟨j, hj, rfl⟩ := List.mem_map.mp hp
    rw [Array.size_replicate]
    exact hlp.row_lt j (List.mem_range.mp hj)
  obtain ⟨hlength, harray⟩ := arrayAt_foldl_columns hlt
  refine ⟨hlength.trans Array.size_replicate, fun i _ => ?_⟩
  refine (harray i).trans ?_
  have hstart : arrayAt (Array.replicate lp.rowCount (0 : Exact 0)) i = 0 := by
    rw [arrayAt, getD_replicate, ite_self, value_zero]
  rw [hstart, zero_add, hzip, List.map_map]
  rfl

/-- The cost of a direction as it is computed. -/
theorem value_costAlong (hsize : direction.size = lp.columnCount) :
    (sum (List.zipWith (fun d c => c * d) direction.toList
      (lp.costs.map lp.sense.orient).toList)).value = lp.costAlong (arrayAt direction) := by
  have hswap : List.zipWith (fun d c => c * d) direction.toList
      (lp.costs.map lp.sense.orient).toList =
      List.zipWith (· * ·) (lp.costs.map lp.sense.orient).toList direction.toList :=
    List.zipWith_comm
  rw [hswap, value_sum_zipWith Array.size_map hsize]
  unfold costAlong
  rw [Finset.mul_sum]
  refine Finset.sum_congr rfl fun j _ => ?_
  rw [lp.sense.arrayAt_map_orient, mul_assoc]

/-- No column and no row is taken over a bound by more than the slack. -/
structure NearlyRecedes (lp : LinearProgram (Exact 0)) (slack : ℚ) (direction : Nat → ℚ) :
    Prop where
  columns : ∀ j (b : Interval (Exact 0)), lp.columnBounds[j]? = some b →
    b.NearlyRecedes slack (direction j)
  rows : ∀ i (b : Interval (Exact 0)), lp.rowBounds[i]? = some b →
    b.NearlyRecedes slack (lp.activityAt direction i)

theorem Recedes.nearly {direction : Nat → ℚ} {slack : ℚ} (h : lp.Recedes direction)
    (hslack : 0 ≤ slack) : lp.NearlyRecedes slack direction where
  columns j b hb := (h.columns j b hb).nearly hslack
  rows i b hb := (h.rows i b hb).nearly hslack

theorem NearlyRecedes.admits_add {direction x : Nat → ℚ} {slack step : ℚ}
    (h : lp.NearlyRecedes slack direction) (hx : lp.Admits 0 x) (hstep : 0 ≤ step) :
    lp.Admits (step * slack) fun j => x j + step * direction j where
  columns j b hb := (h.columns j b hb).within_add hstep (hx.columns j b hb)
  rows := by
    intro i b hb
    rw [activityAt_add_mul]
    exact (h.rows i b hb).within_add hstep (hx.rows i b hb)

/-- The test of a list of changes against as many bounds. -/
theorem all_recedes_iff {u : Exact 0} {values : Array (Exact 0)}
    {bounds : Array (Interval (Exact 0))} (hsize : values.size = bounds.size) :
    ((List.zip values.toList bounds.toList).all fun (v, b) => recedes u v b) = true ↔
      ∀ k (b : Interval (Exact 0)), bounds[k]? = some b →
        b.NearlyRecedes u.value (arrayAt values k) := by
  rw [List.all_eq_true]
  constructor
  · intro h k b hb
    obtain ⟨hk, -⟩ := Array.getElem?_eq_some_iff.mp hb
    have hv : values[k]? = some values[k] := Array.getElem?_eq_getElem (hsize.symm ▸ hk)
    rw [arrayAt_of_getElem? hv]
    refine Interval.recedes_iff.mp (h (values[k], b) (List.mem_iff_getElem?.mpr ⟨k, ?_⟩))
    rw [List.getElem?_zip_eq_some, Array.getElem?_toList, Array.getElem?_toList]
    exact ⟨hv, hb⟩
  · rintro h ⟨v, b⟩ hmem
    obtain ⟨k, hk⟩ := List.mem_iff_getElem?.mp hmem
    rw [List.getElem?_zip_eq_some, Array.getElem?_toList, Array.getElem?_toList] at hk
    refine Interval.recedes_iff.mpr ?_
    rw [← arrayAt_of_getElem? hk.1]
    exact h k b hk.2

theorem costAlong_eq_zero_of_peak (hsize : direction.size = lp.columnCount)
    (hpeak : peak direction.toList = 0) : lp.costAlong (arrayAt direction) = 0 := by
  unfold costAlong
  rw [Finset.sum_eq_zero, mul_zero]
  intro j hj
  have hj : j < direction.size := hsize.symm ▸ Finset.mem_range.mp hj
  have hentry : |arrayAt direction j| ≤ 0 := by
    rw [arrayAt, getD_eq_getElem hj]
    exact (abs_le_peak (Array.getElem_mem_toList hj)).trans_eq hpeak
  rw [abs_nonpos_iff.mp hentry, mul_zero]

/-- What is checked of a direction before it is accepted. -/
theorem isPrimalRay_iff (hlp : lp.WellFormed) (hsize : direction.size = lp.columnCount)
    (tolerance : Exact 0) : isPrimalRay lp direction tolerance = true ↔
      lp.costAlong (arrayAt direction) < -(1e-9 * peak direction.toList) ∧
      lp.NearlyRecedes (tolerance.value * peak direction.toList) (arrayAt direction) := by
  obtain ⟨hactivities, hactivity⟩ := activities_spec hlp hsize
  have hslack : (tolerance * maxAbs direction.toList).value =
      tolerance.value * peak direction.toList := by rw [value_mul, value_maxAbs]
  have hrayZero : (-(rayZero : Exact 0) * maxAbs direction.toList).value =
      -(1e-9 * peak direction.toList) := by
    rw [value_mul, value_maxAbs, value_neg, neg_mul]
    rfl
  unfold isPrimalRay
  dsimp only
  cases hscale : maxAbs direction.toList == 0 with
  | true =>
    have hpeak : peak direction.toList = 0 := by
      rw [← value_maxAbs]
      exact value_eq_zero_of_beq hscale
    rw [if_pos rfl, costAlong_eq_zero_of_peak hsize hpeak, hpeak, mul_zero, neg_zero]
    exact ⟨fun h => absurd h Bool.false_ne_true, fun h => absurd h.1 (lt_irrefl 0)⟩
  | false =>
    rw [if_neg Bool.false_ne_true]
    by_cases hcost : -rayZero * maxAbs direction.toList ≤ sum (List.zipWith (fun d c => c * d)
        direction.toList (lp.costs.map lp.sense.orient).toList)
    · rw [if_pos hcost]
      rw [le_iff, hrayZero, value_costAlong hsize] at hcost
      exact ⟨fun h => absurd h Bool.false_ne_true, fun h => absurd h.1 (not_lt.mpr hcost)⟩
    · rw [if_neg hcost, Bool.and_eq_true,
        all_recedes_iff (hsize.trans hlp.size_columnBounds.symm), all_recedes_iff hactivities, hslack]
      rw [le_iff, hrayZero, value_costAlong hsize, not_le] at hcost
      have hrows : ∀ i (b : Interval (Exact 0)), lp.rowBounds[i]? = some b →
          arrayAt (lp.activities direction) i = lp.activityAt (arrayAt direction) i := by
        intro i b hb
        obtain ⟨hi, -⟩ := Array.getElem?_eq_some_iff.mp hb
        exact hactivity i hi
      constructor
      · rintro ⟨hcolumns, hrowBounds⟩
        exact ⟨hcost, hcolumns, fun i b hb => hrows i b hb ▸ hrowBounds i b hb⟩
      · rintro ⟨-, hrecedes⟩
        refine ⟨hrecedes.columns, fun i b hb => ?_⟩
        rw [hrows i b hb]
        exact hrecedes.rows i b hb

/-- How the objective changes with a step, as in a minimization. -/
theorem factor_mul_objectiveAt_add (x direction : Nat → ℚ) (step : ℚ) :
    lp.sense.factor * lp.objectiveAt (fun j => x j + step * direction j) =
      lp.sense.factor * lp.objectiveAt x + step * lp.costAlong direction := by
  unfold objectiveAt costAlong
  simp only [mul_add, Finset.sum_add_distrib, mul_left_comm _ step, ← Finset.mul_sum]
  ring

/-- The objective gets better than anything within the bounds. -/
def Unbounded (lp : LinearProgram (Exact 0)) : Prop :=
  ∀ target : ℚ, ∃ x, lp.Admits 0 x ∧ lp.sense.factor * lp.objectiveAt x < target

/-- What a direction promises that is accepted with a tolerance. -/
structure UnboundedAlong (lp : LinearProgram (Exact 0)) (tolerance : ℚ)
    (direction : Array (Exact 0)) : Prop where
  admits : ∀ x, lp.Admits 0 x → ∀ step, 0 ≤ step →
    lp.Admits (step * (tolerance * peak direction.toList)) fun j => x j + step * arrayAt direction j
  improves : ∀ x step, 0 < step →
    lp.sense.factor * lp.objectiveAt (fun j => x j + step * arrayAt direction j) <
      lp.sense.factor * lp.objectiveAt x - step * (1e-9 * peak direction.toList)
  unbounded : tolerance = 0 → (∃ x, lp.Admits 0 x) → lp.Unbounded

theorem unboundedAlong {direction : Array (Exact 0)} {tolerance : ℚ}
    (hcost : lp.costAlong (arrayAt direction) < -(1e-9 * peak direction.toList))
    (hrecedes : lp.NearlyRecedes (tolerance * peak direction.toList) (arrayAt direction)) :
    lp.UnboundedAlong tolerance direction := by
  have hadmits := fun x hx step (hstep : 0 ≤ step) => hrecedes.admits_add (x := x) hx hstep
  refine ⟨hadmits, fun x step hstep => ?_, ?_⟩
  · rw [factor_mul_objectiveAt_add]
    have hgain := mul_lt_mul_of_pos_left hcost hstep
    linarith
  · rintro rfl ⟨x, hx⟩ target
    have hnegative : lp.costAlong (arrayAt direction) < 0 :=
      hcost.trans_le (neg_nonpos.mpr (mul_nonneg (by norm_num) (peak_nonneg _)))
    let needed := (target - lp.sense.factor * lp.objectiveAt x) / lp.costAlong (arrayAt direction)
    have hlong : needed < |needed| + 1 := (le_abs_self needed).trans_lt (lt_add_one _)
    refine ⟨fun j => x j + (|needed| + 1) * arrayAt direction j, ?_, ?_⟩
    · have hpoint := hadmits x hx (|needed| + 1) (add_nonneg (abs_nonneg _) zero_le_one)
      rw [zero_mul, mul_zero] at hpoint
      exact hpoint
    · rw [factor_mul_objectiveAt_add]
      have hbelow := (div_lt_iff_of_neg hnegative).mp hlong
      linarith

end LinearProgram

/-- What is accepted as a primal ray of a program makes the objective better without end, and
leads out of the bounds at most as fast as the tolerance allows.  All directions of recession
that improve the objective by more than counts as zero are accepted. -/
theorem unboundedAlong_of_isPrimalRay {d : Draft (Exact 0)} {lp : LinearProgram (Exact 0)}
    (hbuild : d.build = .ok lp) {direction : Array (Exact 0)}
    (hsize : direction.size = lp.columnCount) {tolerance : Exact 0} (htolerance : 0 ≤ tolerance) :
    (isPrimalRay lp direction tolerance = true → lp.UnboundedAlong tolerance.value direction) ∧
    (lp.Recedes (arrayAt direction) →
      lp.costAlong (arrayAt direction) < -(1e-9 * peak direction.toList) →
      isPrimalRay lp direction tolerance = true) := by
  have hiff := LinearProgram.isPrimalRay_iff (Draft.wellFormed_build d.canonical_exact hbuild) hsize
    tolerance
  constructor
  · intro h
    obtain ⟨hcost, hrecedes⟩ := hiff.mp h
    exact LinearProgram.unboundedAlong hcost hrecedes
  · intro hrecedes hcost
    exact hiff.mpr ⟨hcost, hrecedes.nearly (mul_nonneg htolerance (peak_nonneg _))⟩

/-- Two columns that may grow together, the second no slower than the first. -/
def Draft.ramp : Draft (Exact 0) :=
  { (blank 1 2).withMatrix #[0, 1, 2] #[0, 0] #[1, -1] with
    sense := .maximize
    costs := #[1, 0]
    rowUpper := #[.finite (2 : Nat)] }

/-- Both columns can be made larger without end. -/
theorem unbounded_ramp : ∃ lp, Draft.ramp.build = .ok lp ∧
    isPrimalRay lp #[1, 1] 0 = true ∧ lp.UnboundedAlong 0 #[1, 1] ∧ lp.Unbounded := by
  obtain ⟨lp, hbuild, hlp⟩ := exists_of_any_toOption (x := Draft.ramp.build)
    (P := fun lp => decide (lp.columnCount = 2 ∧ isPrimalRay lp #[1, 1] 0 = true ∧
      lp.Admits 0 fun _ => 0)) (by decide +kernel)
  obtain ⟨hcount, hray, hpoint⟩ := of_decide_eq_true hlp
  have hsize : (#[1, 1] : Array (Exact 0)).size = lp.columnCount := hcount.symm
  have hzero : (0 : Exact 0) ≤ 0 := le_refl (0 : ℚ)
  have halong := (unboundedAlong_of_isPrimalRay hbuild hsize hzero).1 hray
  exact ⟨lp, hbuild, hray, halong, halong.unbounded rfl ⟨_, hpoint⟩⟩

end DualSimplex
