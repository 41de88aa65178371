import DualSimplex.Proofs.Engine.Duality
import DualSimplex.Proofs.Engine.Reported

/-!
# Exact values in solutions

With exact numbers the row values of a solution are the activities at its column
values, and its column duals are what its row duals leave of the costs.
-/

namespace DualSimplex

open Scalar Exact

theorem arrayAt_of_getElem? {cutoff : Rat} {xs : Array (Exact cutoff)} {i : Nat} {x : Exact cutoff}
    (h : xs[i]? = some x) : arrayAt xs i = x.value := by
  unfold arrayAt
  rw [Array.getD_eq_getD_getElem?, h]
  rfl

/-! ## The sense of a program -/

/-- The sign that a quantity of a minimization has in the sense of the program. -/
def ObjectiveSense.factor : ObjectiveSense → ℚ
  | .minimize => 1
  | .maximize => -1

theorem ObjectiveSense.value_orient (s : ObjectiveSense) (x : Exact 0) :
    (s.orient x).value = s.factor * x.value := by
  cases s with
  | minimize => exact (one_mul _).symm
  | maximize => exact (neg_one_mul _).symm

theorem ObjectiveSense.factor_mul_factor (s : ObjectiveSense) : s.factor * s.factor = 1 := by
  cases s with
  | minimize => exact one_mul 1
  | maximize => exact neg_one_mul (-1 : ℚ) |>.trans (neg_neg 1)

theorem ObjectiveSense.arrayAt_map_orient (s : ObjectiveSense) (xs : Array (Exact 0)) (i : Nat) :
    arrayAt (xs.map s.orient) i = s.factor * arrayAt xs i := by
  unfold arrayAt
  rw [← s.value_orient]
  by_cases hi : i < xs.size
  · rw [getD_eq_getElem (by rw [Array.size_map]; exact hi), Array.getElem_map, getD_eq_getElem hi]
  · rw [getD_of_size_le (by rw [Array.size_map]; omega), getD_of_size_le (by omega),
      s.value_orient, value_zero, mul_zero]

/-! ## Reduced costs of the wrong sign -/

theorem VariableStatus.value_dualInfeasibility_congr (s : VariableStatus) {d d' : Exact 0}
    (h : d.value = d'.value) : (s.dualInfeasibility d).value = (s.dualInfeasibility d').value := by
  cases s with
  | atLower =>
    refine (value_larger (-d) 0).trans (Eq.trans ?_ (value_larger (-d') 0).symm)
    rw [value_neg, value_neg, h]
  | atUpper =>
    refine (value_larger d 0).trans (Eq.trans ?_ (value_larger d' 0).symm)
    rw [h]
  | free => exact congrArg Rat.abs h
  | fixed | basic => rfl

/-- A row and its logical variable are at opposite ends and have opposite signs. -/
theorem VariableStatus.value_dualInfeasibility_opposite (s : VariableStatus) {d d' : Exact 0}
    (h : d'.value = -d.value) :
    (s.opposite.dualInfeasibility d').value = (s.dualInfeasibility d).value := by
  cases s with
  | atLower =>
    refine (value_larger d' 0).trans (Eq.trans ?_ (value_larger (-d) 0).symm)
    rw [value_neg, h]
  | atUpper =>
    refine (value_larger (-d') 0).trans (Eq.trans ?_ (value_larger d 0).symm)
    rw [value_neg, h, neg_neg]
  | free =>
    show d'.value.abs = d.value.abs
    rw [h, Exact.abs_eq, Exact.abs_eq, abs_neg]
  | fixed | basic => rfl

namespace Engine

variable {t : Job (Exact 0)} {e : Engine (Exact 0)}

/-! ## Costs of the program -/

section Costs

variable (hcost : e.cost = t.costs)

include hcost

theorem costOf_column {j : Nat} (hj : j < t.columnCount) :
    (e.costOf j).value = t.program.sense.factor * arrayAt t.program.costs j := by
  have hsize : j < (t.program.costs.map t.program.sense.orient).size := by
    rw [Array.size_map]
    exact hj
  rw [← t.program.sense.arrayAt_map_orient]
  unfold costOf arrayAt
  rw [hcost, Job.costs, Matrix.getD_append, if_pos hsize]

theorem costOf_row (i : Nat) : (e.costOf (t.columnCount + i)).value = 0 := by
  have hsize : (t.program.costs.map t.program.sense.orient).size = t.columnCount :=
    Array.size_map
  unfold costOf
  rw [hcost, Job.costs, Matrix.getD_append, hsize, if_neg (by omega), Nat.add_sub_cancel_left,
    getD_replicate, ite_self]
  rfl

/-- The cost of all variables is the objective value without the offset. -/
theorem sum_cost_mul (z : Nat → ℚ) :
    ∑ j ∈ Finset.range t.size, (e.costOf j).value * z j =
      t.program.sense.factor * (t.program.objectiveAt z - t.program.offset.value) := by
  have hcolumns : ∑ j ∈ Finset.range t.columnCount, (e.costOf j).value * z j =
      t.program.sense.factor * ∑ j ∈ Finset.range t.columnCount,
        arrayAt t.program.costs j * z j := by
    rw [Finset.mul_sum]
    refine Finset.sum_congr rfl fun j hj => ?_
    rw [costOf_column hcost (Finset.mem_range.mp hj), mul_assoc]
  have hrows : ∑ i ∈ Finset.range t.rowCount,
      (e.costOf (t.columnCount + i)).value * z (t.columnCount + i) = 0 :=
    Finset.sum_eq_zero fun i _ => by rw [costOf_row hcost, zero_mul]
  rw [Job.sum_size, hcolumns, hrows, add_zero]
  unfold LinearProgram.objectiveAt
  rw [add_sub_cancel_left]
  rfl

end Costs

/-! ## What is reported -/

section Reading

variable (h : e.Sound t) (status : SolveStatus)

include h

theorem arrayAt_columnValues {j : Nat} (hj : j < t.columnCount) :
    arrayAt (e.solution t status).columnValues j = (e.valueOf j).value :=
  arrayAt_of_getElem? (columns_solution h.toShaped hj status).2

theorem activityAt_columnValues (i : Nat) :
    t.program.activityAt (arrayAt (e.solution t status).columnValues) i =
      t.program.activityAt (fun j => (e.valueOf j).value) i :=
  Finset.sum_congr rfl fun j hj => by
    rw [arrayAt_columnValues h status (Finset.mem_range.mp hj)]

theorem value_logical (hbalanced : e.Balanced t) {i : Nat} (hi : i < t.rowCount) :
    (e.valueOf (t.columnCount + i)).value =
      -t.program.activityAt (arrayAt (e.solution t status).columnValues) i := by
  rw [activityAt_columnValues h status]
  exact hbalanced.value_logical hi

theorem arrayAt_rowValues (hbalanced : e.Balanced t) {i : Nat} (hi : i < t.rowCount) :
    arrayAt (e.solution t status).rowValues i =
      t.program.activityAt (arrayAt (e.solution t status).columnValues) i := by
  rw [arrayAt_of_getElem? (rows_solution h.toShaped hi status).2, value_neg,
    value_logical h status hbalanced hi, neg_neg]

theorem value_objective_solution : (e.solution t status).objective.value =
    t.program.objectiveAt (arrayAt (e.solution t status).columnValues) := by
  refine LinearProgram.value_objective ?_
  show (e.value.take t.columnCount).size = t.columnCount
  rw [← Array.length_toList, toList_take, List.length_take, Array.length_toList, h.size_value]
  exact min_eq_left (Nat.le_add_right _ _)

omit h

theorem arrayAt_columnDuals {j : Nat} (hj : j < t.columnCount) :
    arrayAt (e.solution t status).columnDuals j =
      t.program.sense.factor * (e.reducedCostOf j).value := by
  refine (t.program.sense.arrayAt_map_orient _ j).trans (congrArg _ ?_)
  unfold arrayAt reducedCostOf
  rw [Array.getD_eq_getD_getElem?, Array.getD_eq_getD_getElem?, getElem?_take, if_pos hj]

theorem arrayAt_rowDuals (i : Nat) : arrayAt (e.solution t status).rowDuals i =
    t.program.sense.factor * arrayAt e.multipliers i :=
  t.program.sense.arrayAt_map_orient _ i

/-- The column duals are what the row duals leave of the costs. -/
theorem columnDuals_eq (hcost : e.cost = t.costs) (hpriced : e.Priced t) {j : Nat}
    (hj : j < t.columnCount) : arrayAt (e.solution t status).columnDuals j =
      arrayAt t.program.costs j - ∑ i ∈ Finset.range t.rowCount,
        coefficient (t.program.columns.line j) i * arrayAt (e.solution t status).rowDuals i := by
  have hcolumn : t.column j = t.program.columns.line j := if_pos hj
  have hworth : t.program.sense.factor * t.worth (arrayAt e.multipliers) j =
      ∑ i ∈ Finset.range t.rowCount, coefficient (t.program.columns.line j) i *
        arrayAt (e.solution t status).rowDuals i := by
    unfold Job.worth
    rw [hcolumn, Finset.mul_sum]
    refine Finset.sum_congr rfl fun i _ => ?_
    rw [arrayAt_rowDuals]
    ring
  have hsize : j < t.size := Nat.lt_add_right t.rowCount hj
  rw [arrayAt_columnDuals status hj, hpriced.reducedCost j hsize, costOf_column hcost hj, mul_sub,
    hworth, ← mul_assoc, t.program.sense.factor_mul_factor, one_mul]

theorem value_orient_columnDuals {j : Nat} (hj : j < t.columnCount) :
    (t.program.sense.orient ((e.solution t status).columnDuals.getD j 0)).value =
      (e.reducedCostOf j).value := by
  have hdual := arrayAt_columnDuals (e := e) status hj
  unfold arrayAt at hdual
  rw [t.program.sense.value_orient, hdual, ← mul_assoc, t.program.sense.factor_mul_factor, one_mul]

theorem value_orient_rowDuals (i : Nat) :
    (t.program.sense.orient ((e.solution t status).rowDuals.getD i 0)).value =
      arrayAt e.multipliers i := by
  have hdual := arrayAt_rowDuals (t := t) (e := e) status i
  unfold arrayAt at hdual ⊢
  rw [t.program.sense.value_orient, hdual, ← mul_assoc, t.program.sense.factor_mul_factor, one_mul]

/-- A reported dual is of the wrong sign for the reported status by as much as the
reduced cost is for the status of the variable. -/
theorem dualInfeasibility_column {j : Nat} (hj : j < t.columnCount) :
    ((e.statusOf j).dualInfeasibility
      (t.program.sense.orient ((e.solution t status).columnDuals.getD j 0))).value =
        (e.dualInfeasibility j).value :=
  (e.statusOf j).value_dualInfeasibility_congr (value_orient_columnDuals status hj)

theorem dualInfeasibility_row (hcost : e.cost = t.costs) (hpriced : e.Priced t) {i : Nat}
    (hi : i < t.rowCount) : ((e.statusOf (t.columnCount + i)).opposite.dualInfeasibility
      (t.program.sense.orient ((e.solution t status).rowDuals.getD i 0))).value =
        (e.dualInfeasibility (t.columnCount + i)).value := by
  refine VariableStatus.value_dualInfeasibility_opposite _ ?_
  rw [value_orient_rowDuals, hpriced.reducedCost _ (Nat.add_lt_add_left hi t.columnCount),
    costOf_row hcost, Job.worth_logical hi, zero_sub, neg_neg]

end Reading

/-! ## Points within the bounds -/

section Points

variable (ht : t.WellFormed)

include ht

/-- A point of the program keeps the bounds of all variables. -/
theorem within_extend {slack : ℚ} {x : Nat → ℚ} (hx : t.program.Admits slack x) {j : Nat}
    (hj : j < t.size) : (t.boundsAt j).Within slack (t.extend x j) := by
  by_cases hcolumn : j < t.columnCount
  · have hlt : j < t.program.columnBounds.size := ht.program.size_columnBounds.symm ▸ hcolumn
    rw [ht.boundsAt_column hlt, Job.extend_column x hcolumn]
    exact hx.columns j _ (Array.getElem?_eq_getElem hlt)
  · obtain ⟨i, rfl⟩ : ∃ i, j = t.columnCount + i := ⟨j - t.columnCount, by omega⟩
    have hlt : i < t.program.rowBounds.size := Nat.lt_of_add_lt_add_left hj
    rw [ht.boundsAt_row hlt, Job.extend_row]
    exact Interval.within_neg.mpr (hx.rows i _ (Array.getElem?_eq_getElem hlt))

/-- Values that keep the bounds of all variables are reported as a point that does. -/
theorem Sound.admits_solution (h : e.Sound t) (hbalanced : e.Balanced t) {slack : ℚ}
    (hwithin : ∀ j, j < t.size → (t.boundsAt j).Within slack (e.valueOf j).value)
    (status : SolveStatus) :
    t.program.Admits slack (arrayAt (e.solution t status).columnValues) := by
  constructor
  · intro j b hb
    obtain ⟨hlt, rfl⟩ := Array.getElem?_eq_some_iff.mp hb
    have hj : j < t.columnCount := Nat.lt_of_lt_of_eq hlt ht.program.size_columnBounds
    have hcolumn := hwithin j (Nat.lt_add_right t.rowCount hj)
    rw [ht.boundsAt_column hlt] at hcolumn
    rw [arrayAt_columnValues h status hj]
    exact hcolumn
  · intro i b hb
    obtain ⟨hlt, rfl⟩ := Array.getElem?_eq_some_iff.mp hb
    have hi : i < t.rowCount := hlt
    have hrow := hwithin (t.columnCount + i) (Nat.add_lt_add_left hi t.columnCount)
    rw [ht.boundsAt_row hlt, value_logical h status hbalanced hi] at hrow
    exact Interval.within_neg.mp hrow

end Points

end Engine

/-- How far apart two points are in the columns and rows that a basis leaves outside. -/
def Basis.restingDistance (b : Basis) (lp : LinearProgram (Exact 0)) (x x' : Nat → ℚ) : ℚ :=
  ∑ j ∈ Finset.range lp.columnCount,
      (if b.columns[j]? = some .basic then 0 else |x' j - x j|) +
    ∑ i ∈ Finset.range lp.rowCount,
      if b.rows[i]? = some .basic then 0 else |lp.activityAt x' i - lp.activityAt x i|

namespace Engine

variable {t : Job (Exact 0)} {e : Engine (Exact 0)}

/-- The way of the resting variables to a point, as it is reported. -/
theorem Sound.sum_resting (h : e.Sound t) (hbalanced : e.Balanced t) (status : SolveStatus)
    (x : Nat → ℚ) : ∑ j ∈ Finset.range t.size,
      (if e.statusOf j = .basic then 0 else |t.extend x j - (e.valueOf j).value|) =
    (e.solution t status).basis.restingDistance t.program
      (arrayAt (e.solution t status).columnValues) x := by
  unfold Basis.restingDistance
  rw [Job.sum_size]
  refine congr (congrArg HAdd.hAdd (Finset.sum_congr rfl fun j hj => ?_))
    (Finset.sum_congr rfl fun i hi => ?_)
  · have hj : j < t.columnCount := Finset.mem_range.mp hj
    rw [(columns_solution h.toShaped hj status).1, Job.extend_column x hj,
      arrayAt_columnValues h status hj]
    refine if_congr ?_ rfl rfl
    rw [Option.some.injEq]
  · have hi : i < t.rowCount := Finset.mem_range.mp hi
    rw [(rows_solution h.toShaped hi status).1, Job.extend_row,
      value_logical h status hbalanced hi, neg_sub_neg, abs_sub_comm]
    refine if_congr ?_ rfl rfl
    rw [Option.some.injEq, VariableStatus.opposite_eq_basic]

/-- No feasible point costs less than the reported one by more than the largest reduced
cost of the wrong sign, times the way to it. -/
theorem Priced.factor_mul_objectiveAt_le (hpriced : e.Priced t) (ht : t.WellFormed)
    (h : e.Sound t) (hbalanced : e.Balanced t) (hcost : e.cost = t.costs)
    (hbounds : e.bounds = t.bounds) {limit : ℚ}
    (hlimit : ∀ j, j < t.size → (e.dualInfeasibility j).value ≤ limit) (status : SolveStatus)
    {x : Nat → ℚ} (hx : t.program.Admits 0 x) :
    t.program.sense.factor *
        t.program.objectiveAt (arrayAt (e.solution t status).columnValues) ≤
      t.program.sense.factor * t.program.objectiveAt x + limit *
        (e.solution t status).basis.restingDistance t.program
          (arrayAt (e.solution t status).columnValues) x := by
  have hcanonical : ∀ j, j < t.size → (e.boundsOf j).Canonical := fun j hj => by
    rw [boundsOf_eq_boundsAt hbounds]
    exact ht.canonical_bounds (ht.boundsAt_mem hj)
  have hwithin : ∀ j, j < t.size → (e.boundsOf j).Within 0 (t.extend x j) := fun j hj => by
    rw [boundsOf_eq_boundsAt hbounds]
    exact within_extend ht hx hj
  have hway := hpriced.sum_cost_le hbalanced h.toRests hcanonical hlimit
    (fun i hi => Job.sum_column_extend x hi) hwithin
  have hstart : t.program.objectiveAt (fun j => (e.valueOf j).value) =
      t.program.objectiveAt (arrayAt (e.solution t status).columnValues) :=
    LinearProgram.objectiveAt_congr fun j hj => (arrayAt_columnValues h status hj).symm
  have hgoal : t.program.objectiveAt (t.extend x) = t.program.objectiveAt x :=
    LinearProgram.objectiveAt_congr fun j hj => Job.extend_column x hj
  rw [sum_cost_mul hcost (fun j => (e.valueOf j).value), sum_cost_mul hcost,
    h.sum_resting hbalanced status, hstart, hgoal] at hway
  linarith

end Engine
end DualSimplex
