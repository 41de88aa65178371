import DualSimplex.Proofs.Engine.DualStep
import DualSimplex.Proofs.Engine.Optimality
import DualSimplex.Proofs.Engine.SolvedValues

/-!
# Multipliers along the pivot row

A dual step moves the multipliers along the row of the basis inverse, and the reduced costs
along its products with the columns.  So the reduced costs stay what the costs exceed the
worth of the columns by, but for that of the entering variable.  It is set to zero, which is
right only if the step is as long as its ratio says: a negative ratio is cut off.
-/

namespace DualSimplex

open Scalar Exact

namespace Job

variable {t : Job (Exact 0)} {y y' : Nat → ℚ}

theorem size_costs : t.costs.size = t.size := by
  simp [costs, size, columnCount, LinearProgram.columnCount]

theorem worth_congr (h : ∀ i, i < t.rowCount → y i = y' i) (j : Nat) : t.worth y j = t.worth y' j :=
  Finset.sum_congr rfl fun i hi => by rw [h i (Finset.mem_range.mp hi)]

theorem worth_add_mul (y y' : Nat → ℚ) (s : ℚ) (j : Nat) :
    t.worth (fun i => y i + s * y' i) j = t.worth y j + s * t.worth y' j := by
  unfold worth
  rw [Finset.mul_sum, ← Finset.sum_add_distrib]
  exact Finset.sum_congr rfl fun i _ => by ring

end Job

namespace Engine

variable {t : Job (Exact 0)} {e e' : Engine (Exact 0)} {x : Exchange (Exact 0)}

/-! ## The pivot row -/

/-- What is priced out is what the vector makes the columns worth. -/
theorem value_price (ht : t.WellFormed) {rho : SparseVector (Exact 0)}
    (hrho : rho.Listed t.rowCount) (e : Engine (Exact 0)) {j : Nat} (hj : j < t.size) :
    ((e.price t rho).2.entry t j).value = t.worth rho.valueAt j := by
  unfold PivotRow.entry
  by_cases hcolumn : j < t.columnCount
  · rw [if_pos hcolumn]
    have hline : t.column j = t.program.columns.line j := if_pos hcolumn
    obtain ⟨hbyRow, hbyColumn⟩ :=
      SparseVector.valueAt_price ht.program hrho t.parameters.density hcolumn
    unfold Job.worth
    rw [hline]
    unfold Engine.price
    dsimp only
    split
    · exact hbyRow
    · exact hbyColumn
  · obtain ⟨i, rfl⟩ : ∃ i, j = t.columnCount + i := ⟨j - t.columnCount, by omega⟩
    have hi : i < t.rowCount := Nat.lt_of_add_lt_add_left hj
    rw [if_neg hcolumn, Job.worth_logical hi, Nat.add_sub_cancel_left]
    rfl

theorem listed_unitRow {position : Nat} (hposition : position < t.rowCount) :
    (t.zeroRow.setOnly position 1).Listed t.rowCount :=
  listed_zeroRow.setOnly hposition (by rw [Job.zeroRow, SparseVector.get_zero]; rfl)
    (beq_zero_eq_false one_ne_zero)

/-- The row of a basis position makes the variable there worth one, and the other basic
variables worth nothing. -/
theorem Current.worth_priceRow (hcurrent : e.Current t) (h : e.Sound t) {position p : Nat}
    (hposition : position < t.rowCount) (hp : p < t.rowCount) :
    t.worth (e.priceRow t position).2.rho.valueAt (e.basicAt p) = if position = p then 1 else 0 := by
  have hsolved := hcurrent.btran h (listed_unitRow hposition) hp
  have hunit : (t.zeroRow.setOnly position 1).valueAt p = if position = p then 1 else 0 := by
    have hzero : t.zeroRow.valueAt p = 0 := SparseVector.valueAt_zero ..
    refine (SparseVector.valueAt_put t.zeroRow position p 1).trans ?_
    rw [hzero, (listed_zeroRow (t := t)).dim_eq]
    by_cases heq : position = p
    · rw [if_pos ⟨heq, hp⟩, if_pos heq]
      rfl
    · rw [if_neg fun hc => heq hc.1, if_neg heq]
  rw [← hunit]
  exact hsolved

theorem Current.value_priceRow (hcurrent : e.Current t) (ht : t.WellFormed) (h : e.Sound t)
    {position : Nat} (hposition : position < t.rowCount) {j : Nat} (hj : j < t.size) :
    ((e.priceRow t position).2.entry t j).value =
      t.worth (e.priceRow t position).2.rho.valueAt j :=
  value_price ht (hcurrent.listed_btran h (listed_unitRow hposition)) _ hj

/-! ## The dual step -/

theorem multipliers_dualStep (e : Engine (Exact 0)) (r : PivotRow (Exact 0)) (step : Exact 0) :
    (e.dualStep t r step).cost = e.cost ∧ (e.dualStep t r step).multipliers =
      r.rho.entries.foldl (fun y u => y.modify u.1 (· + step * u.2)) e.multipliers := by
  have hkeep : ∀ (e : Engine (Exact 0)) j (a : Exact 0),
      (e.lowerReducedCost j a).cost = e.cost ∧
        (e.lowerReducedCost j a).multipliers = e.multipliers := by
    intro e j a
    unfold lowerReducedCost
    split
    · exact ⟨rfl, rfl⟩
    · exact ⟨rfl, rfl⟩
  have hcolumns : ∀ (l : List (Nat × Exact 0)) (e : Engine (Exact 0)),
      (l.foldl (fun e u => e.lowerReducedCost u.1 (step * u.2)) e).cost = e.cost ∧
      (l.foldl (fun e u => e.lowerReducedCost u.1 (step * u.2)) e).multipliers =
        e.multipliers := fun l e =>
    ⟨foldl_keeps Engine.cost (fun e u => (hkeep e u.1 _).1) l e,
      foldl_keeps Engine.multipliers (fun e u => (hkeep e u.1 _).2) l e⟩
  have hrows : ∀ (l : List (Nat × Exact 0)) (e : Engine (Exact 0)),
      (l.foldl (fun e u =>
        let e := e.lowerReducedCost (t.columnCount + u.1) (step * u.2)
        { e with multipliers := e.multipliers.modify u.1 (· + step * u.2) }) e).cost = e.cost ∧
      (l.foldl (fun e u =>
        let e := e.lowerReducedCost (t.columnCount + u.1) (step * u.2)
        { e with multipliers := e.multipliers.modify u.1 (· + step * u.2) }) e).multipliers =
        l.foldl (fun y u => y.modify u.1 (· + step * u.2)) e.multipliers := by
    intro l
    induction l with
    | nil => exact fun e => ⟨rfl, rfl⟩
    | cons u l ih =>
      intro e
      obtain ⟨hcost, hmultipliers⟩ := hkeep e (t.columnCount + u.1) (step * u.2)
      obtain ⟨ihcost, ihmultipliers⟩ := ih
        (let e := e.lowerReducedCost (t.columnCount + u.1) (step * u.2)
        { e with multipliers := e.multipliers.modify u.1 (· + step * u.2) })
      refine ⟨ihcost.trans hcost, ihmultipliers.trans ?_⟩
      dsimp only
      rw [hmultipliers]
      rfl
  unfold Engine.dualStep
  dsimp only
  obtain ⟨hcost, hmultipliers⟩ := hcolumns r.columns.entries e
  obtain ⟨hcost', hmultipliers'⟩ := hrows r.rho.entries
    (r.columns.entries.foldl (fun e u => e.lowerReducedCost u.1 (step * u.2)) e)
  exact ⟨hcost'.trans hcost, hmultipliers'.trans (by rw [hmultipliers])⟩

/-- The multipliers after the dual step of a basis change, and the reduced costs of the
variables that stay outside the basis. -/
theorem arrayAt_moveDuals (hr : x.row.Listed t) (hmultipliers : e.multipliers.size = t.rowCount) :
    (e.moveDuals t x).cost = e.cost ∧ (e.moveDuals t x).multipliers.size = t.rowCount ∧
    ∀ i, arrayAt (e.moveDuals t x).multipliers i = arrayAt e.multipliers i +
      x.step.value * x.direction.value * x.row.rho.valueAt i := by
  have hmoved : (e.moveDuals t x).cost = (if x.step * x.direction == 0 then e
        else e.dualStep t x.row (x.step * x.direction)).cost ∧
      (e.moveDuals t x).multipliers = (if x.step * x.direction == 0 then e
        else e.dualStep t x.row (x.step * x.direction)).multipliers := ⟨rfl, rfl⟩
  rw [hmoved.1, hmoved.2]
  split
  · rename_i hzero
    have hzero : x.step.value * x.direction.value = 0 := value_eq_zero_of_beq hzero
    refine ⟨rfl, hmultipliers, fun i => ?_⟩
    rw [hzero, zero_mul, add_zero]
  · obtain ⟨hcost, hstep⟩ := multipliers_dualStep (t := t) e x.row (x.step * x.direction)
    have hlt : ∀ u ∈ x.row.rho.entries, u.1 < e.multipliers.size := by
      intro u hu
      obtain ⟨i, hi, rfl⟩ := List.mem_map.mp hu
      exact hmultipliers.symm ▸ hr.rho.lt hi
    have hupdate : ∀ (u : Nat × Exact 0) (a : Exact 0), (a + x.step * x.direction * u.2).value =
        a.value + u.2.value * (x.step * x.direction).value := fun u a => by
      rw [value_add, value_mul, mul_comm (x.step * x.direction).value]
    refine ⟨hcost, ?_, fun i => ?_⟩
    · rw [hstep]
      exact (size_foldl_modify Prod.fst (fun u => (· + x.step * x.direction * u.2)) _ _).trans
        hmultipliers
    · rw [hstep, arrayAt_foldl_update hupdate hlt i, hr.rho.coefficient_entries, value_mul,
        mul_comm (x.row.rho.valueAt i)]

/-- The reduced cost of a basic variable takes no part in a dual step. -/
theorem reducedCostOf_dualStep_basic (e : Engine (Exact 0)) (r : PivotRow (Exact 0))
    (step : Exact 0) {j : Nat} (hbasic : e.statusOf j = .basic) :
    (e.dualStep t r step).reducedCostOf j = e.reducedCostOf j := by
  have hlower : ∀ (e' : Engine (Exact 0)) k (a : Exact 0),
      e'.status = e.status ∧ e'.reducedCostOf j = e.reducedCostOf j →
      (e'.lowerReducedCost k a).status = e.status ∧
        (e'.lowerReducedCost k a).reducedCostOf j = e.reducedCostOf j := by
    intro e' k a he'
    have hskip : e'.isBasic j = true := decide_eq_true ((statusOf_congr he'.1 j).trans hbasic)
    unfold lowerReducedCost
    split
    · exact he'
    · rename_i hk
      have hkj : k ≠ j := fun hc => hk (hc ▸ hskip)
      exact ⟨he'.1, (getD_modify_ne hkj ..).trans he'.2⟩
  have hcolumns := List.foldlRecOn r.columns.entries
    (fun e u => e.lowerReducedCost u.1 (step * u.2))
    (motive := fun e' => e'.status = e.status ∧ e'.reducedCostOf j = e.reducedCostOf j)
    ⟨rfl, rfl⟩ fun e' he' u _ => hlower e' u.1 _ he'
  exact (List.foldlRecOn r.rho.entries
    (fun e u =>
      let e := e.lowerReducedCost (t.columnCount + u.1) (step * u.2)
      { e with multipliers := e.multipliers.modify u.1 (· + step * u.2) })
    (motive := fun e' => e'.status = e.status ∧ e'.reducedCostOf j = e.reducedCostOf j) hcolumns
    fun e' he' u _ => hlower e' _ _ he').2

theorem reducedCostOf_moveDuals (hr : x.row.Listed t) (hreduced : e.reducedCost.size = t.size) :
    (e.moveDuals t x).reducedCost.size = t.size ∧
    (x.entering < t.size → (e.moveDuals t x).reducedCostOf x.entering = 0) ∧
    ∀ j, j < t.size → x.entering ≠ j → ((e.moveDuals t x).reducedCostOf j).value =
      if x.leaving = j then -(x.step.value * x.direction.value)
      else if e.statusOf j = .basic then (e.reducedCostOf j).value
      else (e.reducedCostOf j).value -
        x.step.value * x.direction.value * (x.row.entry t j).value := by
  obtain ⟨hsize, hvalue⟩ := value_dualStep hr (x.step * x.direction) e
  generalize hstepped : (if x.step * x.direction == 0 then e
    else e.dualStep t x.row (x.step * x.direction)) = e₁
  have hmoved : (e.moveDuals t x).reducedCost =
      (e₁.reducedCost.setIfInBounds x.leaving (-(x.step * x.direction))).setIfInBounds
        x.entering 0 := by
    rw [← hstepped]
    rfl
  have hsize₁ : e₁.reducedCost.size = t.size := by
    rw [← hstepped, ← hreduced]
    split
    · rfl
    · exact hsize
  have hvalue₁ : ∀ j, j < t.size → (e₁.reducedCostOf j).value =
      if e.statusOf j = .basic then (e.reducedCostOf j).value
      else (e.reducedCostOf j).value -
        x.step.value * x.direction.value * (x.row.entry t j).value := by
    intro j hj
    rw [← hstepped]
    split
    · rename_i hzero
      have hzero : x.step.value * x.direction.value = 0 := value_eq_zero_of_beq hzero
      rw [hzero, zero_mul, sub_zero, ite_self]
    · split
      · rename_i hbasic
        rw [reducedCostOf_dualStep_basic e x.row _ hbasic]
      · rename_i hbasic
        exact hvalue j (hreduced.symm ▸ hj) hbasic
  unfold reducedCostOf at hvalue₁ ⊢
  rw [hmoved]
  refine ⟨?_, fun hentering => ?_, fun j hj hne => ?_⟩
  · rw [Array.size_setIfInBounds, Array.size_setIfInBounds, hsize₁]
  · exact getD_setIfInBounds_self (by rw [Array.size_setIfInBounds, hsize₁]; exact hentering) ..
  · rw [getD_setIfInBounds_ne hne, getD_setIfInBounds, hsize₁]
    by_cases hleaving : x.leaving = j
    · rw [if_pos ⟨hleaving, hj⟩, if_pos hleaving]
      rfl
    · rw [if_neg fun hc => hleaving hc.1, if_neg hleaving]
      exact hvalue₁ j hj

/-! ## The basis change -/

theorem costOf_congr (h : e'.cost = e.cost) (j : Nat) : e'.costOf j = e.costOf j := by
  unfold costOf
  rw [h]

theorem reducedCostOf_congr (h : e'.reducedCost = e.reducedCost) (j : Nat) :
    e'.reducedCostOf j = e.reducedCostOf j := by
  unfold reducedCostOf
  rw [h]

/-- The arrays of costs, multipliers and reduced costs have an entry for each variable and
row. -/
structure Tabled (t : Job (Exact 0)) (e : Engine (Exact 0)) : Prop where
  size_cost : e.cost.size = t.size
  size_multipliers : e.multipliers.size = t.rowCount
  size_reducedCost : e.reducedCost.size = t.size

theorem Tabled.of_pricing (h : e.Tabled t) (hpricing : e'.pricing = e.pricing) : e'.Tabled t where
  size_cost := (congrArg (fun p => p.1.size) hpricing).trans h.size_cost
  size_multipliers := (congrArg (fun p => p.2.1.size) hpricing).trans h.size_multipliers
  size_reducedCost := (congrArg (fun p => p.2.2.size) hpricing).trans h.size_reducedCost

/-- The row of a basis change is that of the leaving variable in the basis inverse, with its
products. -/
structure Rowed (t : Job (Exact 0)) (e : Engine (Exact 0)) (x : Exchange (Exact 0)) : Prop where
  listed : x.row.Listed t
  entry : ∀ j, j < t.size → (x.row.entry t j).value = t.worth x.row.rho.valueAt j
  unit : ∀ p, p < t.rowCount →
    t.worth x.row.rho.valueAt (e.basicAt p) = if x.position = p then 1 else 0

theorem pricing_flipPassed (e : Engine (Exact 0)) (flips : List Nat) :
    (e.flipPassed t flips).pricing = e.pricing :=
  flipPassed_keeps pricing (fun _ _ => rfl) (fun _ _ => rfl) (fun _ _ => rfl) e flips

theorem pricing_tau (e : Engine (Exact 0)) (rho : SparseVector (Exact 0)) :
    (e.tau? t rho).1.pricing = e.pricing := by
  unfold Engine.tau?
  split
  · rfl
  · rfl

section Change

variable (ht : t.WellFormed) (h : e.Sound t) (hx : e.Fits t x)

include ht h hx

theorem Fits.pricing_applyExchange : (e.applyExchange t x).1.pricing =
    ((e.tau? t x.row.rho).1.moveDuals t x).pricing := by
  obtain ⟨e₁, w, hflipped, -, -, -, heq⟩ := hx.exists_swap ht h
  rw [heq]
  show (e₁.lowerBasicValues (e₁.amounts x)).pricing = _
  rw [lowerBasicValues_eq, hflipped]
  exact pricing_flipPassed _ x.flips

section Tables

variable (htabled : e.Tabled t) (hr : x.row.Listed t)

include htabled hr

/-- What a basis change does to the costs, the multipliers and the reduced costs. -/
theorem Tabled.applyExchange : (e.applyExchange t x).1.Tabled t ∧
    (e.applyExchange t x).1.cost = e.cost ∧
    (∀ i, arrayAt (e.applyExchange t x).1.multipliers i = arrayAt e.multipliers i +
      x.step.value * x.direction.value * x.row.rho.valueAt i) ∧
    ((e.applyExchange t x).1.reducedCostOf x.entering).value = 0 ∧
    ∀ j, j < t.size → x.entering ≠ j → ((e.applyExchange t x).1.reducedCostOf j).value =
      if x.leaving = j then -(x.step.value * x.direction.value)
      else if e.statusOf j = .basic then (e.reducedCostOf j).value
      else (e.reducedCostOf j).value -
        x.step.value * x.direction.value * (x.row.entry t j).value := by
  have hpricing := hx.pricing_applyExchange ht h
  have htau := pricing_tau (t := t) e x.row.rho
  have htau' := status_congr (standing_tau (t := t) e x.row.rho)
  have htabled' := htabled.of_pricing htau
  generalize (e.tau? t x.row.rho).1 = e₀ at hpricing htau htau' htabled'
  obtain ⟨hcost, hsize, hmultipliers⟩ := arrayAt_moveDuals hr htabled'.size_multipliers
  obtain ⟨hsize', hentering, hreduced⟩ := reducedCostOf_moveDuals hr htabled'.size_reducedCost
  have hcost₀ : e₀.cost = e.cost := congrArg Prod.fst htau
  have hmultipliers₀ : e₀.multipliers = e.multipliers := congrArg (fun p => p.2.1) htau
  have hreduced₀ : e₀.reducedCost = e.reducedCost := congrArg (fun p => p.2.2) htau
  have hnew : (e.applyExchange t x).1.reducedCost = (e₀.moveDuals t x).reducedCost :=
    congrArg (fun p => p.2.2) hpricing
  have hmoved : (e₀.moveDuals t x).Tabled t :=
    ⟨(congrArg Array.size hcost).trans htabled'.size_cost, hsize, hsize'⟩
  refine ⟨hmoved.of_pricing hpricing, ((congrArg Prod.fst hpricing).trans hcost).trans hcost₀,
    fun i => ?_, ?_, fun j hj hne => ?_⟩
  · have hsame : (e.applyExchange t x).1.multipliers = (e₀.moveDuals t x).multipliers :=
      congrArg (fun p => p.2.1) hpricing
    rw [hsame, hmultipliers, hmultipliers₀]
  · rw [reducedCostOf_congr hnew, hentering hx.entering_lt]
    rfl
  · rw [reducedCostOf_congr hnew, hreduced j hj hne, reducedCostOf_congr hreduced₀,
      statusOf_congr htau']

end Tables

section Price

variable (htabled : e.Tabled t) (hrow : e.Rowed t x) (hpriced : e.Priced t)

include htabled hrow hpriced

/-- After a basis change the equations hold of all variables but the entering one. -/
theorem Priced.reducedCost_applyExchange {j : Nat} (hj : j < t.size) (hne : x.entering ≠ j) :
    ((e.applyExchange t x).1.reducedCostOf j).value = ((e.applyExchange t x).1.costOf j).value -
      t.worth (arrayAt (e.applyExchange t x).1.multipliers) j := by
  obtain ⟨-, hcost, hmultipliers, -, hreduced⟩ := htabled.applyExchange ht h hx hrow.listed
  have hold := hpriced.reducedCost j hj
  rw [hreduced j hj hne, costOf_congr hcost, Job.worth_congr (fun i _ => hmultipliers i), Job.worth_add_mul]
  by_cases hbasic : e.statusOf j = .basic
  · obtain ⟨p, hp, rfl⟩ := h.exists_position ((h.mem_iff j hj).mpr hbasic)
    rw [hrow.unit p hp, ← sub_sub, ← hold, hpriced.basic _ hj hbasic, hx.leaving_eq]
    by_cases hposition : x.position = p
    · rw [if_pos (congrArg e.basicAt hposition), if_pos hposition, mul_one, zero_sub]
    · rw [if_neg fun hc => hposition (h.basicAt_inj hx.position_lt hp hc), if_neg hposition,
        if_pos hbasic, mul_zero, sub_zero]
  · have hleaving : x.leaving ≠ j := by
      rintro rfl
      rw [hx.leaving_eq] at hbasic
      exact hbasic (h.statusOf_basicAt hx.position_lt)
    rw [if_neg hleaving, if_neg hbasic, ← hrow.entry j hj, hold, sub_sub]

/-- They hold of the entering variable if the step has taken its reduced cost to zero. -/
theorem Priced.entering_applyExchange :
    ((e.applyExchange t x).1.reducedCostOf x.entering).value =
        ((e.applyExchange t x).1.costOf x.entering).value -
          t.worth (arrayAt (e.applyExchange t x).1.multipliers) x.entering ↔
      (e.reducedCostOf x.entering).value =
        x.step.value * (x.direction.value * (x.row.entry t x.entering).value) := by
  obtain ⟨-, hcost, hmultipliers, hentering, -⟩ := htabled.applyExchange ht h hx hrow.listed
  have hold := hpriced.reducedCost x.entering hx.entering_lt
  rw [hentering, costOf_congr hcost, Job.worth_congr (fun i _ => hmultipliers i),
    Job.worth_add_mul, ← hrow.entry _ hx.entering_lt, ← sub_sub, ← hold, ← mul_assoc]
  exact eq_comm.trans sub_eq_zero

/-- Nothing is left for the basic variables after a basis change. -/
theorem Priced.basic_applyExchange (hflips : x.flips.Nodup) (hlt : ∀ j ∈ x.flips, j < t.size)
    {j : Nat} (hj : j < t.size) (hbasic : (e.applyExchange t x).1.statusOf j = .basic) :
    ((e.applyExchange t x).1.reducedCostOf j).value = 0 := by
  obtain ⟨-, -, -, hentering, hreduced⟩ := htabled.applyExchange ht h hx hrow.listed
  by_cases hne : x.entering = j
  · rw [← hne]
    exact hentering
  · rw [(hx.duals_applyExchange ht h hflips hlt).2 j] at hbasic
    by_cases hleaving : x.leaving = j
    · rw [if_pos hleaving] at hbasic
      exact absurd hbasic hx.leavingStatus.1
    · rw [if_neg hleaving, if_neg hne] at hbasic
      have hold : e.statusOf j = .basic := by
        split at hbasic
        · exact VariableStatus.opposite_eq_basic.mp hbasic
        · exact hbasic
      rw [hreduced j hj hne, if_neg hleaving, if_pos hold]
      exact hpriced.basic j hj hold

/-- A basis change keeps all equations just if its step takes the reduced cost of the
entering variable to zero. -/
theorem Priced.applyExchange_iff (hflips : x.flips.Nodup) (hlt : ∀ j ∈ x.flips, j < t.size) :
    (e.applyExchange t x).1.Priced t ↔ (e.reducedCostOf x.entering).value =
      x.step.value * (x.direction.value * (x.row.entry t x.entering).value) := by
  have hentering := hpriced.entering_applyExchange ht h hx htabled hrow
  refine ⟨fun hnew => hentering.mp (hnew.reducedCost _ hx.entering_lt), fun hfull =>
    ⟨fun j hj => ?_, fun j hj hbasic =>
      hpriced.basic_applyExchange ht h hx htabled hrow hflips hlt hj hbasic⟩⟩
  by_cases hne : x.entering = j
  · rw [← hne]
    exact hentering.mpr hfull
  · exact hpriced.reducedCost_applyExchange ht h hx htabled hrow hj hne

end Price

end Change

/-! ## Basis changes that were decided on -/

theorem Rowed.congr (h : e.Rowed t x) (hindex : e'.basicIndex = e.basicIndex) : e'.Rowed t x where
  listed := h.listed
  entry := h.entry
  unit p hp := by
    have hat : e'.basicAt p = e.basicAt p := congrArg (fun l : Array Nat => l.getD p 0) hindex
    rw [hat]
    exact h.unit p hp

theorem Decided.rowed (hx : e.Decided t e' x) (ht : t.WellFormed) (h : e.Sound t)
    (hcurrent : e.Current t) : e.Rowed t x where
  listed := by
    rw [hx.row_eq]
    exact hcurrent.listed_priceRow ht h hx.fits.position_lt
  entry j hj := by
    rw [hx.row_eq]
    exact hcurrent.value_priceRow ht h hx.fits.position_lt hj
  unit p hp := by
    rw [hx.row_eq]
    exact hcurrent.worth_priceRow h hx.fits.position_lt hp

/-- The variables that were passed. -/
theorem Decided.distinct_flips (hx : e.Decided t e' x) (h : e.Sound t) (hr : x.row.Listed t) :
    x.flips.Nodup ∧ ∀ j ∈ x.flips, j < t.size ∧ e.statusOf j ≠ .basic := by
  obtain ⟨last, -, hnodup, hpassed, -⟩ := hx.exists_last hr
  refine ⟨hnodup, fun j hj => ?_⟩
  obtain ⟨c, hc, -⟩ := hpassed j hj
  have hbasic := (of_candidate hc).2.2
  exact ⟨h.lt_of_statusOf_ne hbasic, hbasic⟩

/-! ## Steps that are cut off -/

/-- The step takes the reduced cost of the entering variable to zero unless its ratio is
negative. -/
theorem Decided.full_iff {e₁ : Engine (Exact 0)} (hx : e.Decided t e₁ x)
    (hpivot : 0 ≤ t.parameters.pivotTolerance.value) :
    (e.reducedCostOf x.entering).value =
        x.step.value * (x.direction.value * (x.row.entry t x.entering).value) ↔
      0 ≤ x.direction.value * (x.row.entry t x.entering).value *
        (e.reducedCostOf x.entering).value := by
  obtain ⟨alpha, slope, hresult, -⟩ := hx.found
  obtain ⟨passed, rest, last, hends, -, hentering, hstep⟩ := RatioTest.exists_endsAt hresult
  obtain ⟨m, hfalls⟩ : ∃ m, last.Falls (e.statusOf x.entering)
      (x.direction.value * (x.row.entry t x.entering).value)
      (e.reducedCostOf x.entering).value m := by
    have hlast := hends.perm.mem_iff.mp (List.mem_append_right passed hends.mem)
    rw [candidates_ratioTest, List.mem_filterMap] at hlast
    obtain ⟨j, -, hj⟩ := hlast
    obtain rfl : x.entering = j := hentering.symm.trans (of_candidate hj).1
    exact exists_falls hpivot hx.abs_direction hj
  have hstep : x.step.value = max last.ratio.value 0 := hstep ▸ value_larger _ _
  rw [hfalls.eq_mul_iff, ← hfalls.ratio_nonneg_iff, hstep, eq_comm, max_eq_left_iff]

end Engine
end DualSimplex
