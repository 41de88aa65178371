import DualSimplex.Proofs.Factor.Factoring
import DualSimplex.Proofs.Factor.Solve

/-!
# Reconstructing a matrix from its factors

At any time during a factorization the matrix is the product of what has gone to
the factors plus what is left in the active submatrix.  At the end nothing is
left.
-/

namespace DualSimplex

open Scalar Exact

namespace Factoring

/-- What a step accounts for: its column of the lower times its row of the upper
factor. -/
def term (upperColumns : Array (List (Nat × Exact 0))) (i j : Nat) (s : PivotStep (Exact 0)) : ℚ :=
  ((if i = s.row then 1 else 0) + coefficient s.lowerColumn i) *
    ((if j = s.column then s.value.value else 0) + coefficient (upperColumns.getD j []) s.row)

/-- What all steps account for. -/
def product (f : Factoring (Exact 0)) (i j : Nat) : ℚ :=
  (f.steps.map (term f.upperColumns i j)).sum

/-- The steps and what is left make up the matrix. -/
def Accounts (columns : List (List (Nat × Exact 0))) (f : Factoring (Exact 0)) : Prop :=
  ∀ i j, i < columns.length → j < columns.length →
    coefficient (columns.getD j []) i = f.product i j + f.active.entry i j

variable {f : Factoring (Exact 0)} {columns : List (List (Nat × Exact 0))} {m : Nat}

theorem accounts_start (h : SquareColumns columns) : Accounts columns (start columns) := by
  intro i j _ hj
  have hkeys : DistinctKeys (columns.getD j []) := by
    rw [List.getD_eq_getElem?_getD, List.getElem?_eq_getElem hj]
    exact h.keys _ (List.getElem_mem hj)
  have hentry : (start columns).active.entry i j = coefficient (columns.getD j []) i := by
    have hactive := (Active.wellFormed_ofColumns h).column_keys j
    show coefficient ((Active.ofColumns columns).column j) i = _
    by_cases hx : ∃ x, (i, x) ∈ (Active.ofColumns columns).column j
    · obtain ⟨x, hx⟩ := hx
      rw [coefficient_of_mem hactive hx]
      rw [Active.column_ofColumns, Active.mem_significantColumns] at hx
      rw [coefficient_of_mem hkeys hx.1]
    · rw [coefficient_of_notMem fun t ht (e : t.1 = i) => hx ⟨t.2, e ▸ ht⟩]
      by_cases hx' : ∃ x, (i, x) ∈ columns.getD j []
      · obtain ⟨x, hx'⟩ := hx'
        rw [coefficient_of_mem hkeys hx']
        by_contra hne
        refine hx ⟨x, ?_⟩
        rw [Active.column_ofColumns, Active.mem_significantColumns]
        exact ⟨hx', beq_zero_eq_false fun e => hne e.symm⟩
      · rw [coefficient_of_notMem fun t ht (e : t.1 = i) => hx' ⟨t.2, e ▸ ht⟩]
  rw [hentry]
  exact (zero_add _).symm

/-- A pivot takes from the submatrix what its step accounts for. -/
theorem Invariant.product_take (h : f.Invariant m) {p : Pivot (Exact 0)}
    (hp : (p.row, p.value) ∈ f.active.column p.column) (hne : p.value.value ≠ 0) {i j : Nat}
    (hj : j < m) :
    (f.take p).product i j + (f.take p).active.entry i j = f.product i j + f.active.entry i j := by
  have hrow : ∀ s ∈ f.steps, s.row ≠ p.row := fun s hs e => (h.pivoted s hs _ _ hp).1 e.symm
  have hsize : j < f.upperColumns.size := h.size_upper.symm ▸ hj
  have hold : f.steps.map (term (f.take p).upperColumns i j) =
      f.steps.map (term f.upperColumns i j) := by
    refine List.map_congr_left fun s hs => ?_
    have hupper : coefficient ((f.take p).upperColumns.getD j []) s.row =
        coefficient (f.upperColumns.getD j []) s.row := by
      rw [upperColumns_take, coefficient_scatter, if_neg fun e => hrow s hs e.1, add_zero]
    rw [term, term, hupper]
  have hnone : coefficient (f.upperColumns.getD j []) p.row = 0 := by
    refine coefficient_of_notMem fun t ht e => ?_
    obtain ⟨s, hs, he⟩ := h.upper_rows j t ht
    exact hrow s hs (he.trans e)
  have hnew : (f.take p).product i j = f.product i j +
      ((if i = p.row then 1 else 0) +
          coefficient (f.active.eliminate p.row p.column p.value).lowerColumn i) *
        ((if j = p.column then p.value.value else 0) +
          coefficient (f.active.eliminate p.row p.column p.value).upperRow j) := by
    have hupper : coefficient ((f.take p).upperColumns.getD j []) p.row =
        coefficient (f.active.eliminate p.row p.column p.value).upperRow j := by
      rw [upperColumns_take, coefficient_scatter, if_pos ⟨rfl, hsize⟩, hnone, zero_add]
    show ((f.steps ++ [_]).map (term (f.take p).upperColumns i j)).sum = _
    rw [List.map_append, List.sum_append, hold, List.map_singleton, List.sum_singleton, term,
      hupper]
    rfl
  have hentry : (f.take p).active.entry i j = _ := h.active.entry_eliminate hp hne i j
  rw [hnew, hentry]
  ring

/-- What holds of a factorization under way as long as no column has been given
up. -/
def Exactly (columns : List (List (Nat × Exact 0))) (tolerance : Exact 0)
    (f : Factoring (Exact 0)) : Prop :=
  (f.dependent = [] → Accounts columns f) ∧
    ∀ s ∈ f.steps, tolerance.value ≤ |s.value.value|

theorem Invariant.exactly_take (h : f.Invariant columns.length) {tolerance : Exact 0}
    (htolerance : 0 < tolerance.value) (hf : Exactly columns tolerance f) {p : Pivot (Exact 0)}
    (hp : (p.row, p.value) ∈ f.active.column p.column ∧ tolerance ≤ magnitude p.value) :
    Exactly columns tolerance (f.take p) := by
  have hlarge : tolerance.value ≤ |p.value.value| := by
    rw [← abs_eq]
    exact hp.2
  have hne : p.value.value ≠ 0 := fun e => by
    rw [e, abs_zero] at hlarge
    exact absurd htolerance (not_lt.mpr hlarge)
  refine ⟨fun hnone i j hi hj => ?_, fun s hs => ?_⟩
  · rw [h.product_take hp.1 hne hj]
    exact hf.1 hnone i j hi hj
  · rcases List.mem_append.mp hs with hs | hs
    · exact hf.2 s hs
    · rw [List.mem_singleton.mp hs]
      exact hlarge

end Factoring

namespace LU

/-! ## The factors of a complete elimination -/

section OfSteps

variable {steps : List (PivotStep (Exact 0))} {upperColumns : Array (List (Nat × Exact 0))}

theorem diagonalAt_ofSteps {k : Nat} (hk : k < steps.length) :
    (ofSteps steps upperColumns).upper.diagonalAt k = steps[k].value := by
  rw [upper_ofSteps, UpperTriangle.diagonalAt_ofSlots (by rw [List.length_map]; exact hk),
    List.getElem_map]

variable (h : CompleteElimination steps upperColumns)

include h

theorem solvable_ofSteps (hvalue : ∀ s ∈ steps, s.value.value ≠ 0) :
    (ofSteps steps upperColumns).Solvable := by
  refine { wellFormed_ofSteps h with diagonal := fun k hk => ?_ }
  rw [upper_ofSteps, UpperTriangle.isActive_ofSlots, decide_eq_true_eq, List.length_map] at hk
  rw [diagonalAt_ofSteps hk]
  exact hvalue _ (List.getElem_mem hk)

theorem slotOf_ofSteps {k : Nat} (hk : k < steps.length) :
    (ofSteps steps upperColumns).upper.slotOf steps[k].row = k := by
  have hrows : ((steps.map fun s => (s.row, s.value, upperColumns.getD s.column [])).map
      fun s => s.1).Nodup := by
    rw [List.map_map]
    exact h.rows_nodup
  have hslot := UpperTriangle.slotOf_ofSlots (m := steps.length) hrows
    (fun s hs => by
      obtain ⟨r, hr, rfl⟩ := List.mem_map.mp hs
      exact h.row_lt r hr)
    (k := k) (by rw [List.length_map]; exact hk)
  rw [List.getElem_map] at hslot
  rw [upper_ofSteps]
  exact hslot

omit h in
theorem column_ofSteps {k : Nat} (hk : k < steps.length) :
    (ofSteps steps upperColumns).upper.column k = upperColumns.getD steps[k].column [] := by
  rw [upper_ofSteps, UpperTriangle.column_ofSlots (by rw [List.length_map]; exact hk),
    List.getElem_map]

theorem upperEntry_ofSteps {k l : Nat} (hk : k < steps.length) (hl : l < steps.length) :
    (ofSteps steps upperColumns).upperTriangle.entry steps[k].row steps[l].row =
      (if steps[l].column = steps[k].column then steps[k].value.value else 0) +
        coefficient (upperColumns.getD steps[l].column []) steps[k].row := by
  have hrank : (ofSteps steps upperColumns).upperTriangle.rank steps[l].row = l :=
    slotOf_ofSteps h hl
  have hdivisor : (ofSteps steps upperColumns).upperTriangle.divisor l = steps[l].value :=
    diagonalAt_ofSteps hl
  have hcolumn : (ofSteps steps upperColumns).upperTriangle.column l =
      upperColumns.getD steps[l].column [] := column_ofSteps hl
  rw [Triangle.entry, Triangle.entryBy, hrank, hdivisor, hcolumn]
  by_cases hkl : k = l
  · subst hkl
    rw [if_pos rfl, if_pos rfl]
  · rw [if_neg, if_neg]
    · intro e
      have hcolumns := h.columns_nodup
      rw [List.nodup_iff_injective_getElem] at hcolumns
      have := @hcolumns ⟨l, by rw [List.length_map]; exact hl⟩
        ⟨k, by rw [List.length_map]; exact hk⟩ (by simpa using e)
      exact hkl (Fin.mk.inj this).symm
    · intro e
      apply hkl
      rw [← stepOf_ofSteps h hk, e, stepOf_ofSteps h hl]

/-- The product of the factors is what the steps account for. -/
theorem matrixAt_ofSteps (hvalue : ∀ s ∈ steps, s.value.value ≠ 0) {i j : Nat}
    (hi : i < steps.length) (hj : j < steps.length) :
    (ofSteps steps upperColumns).matrixAt i j =
      (steps.map (Factoring.term upperColumns i j)).sum := by
  have hs := solvable_ofSteps h hvalue
  obtain ⟨l, hl, rfl⟩ := h.exists_column hj
  rw [hs.matrixAt_eq_restore (p := steps[l].column) hj hi, restore]
  have hsum := Triangle.sum_order (d := .ascending) hs.numbered_lower fun r =>
    (ofSteps steps upperColumns).lowerTriangle.entry i r *
      (ofSteps steps upperColumns).upperTriangle.entry r
        ((ofSteps steps upperColumns).labels.apply steps[l].column)
  refine hsum.symm.trans (congrArg List.sum ?_)
  refine List.ext_getElem (by simp [Direction.order, lowerTriangle]) fun k hk hk' => ?_
  rw [List.length_map] at hk'
  rw [List.getElem_map, List.getElem_map, Factoring.term]
  have hlength : k < (Direction.ascending.order
      (ofSteps steps upperColumns).lowerTriangle.ranks).length := by simpa using hk
  have hrank : (Direction.ascending.order
      (ofSteps steps upperColumns).lowerTriangle.ranks)[k] = k := List.getElem_range _
  have hplace : (ofSteps steps upperColumns).lowerTriangle.place k = steps[k].row :=
    pivotRow_ofSteps hk'
  have hlower : (ofSteps steps upperColumns).lowerTriangle.entry i steps[k].row =
      (if i = steps[k].row then 1 else 0) + coefficient steps[k].lowerColumn i := by
    have hrank : (ofSteps steps upperColumns).lowerTriangle.rank steps[k].row = k :=
      stepOf_ofSteps h hk'
    have hcolumn : (ofSteps steps upperColumns).lowerTriangle.column k = steps[k].lowerColumn :=
      lowerColumn_ofSteps hk'
    rw [Triangle.entry, Triangle.entryBy, hrank, hcolumn]
    rfl
  rw [hrank, hplace, hlower, apply_ofSteps h hl, upperEntry_ofSteps h hk' hl]

end OfSteps

/-! ## Factoring -/

/-- The steps from which factors are put together. -/
structure Factored (columns : List (List (Nat × Exact 0))) (tolerance : Exact 0)
    (f : Factoring (Exact 0)) : Prop where
  invariant : f.Invariant columns.length
  length_steps : f.steps.length = columns.length
  accounts : Factoring.Accounts columns f
  large : ∀ s ∈ f.steps, tolerance.value ≤ |s.value.value|

theorem exists_factored {columns : List (List (Nat × Exact 0))} (hcolumns : SquareColumns columns)
    {threshold tolerance : Exact 0} (htolerance : 0 < tolerance.value) {lu : LU (Exact 0)}
    {summary : FactorSummary (Exact 0)}
    (h : factor columns threshold tolerance = .ok (lu, summary)) :
    ∃ f, Factored columns tolerance f ∧ lu = ofSteps f.steps f.upperColumns := by
  obtain ⟨hnone, hlu⟩ := of_factor_eq_ok h
  obtain ⟨hinvariant, hexactly, hlen⟩ := Factoring.run_complete _ hcolumns
    (P := Factoring.Exactly columns tolerance)
    ⟨fun _ => Factoring.accounts_start hcolumns, fun s hs => absurd hs List.not_mem_nil⟩
    (fun f p hf hP hp => hf.exactly_take htolerance hP
      ⟨hp.1, ((PivotSearch.accepts_iff _).mp hp.2).1⟩)
    (fun f j _ hP => ⟨fun hnil => absurd hnil (by simp), hP.2⟩) hnone
  exact ⟨_, ⟨hinvariant, hlen, hexactly.1 hnone, hexactly.2⟩, hlu⟩

namespace Factored

variable {columns : List (List (Nat × Exact 0))} {tolerance : Exact 0} {f : Factoring (Exact 0)}
  (h : Factored columns tolerance f)

include h

theorem complete : CompleteElimination f.steps f.upperColumns := by
  have hsequence := h.invariant.sequence
  rw [← h.length_steps] at hsequence
  exact hsequence

theorem value_ne_zero (htolerance : 0 < tolerance.value) : ∀ s ∈ f.steps, s.value.value ≠ 0 :=
  fun s hs e => by
    have hlarge := h.large s hs
    rw [e, abs_zero] at hlarge
    exact absurd htolerance (not_lt.mpr hlarge)

theorem solvable (htolerance : 0 < tolerance.value) :
    (ofSteps f.steps f.upperColumns).Solvable :=
  solvable_ofSteps h.complete (h.value_ne_zero htolerance)

/-- In the end nothing is left of the matrix. -/
theorem matrixAt (htolerance : 0 < tolerance.value) {i j : Nat} (hi : i < columns.length)
    (hj : j < columns.length) : (ofSteps f.steps f.upperColumns).matrixAt i j =
      coefficient (columns.getD j []) i := by
  have hempty : f.active.entry i j = 0 := by
    obtain ⟨k, hk, hcolumn⟩ := h.complete.exists_column (j := j) (by rw [h.length_steps]; exact hj)
    refine Active.entry_eq_zero fun x hx => ?_
    exact (h.invariant.pivoted _ (List.getElem_mem hk) _ _ hx).2 hcolumn.symm
  rw [matrixAt_ofSteps h.complete (h.value_ne_zero htolerance) (by rw [h.length_steps]; exact hi)
    (by rw [h.length_steps]; exact hj), h.accounts i j hi hj, hempty, add_zero]
  rfl

theorem rowByStep_perm :
    (ofSteps f.steps f.upperColumns).rowByStep.toList.Perm (List.range columns.length) := by
  show (f.steps.map PivotStep.row).Perm _
  rw [List.perm_ext_iff_of_nodup h.complete.rows_nodup List.nodup_range]
  intro i
  rw [List.mem_range, ← h.length_steps, List.mem_map]
  constructor
  · rintro ⟨s, hs, rfl⟩
    exact h.complete.row_lt s hs
  · intro hi
    obtain ⟨k, hk, he⟩ := h.complete.exists_row hi
    exact ⟨_, List.getElem_mem hk, he⟩

theorem labels_perm :
    (ofSteps f.steps f.upperColumns).labels.forward.toList.Perm (List.range columns.length) := by
  have hsize : (ofSteps f.steps f.upperColumns).labels.forward.size = f.steps.length :=
    (size_foldl_set ..).trans Array.size_replicate
  have hperm := Permutation.forward_perm (p := (ofSteps f.steps f.upperColumns).labels)
    (by rw [hsize]; exact positions_ofSteps h.complete)
  rwa [hsize, h.length_steps] at hperm

end Factored

/-- Factors without zeros on the diagonal make up a matrix that is not singular. -/
theorem Solvable.eq_zero_of_sum_eq_zero {lu : LU (Exact 0)} (h : lu.Solvable) {x : Nat → ℚ}
    (hx : ∀ i, i < lu.m → ∑ j ∈ Finset.range lu.m, lu.matrixAt i j * x j = 0) {k : Nat}
    (hk : k < lu.m) : x k = 0 := by
  have hlisted := SparseVector.listed_single (m := lu.m) hk (x := (1 : Exact 0))
    (beq_zero_eq_false one_ne_zero)
  have hunit := fun j (hj : j < lu.m) => (h.sum_matrixAt_mul_btran hlisted hj).trans
    (SparseVector.valueAt_single hk 1 j)
  rw [← Triangle.sum_ite_mul hk x hunit, Triangle.sum_sum_mul_comm lu.matrixAt x]
  exact Finset.sum_eq_zero fun i hi => by rw [hx i (Finset.mem_range.mp hi), zero_mul]

/-- Factoring a matrix gives factors of that very matrix, with every row and every
position pivoted on once and no small value on the diagonal.  Hence the matrix is
not singular. -/
theorem factor_reconstructs {columns : List (List (Nat × Exact 0))}
    (hcolumns : SquareColumns columns) {threshold tolerance : Exact 0}
    (htolerance : 0 < tolerance.value) {lu : LU (Exact 0)} {summary : FactorSummary (Exact 0)}
    (h : factor columns threshold tolerance = .ok (lu, summary)) :
    lu.toRows.length = columns.length ∧ (∀ row ∈ lu.toRows, row.length = columns.length) ∧
    (∀ i j, i < columns.length → j < columns.length →
      rowsAt lu.toRows i j = coefficient (columns.getD j []) i) ∧
    lu.labels.forward.toList.Perm (List.range columns.length) ∧
    lu.rowByStep.toList.Perm (List.range columns.length) ∧
    lu.upper.diagonal.size = columns.length ∧
    (∀ x ∈ lu.upper.diagonal.toList, tolerance.value ≤ |x.value|) ∧
    ∀ x : Nat → ℚ, (∀ i, i < columns.length →
        ∑ j ∈ Finset.range columns.length, coefficient (columns.getD j []) i * x j = 0) →
      ∀ j, j < columns.length → x j = 0 := by
  obtain ⟨f, hf, rfl⟩ := exists_factored hcolumns htolerance h
  have hsolvable := hf.solvable htolerance
  have hm : (ofSteps f.steps f.upperColumns).m = columns.length := hf.length_steps
  have hdiagonal : (ofSteps f.steps f.upperColumns).upper.diagonal =
      (f.steps.map PivotStep.value).toArray := by
    rw [upper_ofSteps, (UpperTriangle.ofSlots_fields _ _).2.1, List.map_map]
    rfl
  refine ⟨?_, fun row hrow => ?_, fun i j hi hj => ?_, hf.labels_perm, hf.rowByStep_perm, ?_,
    fun x hx => ?_, fun x hx j hj => ?_⟩
  · rw [toRows, List.length_map, List.length_range, hm]
  · obtain ⟨i, -, rfl⟩ := List.mem_map.mp hrow
    rw [List.length_map, List.length_map, List.length_range, hm]
  · rw [rowsAt_toRows _ (hm.symm ▸ hi) (hm.symm ▸ hj), hf.matrixAt htolerance hi hj]
  · rw [hdiagonal, List.size_toArray, List.length_map, hf.length_steps]
  · rw [hdiagonal] at hx
    obtain ⟨s, hs, rfl⟩ := List.mem_map.mp hx
    exact hf.large s hs
  · refine hsolvable.eq_zero_of_sum_eq_zero (fun i hi => ?_) (hm.symm ▸ hj)
    rw [hm] at hi ⊢
    refine Eq.trans (Finset.sum_congr rfl fun j hj => ?_) (hx i hi)
    rw [hf.matrixAt htolerance hi (Finset.mem_range.mp hj)]

theorem factor_reconstructs_two_columns : ∃ lu summary,
    factor [[(0, (ofRat 2 : Exact 0)), (1, ofRat 1)], [(1, ofRat 3), (0, ofRat 5)]]
      (ofRat (1 / 10)) (ofRat (1 / 1000)) = .ok (lu, summary) ∧
    rowsAt lu.toRows 0 1 = 5 ∧ ∀ x ∈ lu.upper.diagonal.toList, 1 / 1000 ≤ |x.value| := by
  have hok : (factor [[(0, (ofRat 2 : Exact 0)), (1, ofRat 1)], [(1, ofRat 3), (0, ofRat 5)]]
      (ofRat (1 / 10)) (ofRat (1 / 1000))).toOption.isSome = true := by decide +kernel
  cases h : factor [[(0, (ofRat 2 : Exact 0)), (1, ofRat 1)], [(1, ofRat 3), (0, ofRat 5)]]
      (ofRat (1 / 10)) (ofRat (1 / 1000)) with
  | error pairs =>
    rw [h] at hok
    exact absurd hok Bool.false_ne_true
  | ok factors =>
    obtain ⟨lu, summary⟩ := factors
    have hspec := factor_reconstructs ⟨by simp [DistinctKeys], by decide⟩
      (show 0 < (ofRat (1 / 1000) : Exact 0).value by norm_num) h
    refine ⟨lu, summary, rfl, ?_, hspec.2.2.2.2.2.2.1⟩
    rw [hspec.2.2.1 0 1 (by simp) (by simp)]
    simp [coefficient]

end LU
end DualSimplex
