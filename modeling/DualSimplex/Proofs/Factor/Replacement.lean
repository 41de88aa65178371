import DualSimplex.Proofs.Factor.Reachable

/-!
# The matrix after a replacement

A replacement whose spike comes from the solve for a column puts that column into
the matrix and leaves the others as they are.  The multiples of later rows that the
elimination finds add up to the row that it removes.
-/

namespace DualSimplex

open Scalar Exact

/-- Two computations that come to the same number do not differ. -/
theorem Bound.exceeds_discrepancy {a b : Exact 0} (hvalue : a.value = b.value)
    (hmarked : a.marked = b.marked) {limit : Exact 0} (hlimit : 0 ≤ limit.value) :
    (Bound.discrepancy a b).exceeds limit = false := by
  have hnot : ∀ {x : Exact 0}, x.value = 0 → ¬ limit < x := by
    intro x hx hlt
    have hlt : limit.value < x.value := hlt
    linarith
  unfold Bound.discrepancy
  simp only
  split
  · rw [if_pos (beq_iff.mpr (eq_iff.mpr ⟨hvalue, hmarked⟩))]
    exact decide_eq_false (hnot rfl)
  · refine decide_eq_false (hnot ?_)
    rw [value_div, value_magnitude, value_sub, hvalue, sub_self, Exact.abs_eq, abs_zero, zero_div]

namespace LU

variable {lu : LU (Exact 0)}

/-! ## Eliminating a row -/

/-- The elimination of a label's row before it comes to slot `k`.  In the slots
before, the multiples make up for the row. -/
structure Eliminating (lu : LU (Exact 0)) (label k : Nat) (e : RowElimination (Exact 0)) :
    Prop where
  size_work : e.work.size = lu.upper.slotCount
  work_later : ∀ s, ¬ (lu.upper.isActive s = true ∧ lu.upper.slotOf label < s) →
    arrayAt e.work s = 0
  row : ∀ s, lu.upper.isActive s = true → coefficient (lu.upper.column s) label =
    (if s < k then 0 else arrayAt e.work s) +
      (RowEta.mk e.multipliers label).weigh fun i => lu.upperTriangle.entry i (lu.upper.labelOf s)

section Elimination

variable (h : lu.Solvable) {label : Nat}

include h

theorem Solvable.entry_labelOf {s : Nat} (hs : lu.upper.isActive s = true) (i : Nat) :
    lu.upperTriangle.entry i (lu.upper.labelOf s) =
      (if i = lu.upper.labelOf s then (lu.upper.diagonalAt s).value else 0) +
        coefficient (lu.upper.column s) i := by
  have hslot : lu.upperTriangle.rank (lu.upper.labelOf s) = s := h.upper.slotOf_labelOf s hs
  rw [Triangle.entry, Triangle.entryBy, hslot]
  rfl

theorem Solvable.coefficient_row (i s : Nat) :
    coefficient (lu.upper.row i) s = coefficient (lu.upper.column s) i :=
  coefficient_congr (h.upper.row_keys i) (h.upper.column_keys s) fun x => h.upper.mem_row i s x

/-- A slot has no entry at a label whose slot does not come before it. -/
theorem Solvable.coefficient_column_eq_zero {s i : Nat} (hi : s ≤ lu.upper.slotOf i) :
    coefficient (lu.upper.column s) i = 0 := by
  refine coefficient_of_notMem fun t ht he => ?_
  have hlt := h.upper.slotOf_lt_of_mem s t ht
  rw [he] at hlt
  omega

theorem Solvable.eliminating_start : lu.Eliminating label 0 {
    work := (lu.upper.row label).foldl (fun w t => w.setIfInBounds t.1 t.2)
      (Array.replicate lu.upper.slotCount 0)
    multipliers := [] } := by
  have hzero : ∀ s, arrayAt (Array.replicate lu.upper.slotCount (0 : Exact 0)) s = 0 := by
    intro s
    rw [arrayAt, getD_replicate, ite_self]
    rfl
  have hwork : ∀ s, arrayAt ((lu.upper.row label).foldl (fun w t => w.setIfInBounds t.1 t.2)
      (Array.replicate lu.upper.slotCount 0)) s = coefficient (lu.upper.column s) label := by
    intro s
    rw [← h.coefficient_row]
    by_cases hs : s < lu.upper.slotCount
    · rw [arrayAt_foldl_set (h.upper.row_keys label) (fun t _ => hzero t.1)
        (by rw [Array.size_replicate]; exact hs), hzero, zero_add]
    · rw [arrayAt, getD_of_size_le, coefficient_of_notMem]
      · rfl
      · rintro ⟨r, x⟩ ht rfl
        exact hs (UpperTriangle.slot_lt ((h.upper.mem_row _ _ _).mp ht))
      · rw [size_foldl_set Prod.fst Prod.snd, Array.size_replicate]
        omega
  refine ⟨?_, fun s hs => ?_, fun s hs => ?_⟩
  · exact (size_foldl_set Prod.fst Prod.snd _ _).trans Array.size_replicate
  · rw [hwork]
    refine coefficient_of_notMem fun t ht he => hs ⟨h.upper.isActive_of_mem s t ht, ?_⟩
    rw [← he]
    exact h.upper.slotOf_lt_of_mem s t ht
  · rw [hwork, if_neg (Nat.not_lt_zero s)]
    exact (add_zero _).symm

theorem Solvable.arrayAt_subtract {work : Array (Exact 0)} (hsize : work.size = lu.upper.slotCount)
    (i : Nat) (multiplier : Exact 0) (s : Nat) :
    arrayAt ((lu.upper.row i).foldl (fun w t => w.modify t.1 (· - multiplier * t.2)) work) s =
      arrayAt work s - coefficient (lu.upper.column s) i * multiplier.value := by
  have hlt : ∀ t ∈ lu.upper.row i, t.1 < work.size := by
    rintro ⟨r, x⟩ ht
    rw [hsize]
    exact UpperTriangle.slot_lt ((h.upper.mem_row _ _ _).mp ht)
  have hupdate : ∀ (t : Nat × Exact 0) (x : Exact 0),
      (x - multiplier * t.2).value = x.value + t.2.value * -multiplier.value := by
    intro t x
    rw [value_sub, value_mul]
    ring
  rw [arrayAt_foldl_update hupdate hlt, h.coefficient_row]
  ring

/-- A slot whose work value is not zero has its diagonal value in a later row, so that
a multiple of that row takes it off. -/
theorem Solvable.eliminating_subtract {k : Nat} {e : RowElimination (Exact 0)}
    (he : lu.Eliminating label k e) (hx : arrayAt e.work k ≠ 0) {multiplier : Exact 0}
    (hmultiplier : multiplier.value = arrayAt e.work k / (lu.upper.diagonalAt k).value) :
    lu.Eliminating label (k + 1) {
      work := (lu.upper.row (lu.upper.labelOf k)).foldl
        (fun w t => w.modify t.1 (· - multiplier * t.2)) e.work
      multipliers := e.multipliers ++ [(lu.upper.labelOf k, multiplier)] } := by
  have hk : lu.upper.isActive k = true ∧ lu.upper.slotOf label < k := by
    by_contra hnot
    exact hx (he.work_later k hnot)
  have hslot := h.upper.slotOf_labelOf k hk.1
  have hdiagonal := h.diagonal k hk.1
  refine ⟨?_, fun s hs => ?_, fun s hs => ?_⟩
  · exact (size_foldl_modify Prod.fst _ _ _).trans he.size_work
  · rw [h.arrayAt_subtract he.size_work, he.work_later s hs, zero_sub, neg_eq_zero]
    refine mul_eq_zero_of_left (coefficient_of_notMem fun t ht hlabel => hs ?_) _
    have hlater := h.upper.slotOf_lt_of_mem s t ht
    rw [hlabel, hslot] at hlater
    exact ⟨h.upper.isActive_of_mem s t ht, Nat.lt_trans hk.2 hlater⟩
  · have hlabels : s ≠ k → lu.upper.labelOf k ≠ lu.upper.labelOf s := by
      intro hne heq
      rw [heq, h.upper.slotOf_labelOf s hs] at hslot
      exact hne hslot
    rw [he.row s hs, RowEta.weigh_concat, h.entry_labelOf hs (lu.upper.labelOf k),
      h.arrayAt_subtract he.size_work]
    -- the row taken off ends at slot `k`, where it has its diagonal value
    rcases Nat.lt_trichotomy s k with hlt | heq | hgt
    · rw [if_pos hlt, if_pos (by omega), if_neg (hlabels (by omega)),
        h.coefficient_column_eq_zero (by omega)]
      ring
    · subst heq
      rw [if_neg (by omega), if_pos (by omega), if_pos rfl,
        h.coefficient_column_eq_zero (by omega), hmultiplier]
      field_simp
      ring
    · rw [if_neg (by omega), if_neg (by omega), if_neg (hlabels (by omega))]
      ring

theorem Solvable.eliminating_step {k : Nat} {e : RowElimination (Exact 0)}
    (he : lu.Eliminating label k e) :
    lu.Eliminating label (k + 1) (RowElimination.step lu.upper e k) := by
  rw [RowElimination.step]
  by_cases htiny : isTiny (e.work.getD k 0) = true
  · rw [if_pos htiny]
    have hwork : arrayAt e.work k = 0 := isTiny_zero_cutoff_iff.mp htiny
    refine { he with row := fun s hs => (he.row s hs).trans ?_ }
    by_cases hsk : s = k
    · rw [hsk, hwork, ite_self, ite_self]
    · have hnext : s < k + 1 ↔ s < k := by omega
      simp only [hnext]
  · rw [if_neg htiny]
    have hx : arrayAt e.work k ≠ 0 := fun hzero => htiny (isTiny_zero_cutoff_iff.mpr hzero)
    exact h.eliminating_subtract he hx (value_div ..)

/-- The multiples of other rows add up to the row that they take off, which is that of
the label off its diagonal. -/
theorem Solvable.weigh_eta {j : Nat} (hj : j < lu.m) :
    (lu.eta label).weigh (fun i => lu.upperTriangle.entry i j) =
      coefficient (lu.upper.column (lu.upper.slotOf j)) label := by
  have hrun : ∀ k, lu.Eliminating label k ((List.range k).foldl (RowElimination.step lu.upper) {
      work := (lu.upper.row label).foldl (fun w t => w.setIfInBounds t.1 t.2)
        (Array.replicate lu.upper.slotCount 0)
      multipliers := [] }) := by
    intro k
    induction k with
    | zero => exact h.eliminating_start
    | succ k ih =>
      rw [List.range_succ, List.foldl_append]
      exact h.eliminating_step ih
  have hactive := h.upper.isActive_slotOf j hj
  have hrow := (hrun lu.upper.slotCount).row _ hactive
  rw [h.upper.labelOf_slotOf j hj, if_pos (h.upper.lt_slotCount hactive), zero_add] at hrow
  exact hrow.symm

theorem Solvable.weigh_eta_of_ne {j : Nat} (hj : j < lu.m) (hne : j ≠ label) :
    (lu.eta label).weigh (fun i => lu.upperTriangle.entry i j) =
      lu.upperTriangle.entry label j := by
  have hentry := h.entry_labelOf (h.upper.isActive_slotOf j hj) label
  rw [h.upper.labelOf_slotOf j hj, if_neg (Ne.symm hne), zero_add] at hentry
  rw [h.weigh_eta hj, hentry]

theorem Solvable.weigh_eta_self (hlabel : label < lu.m) :
    (lu.eta label).weigh (fun i => lu.upperTriangle.entry i label) = 0 := by
  rw [h.weigh_eta hlabel]
  exact h.coefficient_column_eq_zero (Nat.le_refl _)

end Elimination

/-! ## The replaced column -/

section Replace

variable {lu' : LU (Exact 0)} (h : lu.Solvable) (h' : lu'.WellFormed) {label : Nat}
  (hlabel : label < lu.m) {diagonal : Exact 0} {line : List (Nat × Exact 0)}
  (hupper : lu'.upper = lu.upper.replace label diagonal line)

include h h' hlabel hupper

/-- Only the row of the label changes in a column that stays. -/
theorem Solvable.entry_replace {j : Nat} (hj : j < lu.m) (hne : j ≠ label) (i : Nat) :
    lu'.upperTriangle.entry i j = if i = label then 0 else lu.upperTriangle.entry i j := by
  have hslot : lu'.upper.slotOf j = lu.upper.slotOf j := by
    rw [hupper, UpperTriangle.slotOf_replace h.upper _ _ _ hlabel, if_neg (Ne.symm hne)]
  have hlt := h.upper.lt_slotCount (h.upper.isActive_slotOf j hj)
  have hslots := h.upper.slotOf_ne hj hlabel hne
  have hmem : ∀ t, t ∈ lu'.upper.column (lu.upper.slotOf j) ↔
      t ∈ lu.upper.column (lu.upper.slotOf j) ∧ t.1 ≠ label := by
    intro t
    rw [hupper, UpperTriangle.mem_column_replace h.upper, if_neg (Nat.ne_of_lt hlt)]
    exact ⟨fun ht => ⟨ht.1, ht.2.2⟩, fun ht => ⟨ht.1, hslots, ht.2⟩⟩
  have hdiagonal : lu'.upper.diagonalAt (lu.upper.slotOf j) =
      lu.upper.diagonalAt (lu.upper.slotOf j) := by
    rw [hupper, UpperTriangle.diagonalAt_replace h.upper, if_neg (Nat.ne_of_lt hlt)]
  show (if i = j then (lu'.upper.diagonalAt (lu'.upper.slotOf j)).value else 0) +
    coefficient (lu'.upper.column (lu'.upper.slotOf j)) i = _
  rw [hslot, hdiagonal]
  by_cases hi : i = label
  · rw [if_pos hi, if_neg fun hij => hne (hij.symm.trans hi), zero_add]
    exact coefficient_of_notMem fun t ht he => ((hmem t).mp ht).2 (he.trans hi)
  · rw [if_neg hi]
    refine congrArg _
      (coefficient_congr (h'.upper.column_keys _) (h.upper.column_keys _) fun x => ?_)
    rw [hmem]
    exact ⟨And.left, fun hx => ⟨hx, hi⟩⟩

theorem Solvable.entry_replace_self (hkeys : DistinctKeys line) (hline : ∀ t ∈ line, t.1 ≠ label)
    (i : Nat) : lu'.upperTriangle.entry i label =
      if i = label then diagonal.value else coefficient line i := by
  have hslot : lu'.upper.slotOf label = lu.upper.slotCount := by
    rw [hupper, UpperTriangle.slotOf_replace h.upper _ _ _ hlabel, if_pos rfl]
  have hdiagonal : lu'.upper.diagonalAt lu.upper.slotCount = diagonal := by
    rw [hupper, UpperTriangle.diagonalAt_replace h.upper, if_pos rfl]
  have hcolumn : coefficient (lu'.upper.column lu.upper.slotCount) i = coefficient line i := by
    refine coefficient_congr (h'.upper.column_keys _) hkeys fun x => ?_
    rw [hupper, UpperTriangle.mem_column_replace h.upper, if_pos rfl]
  show (if i = label then (lu'.upper.diagonalAt (lu'.upper.slotOf label)).value else 0) +
    coefficient (lu'.upper.column (lu'.upper.slotOf label)) i = _
  rw [hslot, hdiagonal, hcolumn]
  by_cases hi : i = label
  · rw [if_pos hi, if_pos hi, hi, coefficient_of_notMem hline, add_zero]
  · rw [if_neg hi, if_neg hi, zero_add]

/-- The elimination is undone in a column that stays. -/
theorem Solvable.undo_entry_replace {j : Nat} (hj : j < lu.m) (hne : j ≠ label) (i : Nat) :
    (lu.eta label).undo (fun i => lu'.upperTriangle.entry i j) i =
      lu.upperTriangle.entry i j := by
  have hentry := h.entry_replace h' hlabel hupper hj hne
  have hweigh : (lu.eta label).weigh (fun i => lu'.upperTriangle.entry i j) =
      (lu.eta label).weigh fun i => lu.upperTriangle.entry i j :=
    RowEta.weigh_congr fun t ht => by
      rw [hentry, if_neg (mem_rowMultipliers h.toWellFormed ht).2]
  rw [RowEta.undo, hweigh, hentry, h.weigh_eta_of_ne hj hne]
  show (if i = label then _ else _) = _
  by_cases hi : i = label
  · rw [if_pos hi, if_pos hi, hi, zero_add]
  · rw [if_neg hi, if_neg hi]

end Replace

theorem coefficient_spikeColumn {spike : SparseVector (Exact 0)} {m : Nat} (hspike : spike.Listed m)
    {label i : Nat} (hi : i ≠ label) :
    coefficient (spikeColumn label spike) i = spike.valueAt i := by
  by_cases hzero : spike.valueAt i = 0
  · rw [hzero]
    refine coefficient_of_notMem fun t ht he => ?_
    obtain ⟨ht, hsignificant⟩ := List.mem_filter.mp ht
    obtain ⟨k, -, rfl⟩ := List.mem_map.mp ht
    have he : k = i := he
    rw [he, isSignificant_eq_false.mpr hzero, Bool.and_false] at hsignificant
    exact Bool.false_ne_true hsignificant
  · have hmem : i ∈ spike.support := by
      by_contra hout
      exact hzero (value_eq_zero_of_beq (hspike.beq_zero hout))
    refine coefficient_of_mem (distinctKeys_spikeColumn hspike.nodup label)
      (List.mem_filter.mpr ⟨List.mem_map.mpr ⟨i, hmem, rfl⟩, ?_⟩)
    have hsignificant : isSignificant (spike.get i) = true := by
      by_contra hnot
      exact hzero (isSignificant_eq_false.mp (Bool.not_eq_true _ ▸ hnot))
    rw [hsignificant, Bool.and_true]
    exact bne_iff_ne.mpr hi

/-- The spike comes back from the column that it was made into. -/
theorem Solvable.undo_entry_replace_self {lu' : LU (Exact 0)} (h : lu.Solvable)
    (h' : lu'.WellFormed) {label : Nat} (hlabel : label < lu.m) {spike : SparseVector (Exact 0)}
    (hspike : spike.Listed lu.m) (hupper : lu'.upper = lu.upper.replace label
      ((lu.eta label).pivotValue spike.values) (spikeColumn label spike)) (i : Nat) :
    (lu.eta label).undo (fun i => lu'.upperTriangle.entry i label) i = spike.valueAt i := by
  have hentry : ∀ i, lu'.upperTriangle.entry i label =
      if i = label then ((lu.eta label).pivotValue spike.values).value else spike.valueAt i := by
    intro i
    rw [h.entry_replace_self h' hlabel hupper (distinctKeys_spikeColumn hspike.nodup label)
      fun t ht => (of_mem_spikeColumn ht).2]
    by_cases hi : i = label
    · rw [if_pos hi, if_pos hi]
    · rw [if_neg hi, if_neg hi, coefficient_spikeColumn hspike hi]
  have hweigh : (lu.eta label).weigh (fun i => lu'.upperTriangle.entry i label) =
      (lu.eta label).weigh spike.valueAt :=
    RowEta.weigh_congr fun t ht => by
      rw [hentry, if_neg (mem_rowMultipliers h.toWellFormed ht).2]
  rw [RowEta.undo, hweigh, hentry]
  show (if i = label then _ else _) = _
  by_cases hi : i = label
  · rw [if_pos hi, if_pos hi, RowEta.pivotValue, value_sub, RowEta.value_dot, hi]
    exact sub_add_cancel _ _
  · rw [if_neg hi, if_neg hi]

/-- After a replacement the matrix has the new column at the position, and the
old ones elsewhere. -/
theorem Solvable.matrixAt_update {lu' : LU (Exact 0)} (h : lu.Solvable) {position : Nat}
    (hposition : position < lu.m) {spike : SparseVector (Exact 0)} (hspike : spike.Listed lu.m)
    {pivot tolerance : Exact 0} (hupdate : lu.update position spike pivot tolerance = .ok lu')
    {i p : Nat} (hi : i < lu.m) (hp : p < lu.m) : lu'.matrixAt i p =
      if p = position then lu.restore spike.valueAt i else lu.matrixAt i p := by
  have h' := h.toWellFormed.update hposition hspike.nodup (fun i hi => hspike.lt hi) hupdate
  obtain ⟨-, he⟩ := eq_of_update_eq_ok hupdate
  have hm : lu'.m = lu.m := by rw [he]
  have hlabels : lu'.labels = lu.labels := by rw [he]
  have hetas : lu'.etas = lu.etas ++ [lu.eta (lu.labels.apply position)] := by rw [he]
  have hupper : lu'.upper = lu.upper.replace (lu.labels.apply position)
      ((lu.eta (lu.labels.apply position)).pivotValue spike.values)
      (spikeColumn (lu.labels.apply position) spike) := by rw [he]
  have hlower : lu'.lowerTriangle = lu.lowerTriangle := by rw [he]; rfl
  clear he
  have hlabel := (h.positions.left position hposition).1
  have hrestore : ∀ f, lu'.restore f i =
      lu.restore ((lu.eta (lu.labels.apply position)).undo f) i := by
    intro f
    unfold restore
    rw [hm, hlower, hetas]
    simp only [List.foldr_append, List.foldr_cons, List.foldr_nil]
  have hcolumn := h'.matrixAt_eq_restore (hm.symm ▸ hp) (hm.symm ▸ hi)
  rw [hcolumn, hlabels, hrestore]
  by_cases hposition' : p = position
  · rw [if_pos hposition', hposition']
    exact restore_congr h.within
      (fun k _ => h.undo_entry_replace_self h' hlabel hspike hupper k) i
  · rw [if_neg hposition', h.matrixAt_eq_restore hp hi]
    have hne : lu.labels.apply p ≠ lu.labels.apply position :=
      fun he => hposition' (h.positions.inj hp hposition he)
    exact restore_congr h.within
      (fun k _ => h.undo_entry_replace h' hlabel hupper (h.positions.left p hp).1 hne k) i

/-! ## Replacing by a column that was solved for -/

/-- The diagonal value of the upper triangle in the row of a position's label. -/
def diagonalOf (lu : LU (Exact 0)) (position : Nat) : Exact 0 :=
  lu.upper.diagonalAt (lu.upper.slotOf (lu.labels.apply position))

/-- What the elimination leaves of a spike on the diagonal.  The rest of the label's
row and of the spike cancel, so that the old diagonal value is left, as often as
the solution has it. -/
theorem Solvable.value_pivotValue (h : lu.Solvable) {position : Nat} (hposition : position < lu.m)
    {spike : SparseVector (Exact 0)} {x : Nat → ℚ} (hx : ∀ i, i < lu.m →
      ∑ p ∈ Finset.range lu.m, x p * lu.upperTriangle.entry i (lu.labels.apply p) =
        spike.valueAt i) :
    ((lu.eta (lu.labels.apply position)).pivotValue spike.values).value =
      (lu.diagonalOf position).value * x position := by
  have hlabel := (h.positions.left position hposition).1
  have hslot := h.upper.isActive_slotOf _ hlabel
  have hwithin : ∀ t ∈ (lu.eta (lu.labels.apply position)).values, t.1 < lu.m :=
    fun t ht => (mem_rowMultipliers h.toWellFormed ht).1
  have hweigh : (lu.eta (lu.labels.apply position)).weigh spike.valueAt =
      ∑ p ∈ Finset.range lu.m, x p * (lu.eta (lu.labels.apply position)).weigh
        fun i => lu.upperTriangle.entry i (lu.labels.apply p) := by
    rw [← RowEta.weigh_sum]
    exact RowEta.weigh_congr fun t ht => (hx t.1 (hwithin t ht)).symm
  have hdiagonal : lu.upperTriangle.entry (lu.labels.apply position) (lu.labels.apply position) =
      (lu.diagonalOf position).value := by
    have hentry := h.entry_labelOf hslot (lu.labels.apply position)
    rw [h.upper.labelOf_slotOf _ hlabel, if_pos rfl,
      h.coefficient_column_eq_zero (Nat.le_refl _), add_zero] at hentry
    exact hentry
  have hterm : ∀ p ∈ Finset.range lu.m,
      x p * lu.upperTriangle.entry (lu.labels.apply position) (lu.labels.apply p) -
        x p * ((lu.eta (lu.labels.apply position)).weigh
          fun i => lu.upperTriangle.entry i (lu.labels.apply p)) =
      if p = position then (lu.diagonalOf position).value * x position else 0 := by
    intro p hp
    have hp := Finset.mem_range.mp hp
    -- off the position the multiples of the rows make up for the row of the label
    by_cases he : p = position
    · rw [if_pos he, he, h.weigh_eta_self hlabel, hdiagonal, mul_zero, sub_zero, mul_comm]
    · have hne : lu.labels.apply p ≠ lu.labels.apply position :=
        fun hsame => he (h.positions.inj hp hposition hsame)
      rw [if_neg he, h.weigh_eta_of_ne (h.positions.left p hp).1 hne, sub_self]
  calc ((lu.eta (lu.labels.apply position)).pivotValue spike.values).value
      = spike.valueAt (lu.labels.apply position) -
          (lu.eta (lu.labels.apply position)).weigh spike.valueAt := by
        rw [RowEta.pivotValue, value_sub, RowEta.value_dot]
        rfl
    _ = ∑ p ∈ Finset.range lu.m,
          if p = position then (lu.diagonalOf position).value * x position else 0 := by
        rw [hweigh, ← hx _ hlabel, ← Finset.sum_sub_distrib]
        exact Finset.sum_congr rfl hterm
    _ = (lu.diagonalOf position).value * x position := by
        rw [Finset.sum_ite_eq', if_pos (Finset.mem_range.mpr hposition)]

/-- How a replacement ends if its new diagonal value is the expected one. -/
theorem update_eq {position : Nat} {spike : SparseVector (Exact 0)} {pivot : Exact 0}
    (tolerance : Exact 0)
    (hexpected : ((lu.eta (lu.labels.apply position)).pivotValue spike.values).value =
      (lu.diagonalOf position).value * pivot.value) :
    lu.update position spike pivot tolerance =
      if |(lu.diagonalOf position).value * pivot.value| < tolerance.value then
        .error (.singular ((lu.eta (lu.labels.apply position)).pivotValue spike.values))
      else .ok { lu with
        upper := lu.upper.replace (lu.labels.apply position)
          ((lu.eta (lu.labels.apply position)).pivotValue spike.values)
          (spikeColumn (lu.labels.apply position) spike)
        etas := lu.etas ++ [lu.eta (lu.labels.apply position)] } := by
  have hagree : (Bound.discrepancy ((lu.eta (lu.labels.apply position)).pivotValue spike.values)
      (lu.upper.diagonalAt (lu.upper.slotOf (lu.labels.apply position)) * pivot)).exceeds
        diagonalAgreement = false := by
    refine Bound.exceeds_discrepancy hexpected ?_ (by norm_num : (0 : ℚ) ≤ 1e-6)
    show false = false
    rfl
  have hsmall :
      magnitude ((lu.eta (lu.labels.apply position)).pivotValue spike.values) < tolerance ↔
        |(lu.diagonalOf position).value * pivot.value| < tolerance.value := by
    rw [lt_iff, value_magnitude, Exact.abs_eq, hexpected]
  unfold update
  simp only
  by_cases hlt : |(lu.diagonalOf position).value * pivot.value| < tolerance.value
  · rw [if_pos hlt]
    exact if_pos (hsmall.mpr hlt)
  · rw [if_neg hlt]
    refine (if_neg fun hc => hlt (hsmall.mp hc)).trans ?_
    exact if_neg fun hc => Bool.false_ne_true (hagree.symm.trans hc)

theorem Solvable.diagonalOf_update {lu' : LU (Exact 0)} (h : lu.Solvable) {position : Nat}
    (hposition : position < lu.m) {spike : SparseVector (Exact 0)} {pivot tolerance : Exact 0}
    (hupdate : lu.update position spike pivot tolerance = .ok lu') : lu'.m = lu.m ∧
    lu'.diagonalOf position = (lu.eta (lu.labels.apply position)).pivotValue spike.values := by
  have hlabel := (h.positions.left position hposition).1
  rw [(eq_of_update_eq_ok hupdate).2]
  refine ⟨rfl, ?_⟩
  rw [diagonalOf, UpperTriangle.slotOf_replace h.upper _ _ _ hlabel, if_pos rfl,
    UpperTriangle.diagonalAt_replace h.upper, if_pos rfl]

/-- After any number of replacements, take the spike of the solve for a column `a` and
the solution `x` at a position.  The new diagonal value is the old one times that of
the solution.  A replacement fails if and only if this is too small, and otherwise
it puts the column into the matrix and leaves the others as they are. -/
theorem Reachable.replaces_column {lu : LU (Exact 0)} (h : lu.Reachable)
    {a : SparseVector (Exact 0)} (ha : a.Listed lu.m) {x : Nat → ℚ} (hx : ∀ i, i < lu.m →
      ∑ p ∈ Finset.range lu.m, rowsAt lu.toRows i p * x p = a.valueAt i)
    {position : Nat} (hposition : position < lu.m) {pivot : Exact 0}
    (hpivot : pivot.value = x position) (tolerance : Exact 0) :
    match lu.update position (lu.ftran a).spike pivot tolerance with
    | .error (.unstable _ _) => False
    | .error (.singular diagonal) =>
      diagonal.value = (lu.diagonalOf position).value * x position ∧
        |(lu.diagonalOf position).value * x position| < tolerance.value
    | .ok lu' =>
      (lu'.diagonalOf position).value = (lu.diagonalOf position).value * x position ∧
        tolerance.value ≤ |(lu.diagonalOf position).value * x position| ∧ lu'.m = lu.m ∧
        ∀ i p, i < lu.m → p < lu.m →
          rowsAt lu'.toRows i p = if p = position then a.valueAt i else rowsAt lu.toRows i p := by
  have hs := h.solvable
  have hsolution : x position = (lu.ftran a).solution.valueAt position := by
    refine hs.ftran_unique ha (fun i hi => ?_) hposition
    rw [← hx i hi]
    exact Finset.sum_congr rfl fun p hp => by rw [rowsAt_toRows lu hi (Finset.mem_range.mp hp)]
  have hdiagonal : ((lu.eta (lu.labels.apply position)).pivotValue
      (lu.ftran a).spike.values).value = (lu.diagonalOf position).value * x position := by
    rw [hsolution]
    exact hs.value_pivotValue hposition (hs.sum_solution_mul_upper ha).2
  have hupdate := update_eq tolerance (hpivot.symm ▸ hdiagonal)
  rw [hpivot] at hupdate
  by_cases hlt : |(lu.diagonalOf position).value * x position| < tolerance.value
  · rw [hupdate, if_pos hlt]
    exact ⟨hdiagonal, hlt⟩
  · obtain ⟨lu', hok⟩ : ∃ lu', lu.update position (lu.ftran a).spike pivot tolerance = .ok lu' :=
      ⟨_, hupdate.trans (if_neg hlt)⟩
    obtain ⟨hm, hnew⟩ := hs.diagonalOf_update hposition hok
    rw [hok]
    refine ⟨by rw [hnew, hdiagonal], not_lt.mp hlt, hm, fun i p hi hp => ?_⟩
    rw [rowsAt_toRows lu' (hm.symm ▸ hi) (hm.symm ▸ hp), rowsAt_toRows lu hi hp,
      hs.matrixAt_update hposition (hs.listed_spike ha) hok hi hp, hs.restore_spike ha hi]

/-- The column `(2, 1)` takes the first place in the identity matrix. -/
theorem replaces_column_identity : ∃ lu : LU (Exact 0),
    (identity 2).update 0 ((identity 2).ftran (SparseVector.ofTerms 2 [(1, 1), (0, ofRat 2)])).spike
      (ofRat 2) (ofRat (1 / 1000)) = .ok lu ∧ (lu.diagonalOf 0).value = 2 ∧
    rowsAt lu.toRows 0 0 = 2 ∧ rowsAt lu.toRows 1 0 = 1 ∧ rowsAt lu.toRows 1 1 = 1 := by
  have hlisted : (SparseVector.ofTerms 2 [(1, 1), (0, (ofRat 2 : Exact 0))]).Listed 2 :=
    (SparseVector.listed_zero 2 _).addAll (by simp)
  have hx : ∀ i, i < 2 → ∑ p ∈ Finset.range 2, rowsAt (identity 2 : LU (Exact 0)).toRows i p *
      (if p = 0 then 2 else 1) =
        (SparseVector.ofTerms 2 [(1, 1), (0, (ofRat 2 : Exact 0))]).valueAt i := by decide +kernel
  have hold : ((identity 2 : LU (Exact 0)).diagonalOf 0).value = 1 := by decide +kernel
  have hpivot : (ofRat 2 : Exact 0).value = if 0 = 0 then 2 else 1 := rfl
  have hspec := Reachable.replaces_column (.identity 2) hlisted hx (by decide) hpivot
    (ofRat (1 / 1000))
  rw [hold] at hspec
  cases h : (identity 2 : LU (Exact 0)).update 0
      ((identity 2).ftran (SparseVector.ofTerms 2 [(1, 1), (0, ofRat 2)])).spike
      (ofRat 2) (ofRat (1 / 1000)) with
  | error e =>
    rw [h] at hspec
    cases e with
    | unstable diagonal expected => exact hspec.elim
    | singular diagonal => exact absurd hspec.2 (by norm_num)
  | ok lu =>
    rw [h] at hspec
    obtain ⟨hdiagonal, -, -, hrows⟩ := hspec
    refine ⟨lu, rfl, hdiagonal.trans (by norm_num), (hrows 0 0 (by decide) (by decide)).trans ?_,
      (hrows 1 0 (by decide) (by decide)).trans ?_, (hrows 1 1 (by decide) (by decide)).trans ?_⟩
    · decide +kernel
    · decide +kernel
    · decide +kernel

end LU
end DualSimplex
