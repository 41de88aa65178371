import DualSimplex.Proofs.Factor.EntryCount
import DualSimplex.Proofs.Factor.FactoredBasis

/-!
# Factors that are maintained

Factors come from a factorization or from the identity matrix, and go through basis
changes of which some are refused.  Solving with them leaves them alone.  However they
have come about, their parts fit together, and they know how many entries they have.
-/

namespace DualSimplex
namespace LU

variable {α : Type}

/-- The arrays that are read by step, by label and by position are as long as the matrix. -/
structure Sized (lu : LU α) : Prop where
  rowByStep : lu.rowByStep.size = lu.m
  stepByRow : lu.stepByRow.size = lu.m
  forward : lu.labels.forward.size = lu.m
  backward : lu.labels.backward.size = lu.m
  lowerByStep : lu.lowerByStep.size = lu.m
  lowerByRow : lu.lowerByRow.size = lu.m

theorem sized_ofSteps (steps : List (PivotStep α)) (upperColumns : Array (List (Nat × α))) :
    (ofSteps steps upperColumns).Sized := by
  have hforward : (ofSteps steps upperColumns).labels.forward.size = steps.length :=
    (size_foldl_set ..).trans Array.size_replicate
  have hrows : ∀ (steps : List (PivotStep α)) (lines : Array (List (Nat × α))),
      (lowerRows steps lines).size = lines.size := by
    intro steps
    induction steps with
    | nil => exact fun _ => rfl
    | cons s steps ih => exact fun lines => (ih _).trans (size_scatter ..)
  refine ⟨?_, ?_, hforward, ?_, ?_, ?_⟩
  · exact (List.size_toArray ..).trans (List.length_map ..)
  · exact (size_foldl_set (fun t : PivotStep α × Nat => t.1.row) Prod.snd _ _).trans
      Array.size_replicate
  · exact ((size_foldl_set ..).trans Array.size_replicate).trans hforward
  · exact (List.size_toArray ..).trans (List.length_map ..)
  · exact (hrows ..).trans Array.size_replicate

variable [Scalar α]

/-- The factors after a basis change, which are those before if it is refused. -/
def exchanged (lu : LU α) (position : Nat) (spike : SparseVector α) (pivot tolerance : α) : LU α :=
  match lu.update position spike pivot tolerance with
  | .ok lu' => lu'
  | .error _ => lu

/-- Factors of some matrix after some basis changes.  Nothing is asked of the spikes of these
but what makes them sparse vectors. -/
inductive Maintained : LU α → Prop
  | identity (m : Nat) : Maintained (identity m)
  | factor {columns : List (List (Nat × α))} {threshold tolerance : α} {lu : LU α}
      {summary : FactorSummary α} (hcolumns : SquareColumns columns)
      (h : LU.factor columns threshold tolerance = .ok (lu, summary)) : Maintained lu
  | exchange {lu : LU α} {position : Nat} {spike : SparseVector α} {pivot tolerance : α}
      (h : Maintained lu) (hposition : position < lu.m) (hnodup : spike.support.Nodup)
      (hlt : ∀ i ∈ spike.support, i < lu.m) :
      Maintained (lu.exchanged position spike pivot tolerance)

variable {lu : LU α}

/-! ## One exchange -/

theorem exchanged_cases (lu : LU α) (position : Nat) (spike : SparseVector α)
    (pivot tolerance : α) : lu.exchanged position spike pivot tolerance = lu ∨
      lu.update position spike pivot tolerance = .ok (lu.exchanged position spike pivot tolerance) := by
  unfold exchanged
  cases lu.update position spike pivot tolerance with
  | ok lu' => exact Or.inr rfl
  | error e => exact Or.inl rfl

theorem Counted.update {lu' : LU α} (h : lu.Counted) (hwell : lu.WellFormed) {position : Nat}
    {spike : SparseVector α} {pivot tolerance : α}
    (hupdate : lu.update position spike pivot tolerance = .ok lu') : lu'.Counted := by
  obtain ⟨-, rfl⟩ := eq_of_update_eq_ok hupdate
  exact ⟨h.lower, h.upper.replace hwell.upper.toCopied ..⟩

theorem Sized.update {lu' : LU α} (h : lu.Sized) {position : Nat} {spike : SparseVector α}
    {pivot tolerance : α} (hupdate : lu.update position spike pivot tolerance = .ok lu') :
    lu'.Sized := by
  obtain ⟨-, rfl⟩ := eq_of_update_eq_ok hupdate
  exact ⟨h.rowByStep, h.stepByRow, h.forward, h.backward, h.lowerByStep, h.lowerByRow⟩

/-! ## Any number of exchanges -/

theorem maintained_induction [LawfulScalar α] (h : lu.Maintained) :
    lu.WellFormed ∧ lu.Counted ∧ lu.Sized := by
  have hsteps : ∀ {steps : List (PivotStep α)} {upperColumns : Array (List (Nat × α))},
      CompleteElimination steps upperColumns → (ofSteps steps upperColumns).WellFormed ∧
        (ofSteps steps upperColumns).Counted ∧ (ofSteps steps upperColumns).Sized :=
    fun hcomplete => ⟨wellFormed_ofSteps hcomplete, counted_ofSteps .., sized_ofSteps ..⟩
  induction h with
  | identity m => exact hsteps (completeElimination_identity m)
  | factor hcolumns h =>
    obtain ⟨steps, upperColumns, hcomplete, -, rfl⟩ := exists_of_factor hcolumns h
    exact hsteps hcomplete
  | @exchange lu position spike pivot tolerance _ hposition hnodup hlt ih =>
    obtain ⟨hwell, hcounted, hsized⟩ := ih
    rcases lu.exchanged_cases position spike pivot tolerance with hsame | hupdate
    · rw [hsame]
      exact ⟨hwell, hcounted, hsized⟩
    · exact ⟨hwell.update hposition hnodup hlt hupdate, hcounted.update hwell hupdate,
        hsized.update hupdate⟩

/-- The spike of a solve can be the next column. -/
theorem Maintained.exchange_spike [LawfulScalar α] (h : lu.Maintained) {position : Nat}
    (hposition : position < lu.m) {v : SparseVector α} (hv : v.Listed lu.m) (pivot tolerance : α) :
    (lu.exchanged position (lu.ftran v).spike pivot tolerance).Maintained := by
  have hspike := (maintained_induction h).1.listed_spike hv
  exact h.exchange hposition hspike.nodup fun i hi => hspike.lt hi

/-- How the parts of factors fit together. -/
structure Fitting (lu : LU α) : Prop extends lu.Sized where
  steps : MutuallyInverse lu.m lu.pivotRow lu.stepOf
  positions : MutuallyInverse lu.m lu.labels.apply lu.labels.invert
  /-- What is subtracted from a label is a label of an earlier step. -/
  lower_later : ∀ k, k < lu.m → ∀ t ∈ lu.lowerColumn k, t.1 < lu.m ∧ k < lu.stepOf t.1
  lower_keys : (∀ k, DistinctKeys (lu.lowerColumn k)) ∧ ∀ i, DistinctKeys (lu.lowerRow i)
  mem_lowerRow : ∀ i j x, (j, x) ∈ lu.lowerRow i ↔ j < lu.m ∧ (i, x) ∈ lu.lowerColumn (lu.stepOf j)
  /-- A label has one slot in use, the one that it knows of. -/
  slot_iff : ∀ i, i < lu.m → ∀ s,
    lu.upper.isActive s = true ∧ lu.upper.labelOf s = i ↔ s = lu.upper.slotOf i
  labelOf_lt : ∀ s, lu.upper.isActive s = true → lu.upper.labelOf s < lu.m
  upper_keys : (∀ s, DistinctKeys (lu.upper.column s)) ∧ ∀ i, DistinctKeys (lu.upper.row i)
  mem_upperRow : ∀ i s x, (s, x) ∈ lu.upper.row i ↔ (i, x) ∈ lu.upper.column s
  /-- The entries of a slot in use lie at labels of slots before it. -/
  upper_earlier : ∀ s, lu.upper.isActive s = true → ∀ t ∈ lu.upper.column s,
    t.1 < lu.m ∧ lu.upper.slotOf t.1 < s
  inactive_empty : ∀ s, lu.upper.isActive s = false → lu.upper.column s = []
  /-- The count of the upper triangle is that of the entries in either copy. -/
  upper_count : lu.upper.entryCount = ∑ s ∈ Finset.range lu.upper.slotCount,
      (lu.upper.column s).length ∧
    lu.upper.entryCount = ∑ i ∈ Finset.range lu.m, (lu.upper.row i).length
  lower_count : lu.lowerCount = ∑ k ∈ Finset.range lu.m, (lu.lowerColumn k).length ∧
    lu.lowerCount = ∑ i ∈ Finset.range lu.m, (lu.lowerRow i).length
  /-- A replacement takes nothing off the count that is not in it. -/
  no_underflow : ∀ label, (lu.upper.row label).length ≤ lu.upper.entryCount ∧
    ((lu.upper.eraseRow label).column (lu.upper.slotOf label)).length ≤
      (lu.upper.eraseRow label).entryCount
  /-- The entries of the lower triangle, of the slots in use with their diagonal, and of the
  etas make up the size of the factors. -/
  total : lu.entryCount = (∑ k ∈ Finset.range lu.m, (lu.lowerColumn k).length) +
    (lu.upper.slots.map fun s => (lu.upper.column s).length + 1).sum +
    (lu.etas.map RowEta.size).sum

/-- The parts of maintained factors fit together, and what they count is there. -/
theorem Maintained.fitting [LawfulScalar α] (h : lu.Maintained) : lu.Fitting := by
  obtain ⟨hwell, hcounted, hsized⟩ := maintained_induction h
  have hupper : lu.upper.entryCount = lu.upper.stored := hcounted.upper
  refine { hsized with
    steps := hwell.steps
    positions := hwell.positions
    lower_later := hwell.lower_later
    lower_keys := ⟨fun k => ?_, hwell.lowerRow_keys⟩
    mem_lowerRow := hwell.mem_lowerRow
    slot_iff := fun i hi s => ⟨?_, ?_⟩
    labelOf_lt := hwell.upper.labelOf_lt
    upper_keys := ⟨hwell.upper.column_keys, hwell.upper.row_keys⟩
    mem_upperRow := hwell.upper.mem_row
    upper_earlier := fun s _ t ht =>
      ⟨hwell.upper.label_lt ht, hwell.upper.slotOf_lt_of_mem s t ht⟩
    inactive_empty := fun s hs => List.eq_nil_iff_forall_not_mem.mpr fun t ht => ?_
    upper_count := ⟨hupper, hupper.trans hwell.upper.sum_length_row.symm⟩
    lower_count := ⟨hcounted.lower, hcounted.lower.trans hwell.sum_length_lowerRow.symm⟩
    no_underflow := fun label => ?_
    total := ?_ }
  · by_cases hk : k < lu.m
    · exact hwell.lowerColumn_keys k hk
    · rw [lowerColumn, getD_of_size_le (by rw [hsized.lowerByStep]; omega)]
      exact distinctKeys_nil
  · rintro ⟨hs, rfl⟩
    exact (hwell.upper.slotOf_labelOf s hs).symm
  · rintro rfl
    exact ⟨hwell.upper.isActive_slotOf i hi, hwell.upper.labelOf_slotOf i hi⟩
  · exact absurd ((hwell.upper.isActive_of_mem s t ht).symm.trans hs) Bool.false_ne_true.symm
  · obtain ⟨hrow, herased⟩ := hcounted.upper.eraseRow hwell.upper.toCopied label
    exact ⟨hrow, (herased.turnOff _).1⟩
  · have hdiagonal : (lu.upper.slots.map fun s => (lu.upper.column s).length + 1).sum =
        lu.upper.stored + lu.m := by
      rw [List.sum_map_add, hwell.upper.sum_slots, List.map_const', List.sum_replicate_nat,
        hwell.upper.length_slots, mul_one]
    have hetas : lu.etaCount = (lu.etas.map RowEta.size).sum := List.length_flatMap ..
    rw [entryCount, hdiagonal, hetas, hcounted.lower, hupper]
    omega

/-- The factors of the identity matrix after replacing the first column twice, and after a
third column for its place that is refused. -/
theorem fitting_exchanged_twice :
    let column : List (Nat × Exact 0) → SparseVector (Exact 0) := SparseVector.ofTerms 2
    let lu : LU (Exact 0) := (identity 2).exchanged 0 (column [(1, Exact.ofRat 1),
      (0, Exact.ofRat 2)]) (Exact.ofRat 2) (Exact.ofRat (1 / 1000))
    let lu' := lu.exchanged 0 (column [(1, Exact.ofRat 7), (0, Exact.ofRat 5)])
      (Exact.ofRat (5 / 2)) (Exact.ofRat (1 / 1000))
    let lu'' := lu'.exchanged 0 (column [(1, Exact.ofRat 1)]) (Exact.ofRat 0)
      (Exact.ofRat (1 / 1000))
    lu''.updateCount = 2 ∧ lu''.upper.slots = [1, 3] ∧ lu''.entryCount = 3 ∧ lu''.Fitting := by
  intro column lu lu' lu''
  have hm : lu.m = 2 := by decide +kernel
  have hm' : lu'.m = 2 := by decide +kernel
  have hlu : lu.Maintained :=
    .exchange (.identity 2) (by decide) (by decide +kernel) (by decide +kernel)
  have hlu' : lu'.Maintained :=
    .exchange hlu (hm ▸ by decide) (by decide +kernel) (by rw [hm]; decide +kernel)
  have hlu'' : lu''.Maintained :=
    .exchange hlu' (hm' ▸ by decide) (by decide +kernel) (by rw [hm']; decide +kernel)
  exact ⟨by decide +kernel, by decide +kernel, by decide +kernel, hlu''.fitting⟩

end LU
end DualSimplex
