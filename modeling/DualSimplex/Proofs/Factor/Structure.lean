import DualSimplex.Factor.Factoring
import DualSimplex.Factor.Replacement
import DualSimplex.Proofs.Factor.UpperTriangle
import DualSimplex.Proofs.Sparse

/-!
# Well-formed factors

The factors of a matrix are well formed if steps and labels, and positions and
labels, correspond to each other, if the lower triangle subtracts a label only
from those of later steps, and if its two copies agree.  A complete elimination
gives well-formed factors, and replacing a column keeps them.
-/

namespace DualSimplex

variable {α : Type}

/-- Two maps of the numbers below `m` that undo each other. -/
structure MutuallyInverse (m : Nat) (f g : Nat → Nat) : Prop where
  left : ∀ i, i < m → f i < m ∧ g (f i) = i
  right : ∀ i, i < m → g i < m ∧ f (g i) = i

/-- A map with a left inverse goes through all numbers below `m`. -/
theorem MutuallyInverse.of_left {m : Nat} {f g : Nat → Nat}
    (h : ∀ i, i < m → f i < m ∧ g (f i) = i) : MutuallyInverse m f g := by
  refine ⟨h, fun i hi => ?_⟩
  have hnodup : ((List.range m).map f).Nodup := by
    refine List.Nodup.map_on (fun x hx y hy hxy => ?_) List.nodup_range
    rw [← (h x (List.mem_range.mp hx)).2, hxy, (h y (List.mem_range.mp hy)).2]
  have hmem : i ∈ (List.range m).map f := by
    refine mem_of_nodup_of_lt hnodup (fun x hx => ?_) (by simp) hi
    obtain ⟨k, hk, rfl⟩ := List.mem_map.mp hx
    exact (h k (List.mem_range.mp hk)).1
  obtain ⟨k, hk, rfl⟩ := List.mem_map.mp hmem
  have hk := List.mem_range.mp hk
  rw [(h k hk).2]
  exact ⟨hk, rfl⟩

theorem MutuallyInverse.symm {m : Nat} {f g : Nat → Nat} (h : MutuallyInverse m f g) :
    MutuallyInverse m g f :=
  ⟨h.right, h.left⟩

theorem MutuallyInverse.inj {m : Nat} {f g : Nat → Nat} (h : MutuallyInverse m f g) {i j : Nat}
    (hi : i < m) (hj : j < m) (hij : f i = f j) : i = j := by
  rw [← (h.left i hi).2, hij, (h.left j hj).2]

/-! ## Sequences of pivots -/

/-- The steps of an elimination of a square matrix, for different rows and
different columns.  A step subtracts from rows without a step so far, and the
column of the upper factor has entries in rows with a step before. -/
structure PivotSequence (m : Nat) (steps : List (PivotStep α))
    (upperColumns : Array (List (Nat × α))) : Prop where
  rows_nodup : (steps.map PivotStep.row).Nodup
  row_lt : ∀ s ∈ steps, s.row < m
  columns_nodup : (steps.map PivotStep.column).Nodup
  column_lt : ∀ s ∈ steps, s.column < m
  lower_keys : ∀ s ∈ steps, DistinctKeys s.lowerColumn
  lower_later : ∀ k (hk : k < steps.length), ∀ t ∈ steps[k].lowerColumn,
    t.1 < m ∧ ∀ j (hj : j < steps.length), j ≤ k → steps[j].row ≠ t.1
  upper_keys : ∀ j, DistinctKeys (upperColumns.getD j [])
  upper_earlier : ∀ k (hk : k < steps.length), ∀ t ∈ upperColumns.getD steps[k].column [],
    ∃ j, ∃ hj : j < k, steps[j].row = t.1

/-- A sequence with a step for every row and every column. -/
abbrev CompleteElimination (steps : List (PivotStep α))
    (upperColumns : Array (List (Nat × α))) : Prop :=
  PivotSequence steps.length steps upperColumns

namespace UpperTriangle

/-- A slot to be appended, as label, diagonal and column. -/
abbrev Slot (α : Type) := Nat × α × List (Nat × α)

/-- The triangle of slots that are appended one by one. -/
def ofSlots (m : Nat) (slots : List (Slot α)) : UpperTriangle α :=
  slots.foldl (fun u s => u.push s.1 s.2.1 s.2.2) (empty m)

theorem ofSlots_append (m : Nat) (slots : List (Slot α)) (s : Slot α) :
    ofSlots m (slots ++ [s]) = (ofSlots m slots).push s.1 s.2.1 s.2.2 := by
  rw [ofSlots, List.foldl_append]
  rfl

theorem ofSlots_fields (m : Nat) (slots : List (Slot α)) :
    (ofSlots m slots).columns = (slots.map fun s => s.2.2).toArray ∧
    (ofSlots m slots).diagonal = (slots.map fun s => s.2.1).toArray ∧
    (ofSlots m slots).labelBySlot = (slots.map fun s => s.1).toArray ∧
    (ofSlots m slots).active = (slots.map fun _ => true).toArray ∧
    (ofSlots m slots).slotByLabel.size = m := by
  induction slots using List.reverseRecOn with
  | nil => exact ⟨rfl, rfl, rfl, rfl, Array.size_replicate⟩
  | append_singleton slots s ih =>
    obtain ⟨hc, hd, hl, ha, hs⟩ := ih
    rw [ofSlots_append]
    simp only [push, hc, hd, hl, ha, List.push_toArray, List.map_append, List.map_cons,
      List.map_nil, Array.size_setIfInBounds, hs, and_self]

@[simp] theorem slotCount_ofSlots (m : Nat) (slots : List (Slot α)) :
    (ofSlots m slots).slotCount = slots.length := by
  rw [slotCount, (ofSlots_fields m slots).1]
  simp

section Slots

variable {m : Nat} {slots : List (Slot α)}

theorem column_ofSlots {s : Nat} (hs : s < slots.length) :
    (ofSlots m slots).column s = slots[s].2.2 := by
  rw [column, (ofSlots_fields m slots).1, getD_eq_getElem (by simpa using hs)]
  simp

theorem diagonalAt_ofSlots [Scalar α] {s : Nat} (hs : s < slots.length) :
    (ofSlots m slots).diagonalAt s = slots[s].2.1 := by
  rw [diagonalAt, (ofSlots_fields m slots).2.1, getD_eq_getElem (by simpa using hs)]
  simp

theorem labelOf_ofSlots {s : Nat} (hs : s < slots.length) :
    (ofSlots m slots).labelOf s = slots[s].1 := by
  rw [labelOf, (ofSlots_fields m slots).2.2.1, getD_eq_getElem (by simpa using hs)]
  simp

theorem isActive_ofSlots (s : Nat) : (ofSlots m slots).isActive s = decide (s < slots.length) := by
  rw [isActive, (ofSlots_fields m slots).2.2.2.1]
  by_cases hs : s < slots.length
  · rw [getD_eq_getElem (by simpa using hs), decide_eq_true hs]
    simp
  · rw [getD_of_size_le (by simpa using hs), decide_eq_false hs]

theorem slotOf_ofSlots (hnodup : (slots.map fun s => s.1).Nodup) (hlt : ∀ s ∈ slots, s.1 < m)
    {k : Nat} (hk : k < slots.length) : (ofSlots m slots).slotOf slots[k].1 = k := by
  induction slots using List.reverseRecOn with
  | nil => exact absurd hk (Nat.not_lt_zero k)
  | append_singleton slots s ih =>
    rw [ofSlots_append, slotOf_push, (ofSlots_fields m slots).2.2.2.2, slotCount_ofSlots]
    have hs : s.1 < m := hlt s (by simp)
    rw [List.map_append, List.nodup_append'] at hnodup
    by_cases hkl : k < slots.length
    · have hne : s.1 ≠ slots[k].1 := by
        intro e
        refine hnodup.2.2 (List.mem_map.mpr ⟨slots[k], List.getElem_mem hkl, rfl⟩) ?_
        exact List.mem_singleton.mpr e.symm
      rw [List.getElem_append_left hkl, if_neg fun h => hne h.1]
      exact ih hnodup.1 (fun t ht => hlt t (List.mem_append_left _ ht)) hkl
    · have : k = slots.length := by
        rw [List.length_append, List.length_singleton] at hk
        omega
      subst this
      rw [List.getElem_append_right (Nat.le_refl _)]
      simp only [Nat.sub_self, List.getElem_cons_zero, true_and]
      rw [if_pos hs]

theorem copied_ofSlots (hkeys : ∀ s ∈ slots, DistinctKeys s.2.2)
    (hlt : ∀ s ∈ slots, ∀ t ∈ s.2.2, t.1 < m) : (ofSlots m slots).Copied m := by
  induction slots using List.reverseRecOn with
  | nil =>
    have hrow : ∀ i, (empty m : UpperTriangle α).row i = [] := fun i => by
      show (Array.replicate m []).getD i [] = []
      rw [getD_replicate, ite_self]
    refine ⟨Array.size_replicate, fun s => distinctKeys_nil, fun i => ?_, fun i s x => ?_⟩
    · show DistinctKeys ((empty m : UpperTriangle α).row i)
      rw [hrow]
      exact distinctKeys_nil
    · show _ ∈ (empty m : UpperTriangle α).row i ↔ _
      rw [hrow]
      exact ⟨fun h => absurd h List.not_mem_nil, fun h => absurd h List.not_mem_nil⟩
  | append_singleton slots s ih =>
    rw [ofSlots_append]
    refine (ih (fun t ht => hkeys t ?_) (fun t ht => hlt t ?_)).push _ _ (hkeys s ?_) (hlt s ?_)
    · exact List.mem_append_left _ ht
    · exact List.mem_append_left _ ht
    · exact List.mem_append_right _ List.mem_cons_self
    · exact List.mem_append_right _ List.mem_cons_self

/-- Slots with different labels, one for every label, whose entries lie at the
labels of slots before them. -/
theorem wellFormed_ofSlots (hlen : slots.length = m) (hnodup : (slots.map fun s => s.1).Nodup)
    (hlt : ∀ s ∈ slots, s.1 < m) (hkeys : ∀ s ∈ slots, DistinctKeys s.2.2)
    (hearlier : ∀ k (hk : k < slots.length), ∀ t ∈ slots[k].2.2,
      ∃ j, ∃ hj : j < k, slots[j].1 = t.1) : (ofSlots m slots).WellFormed m := by
  have hfields := ofSlots_fields m slots
  have hslot := fun k hk => slotOf_ofSlots hnodup hlt (k := k) hk
  have hentry : ∀ s ∈ slots, ∀ t ∈ s.2.2, t.1 < m := by
    intro s hs t ht
    obtain ⟨k, hk, rfl⟩ := List.mem_iff_getElem.mp hs
    obtain ⟨j, hj, he⟩ := hearlier k hk t ht
    exact he ▸ hlt _ (List.getElem_mem _)
  have hactive : ∀ s, (ofSlots m slots).isActive s = true ↔ s < slots.length := fun s => by
    rw [isActive_ofSlots, decide_eq_true_eq]
  have hlabel : ∀ i, i < m → ∃ k, ∃ hk : k < slots.length, slots[k].1 = i := by
    intro i hi
    have hmem : i ∈ slots.map fun s => s.1 := by
      refine mem_of_nodup_of_lt hnodup (fun x hx => ?_) (by simp [hlen]) hi
      obtain ⟨s, hs, rfl⟩ := List.mem_map.mp hx
      exact hlt s hs
    obtain ⟨s, hs, rfl⟩ := List.mem_map.mp hmem
    obtain ⟨k, hk, rfl⟩ := List.mem_iff_getElem.mp hs
    exact ⟨k, hk, rfl⟩
  have hmem : ∀ {s t}, t ∈ (ofSlots m slots).column s → s < slots.length := fun ht => by
    have := slot_lt ht
    rwa [slotCount_ofSlots] at this
  refine { copied_ofSlots hkeys hentry with
    size_diagonal := by rw [hfields.2.1]; simp
    size_labelBySlot := by rw [hfields.2.2.1]; simp
    size_active := by rw [hfields.2.2.2.1]; simp
    size_slotByLabel := hfields.2.2.2.2
    labelOf_lt := fun s hs => ?_
    slotOf_labelOf := fun s hs => ?_
    isActive_slotOf := fun i hi => ?_
    labelOf_slotOf := fun i hi => ?_
    isActive_of_mem := fun s t ht => ?_
    slotOf_lt_of_mem := fun s t ht => ?_ }
  · have hs' := (hactive s).mp hs
    rw [labelOf_ofSlots hs']
    exact hlt _ (List.getElem_mem hs')
  · have hs' := (hactive s).mp hs
    rw [labelOf_ofSlots hs', hslot s hs']
  · obtain ⟨k, hk, rfl⟩ := hlabel i hi
    rw [hslot k hk, hactive]
    exact hk
  · obtain ⟨k, hk, rfl⟩ := hlabel i hi
    rw [hslot k hk, labelOf_ofSlots hk]
  · exact (hactive s).mpr (hmem ht)
  · have hs' := hmem ht
    rw [column_ofSlots hs'] at ht
    obtain ⟨j, hj, he⟩ := hearlier s hs' t ht
    rw [← he, hslot j (by omega)]
    exact hj

end Slots
end UpperTriangle

/-! ## Lines of the lower triangle by row -/

section LowerRows

variable (steps : List (PivotStep α)) (lines : Array (List (Nat × α)))

/-- The columns of the lower triangle, scattered over its rows. -/
def lowerRows : Array (List (Nat × α)) :=
  steps.foldl (fun rows s => scatter s.row s.lowerColumn rows) lines

theorem mem_lowerRows {i : Nat} {t : Nat × α} : t ∈ (lowerRows steps lines).getD i [] ↔
    t ∈ lines.getD i [] ∨ i < lines.size ∧ ∃ s ∈ steps, t.1 = s.row ∧ (i, t.2) ∈ s.lowerColumn := by
  induction steps generalizing lines with
  | nil => simp [lowerRows]
  | cons s steps ih =>
    show t ∈ (lowerRows steps (scatter s.row s.lowerColumn lines)).getD i [] ↔ _
    rw [ih, mem_scatter, size_scatter]
    simp only [List.mem_cons, exists_eq_or_imp]
    tauto

theorem distinctKeys_lowerRows (hrows : (steps.map PivotStep.row).Nodup)
    (hkeys : ∀ s ∈ steps, DistinctKeys s.lowerColumn)
    (hlines : ∀ i, DistinctKeys (lines.getD i []))
    (hnew : ∀ s ∈ steps, ∀ i y, (s.row, y) ∉ lines.getD i []) (i : Nat) :
    DistinctKeys ((lowerRows steps lines).getD i []) := by
  induction steps generalizing lines with
  | nil => exact hlines i
  | cons s steps ih =>
    have hs := List.nodup_cons.mp hrows
    refine ih (scatter s.row s.lowerColumn lines) hs.2
      (fun r hr => hkeys r (List.mem_cons_of_mem s hr)) (fun j => ?_) fun r hr j y hy => ?_
    · exact distinctKeys_scatter (hkeys s List.mem_cons_self) hlines
        (fun k x _ => hnew s List.mem_cons_self k) j
    · rcases mem_scatter.mp hy with hy | ⟨-, he, -⟩
      · exact hnew r (List.mem_cons_of_mem s hr) j y hy
      · exact hs.1 (List.mem_map.mpr ⟨r, hr, he⟩)

end LowerRows

/-- Every row has a step. -/
theorem CompleteElimination.exists_row {steps : List (PivotStep α)}
    {upperColumns : Array (List (Nat × α))} (h : CompleteElimination steps upperColumns) {i : Nat}
    (hi : i < steps.length) : ∃ k, ∃ hk : k < steps.length, steps[k].row = i := by
  have hmem := mem_of_nodup_of_lt h.rows_nodup (fun x hx => ?_) (by simp) hi
  · obtain ⟨s, hs, rfl⟩ := List.mem_map.mp hmem
    obtain ⟨k, hk, rfl⟩ := List.mem_iff_getElem.mp hs
    exact ⟨k, hk, rfl⟩
  · obtain ⟨s, hs, rfl⟩ := List.mem_map.mp hx
    exact h.row_lt s hs

/-- Every column has a step. -/
theorem CompleteElimination.exists_column {steps : List (PivotStep α)}
    {upperColumns : Array (List (Nat × α))} (h : CompleteElimination steps upperColumns) {j : Nat}
    (hj : j < steps.length) : ∃ k, ∃ hk : k < steps.length, steps[k].column = j := by
  have hmem := mem_of_nodup_of_lt h.columns_nodup (fun x hx => ?_) (by simp) hj
  · obtain ⟨s, hs, rfl⟩ := List.mem_map.mp hmem
    obtain ⟨k, hk, rfl⟩ := List.mem_iff_getElem.mp hs
    exact ⟨k, hk, rfl⟩
  · obtain ⟨s, hs, rfl⟩ := List.mem_map.mp hx
    exact h.column_lt s hs

theorem Permutation.nodup_forward {p : Permutation}
    (hinj : ∀ i j, i < p.forward.size → j < p.forward.size → p.apply i = p.apply j → i = j) :
    p.forward.toList.Nodup := by
  rw [List.nodup_iff_injective_getElem]
  rintro ⟨i, hi⟩ ⟨j, hj⟩ hij
  rw [Array.length_toList] at hi hj
  have happly : ∀ k (hk : k < p.forward.size), p.forward[k] = p.apply k :=
    fun k hk => (getD_eq_getElem hk 0).symm
  simp only [Array.getElem_toList, happly, Fin.mk.injEq] at hij ⊢
  exact hinj i j hi hj hij

/-- The images of a permutation are all numbers. -/
theorem Permutation.forward_perm {p : Permutation} {g : Nat → Nat}
    (h : MutuallyInverse p.forward.size p.apply g) :
    p.forward.toList.Perm (List.range p.forward.size) := by
  have hnodup := Permutation.nodup_forward (p := p) fun i j hi hj hij => h.inj hi hj hij
  rw [List.perm_ext_iff_of_nodup hnodup List.nodup_range]
  intro i
  rw [List.mem_range, List.mem_iff_getElem]
  constructor
  · rintro ⟨j, hj, rfl⟩
    rw [Array.length_toList] at hj
    rw [Array.getElem_toList, ← getD_eq_getElem hj 0]
    exact (h.left j hj).1
  · intro hi
    have hg := h.right i hi
    refine ⟨g i, by rw [Array.length_toList]; exact hg.1, ?_⟩
    rw [Array.getElem_toList, ← getD_eq_getElem hg.1 0]
    exact hg.2

/-- The inverse of a list of images. -/
theorem Permutation.invert_ofForward {forward : Array Nat} (hnodup : forward.toList.Nodup)
    {i : Nat} (hi : i < forward.size) (hlt : forward[i] < forward.size) :
    (Permutation.ofForward forward).invert forward[i] = i := by
  show (forward.toList.zipIdx.foldl (fun xs t => xs.setIfInBounds t.1 t.2)
    (Array.replicate forward.size 0)).getD forward[i] 0 = i
  refine getD_foldl_set_of_mem Prod.fst Prod.snd (l := forward.toList.zipIdx) ?_
    (t := (forward[i], i)) ?_ ?_ 0
  · rw [List.zipIdx_map_fst]
    exact hnodup
  · rw [List.mk_mem_zipIdx_iff_getElem?, Array.getElem?_toList]
    exact Array.getElem?_eq_getElem hi
  · rw [Array.size_replicate]
    exact hlt

namespace LU

/-- The step of a label. -/
def stepOf (lu : LU α) (label : Nat) : Nat :=
  lu.stepByRow.getD label 0

structure WellFormed (lu : LU α) : Prop where
  steps : MutuallyInverse lu.m lu.pivotRow lu.stepOf
  positions : MutuallyInverse lu.m lu.labels.apply lu.labels.invert
  lowerColumn_keys : ∀ k, k < lu.m → DistinctKeys (lu.lowerColumn k)
  lowerRow_keys : ∀ i, DistinctKeys (lu.lowerRow i)
  lower_later : ∀ k, k < lu.m → ∀ t ∈ lu.lowerColumn k, t.1 < lu.m ∧ k < lu.stepOf t.1
  mem_lowerRow : ∀ i j x, (j, x) ∈ lu.lowerRow i ↔ j < lu.m ∧ (i, x) ∈ lu.lowerColumn (lu.stepOf j)
  upper : lu.upper.WellFormed lu.m
  etas : ∀ r ∈ lu.etas, r.pivot < lu.m ∧ ∀ t ∈ r.values, t.1 < lu.m ∧ t.1 ≠ r.pivot

section OfSteps

variable {steps : List (PivotStep α)} {upperColumns : Array (List (Nat × α))}

@[simp] theorem m_ofSteps : (ofSteps steps upperColumns).m = steps.length := rfl

theorem upper_ofSteps : (ofSteps steps upperColumns).upper = UpperTriangle.ofSlots steps.length
    (steps.map fun s => (s.row, s.value, upperColumns.getD s.column [])) := by
  show steps.foldl _ _ = List.foldl _ _ (steps.map _)
  rw [List.foldl_map]

theorem pivotRow_ofSteps {k : Nat} (hk : k < steps.length) :
    (ofSteps steps upperColumns).pivotRow k = steps[k].row := by
  show (steps.map PivotStep.row).toArray.getD k 0 = _
  rw [getD_eq_getElem (by simpa using hk)]
  simp

theorem lowerColumn_ofSteps {k : Nat} (hk : k < steps.length) :
    (ofSteps steps upperColumns).lowerColumn k = steps[k].lowerColumn := by
  show (steps.map PivotStep.lowerColumn).toArray.getD k [] = _
  rw [getD_eq_getElem (by simpa using hk)]
  simp

theorem of_mem_lowerColumn_ofSteps {k : Nat} {t : Nat × α}
    (ht : t ∈ (ofSteps steps upperColumns).lowerColumn k) : ∃ s ∈ steps, t ∈ s.lowerColumn := by
  by_cases hk : k < steps.length
  · rw [lowerColumn_ofSteps hk] at ht
    exact ⟨_, List.getElem_mem hk, ht⟩
  · have hnone : (ofSteps steps upperColumns).lowerColumn k = [] :=
      getD_of_size_le (by simpa [ofSteps] using hk) _
    rw [hnone] at ht
    exact absurd ht List.not_mem_nil

theorem lowerRow_ofSteps (i : Nat) : (ofSteps steps upperColumns).lowerRow i =
    (lowerRows steps (Array.replicate steps.length [])).getD i [] := rfl

variable (h : CompleteElimination steps upperColumns)

include h

theorem stepOf_ofSteps {k : Nat} (hk : k < steps.length) :
    (ofSteps steps upperColumns).stepOf steps[k].row = k := by
  show (steps.zipIdx.foldl (fun xs t => xs.setIfInBounds t.1.row t.2)
    (Array.replicate steps.length 0)).getD steps[k].row 0 = k
  refine getD_foldl_set_of_mem (fun t : PivotStep α × Nat => t.1.row) Prod.snd
    (l := steps.zipIdx) ?_ (t := (steps[k], k)) ?_ ?_ 0
  · rw [show (fun t : PivotStep α × Nat => t.1.row) = PivotStep.row ∘ Prod.fst from rfl,
      ← List.map_map, List.zipIdx_map_fst]
    exact h.rows_nodup
  · rw [List.mk_mem_zipIdx_iff_getElem?]
    exact List.getElem?_eq_getElem hk
  · rw [Array.size_replicate]
    exact h.row_lt _ (List.getElem_mem hk)

theorem apply_ofSteps {k : Nat} (hk : k < steps.length) :
    (ofSteps steps upperColumns).labels.apply steps[k].column = steps[k].row := by
  show (steps.foldl (fun xs s => xs.setIfInBounds s.column s.row)
    (Array.replicate steps.length 0)).getD steps[k].column 0 = _
  refine getD_foldl_set_of_mem PivotStep.column PivotStep.row h.columns_nodup
    (List.getElem_mem hk) ?_ 0
  rw [Array.size_replicate]
  exact h.column_lt _ (List.getElem_mem hk)

theorem positions_ofSteps : MutuallyInverse steps.length
    (ofSteps steps upperColumns).labels.apply (ofSteps steps upperColumns).labels.invert := by
  have hsize : (ofSteps steps upperColumns).labels.forward.size = steps.length :=
    (size_foldl_set ..).trans Array.size_replicate
  have happly : ∀ j (hj : j < (ofSteps steps upperColumns).labels.forward.size),
      (ofSteps steps upperColumns).labels.forward[j] =
        (ofSteps steps upperColumns).labels.apply j :=
    fun j hj => (getD_eq_getElem hj 0).symm
  have hlt : ∀ j, j < steps.length →
      (ofSteps steps upperColumns).labels.apply j < steps.length := by
    intro j hj
    obtain ⟨k, hk, rfl⟩ := h.exists_column hj
    rw [apply_ofSteps h hk]
    exact h.row_lt _ (List.getElem_mem hk)
  have hnodup : (ofSteps steps upperColumns).labels.forward.toList.Nodup := by
    refine Permutation.nodup_forward fun i j hi hj hij => ?_
    rw [hsize] at hi hj
    obtain ⟨k, hk, rfl⟩ := h.exists_column hi
    obtain ⟨l, hl, rfl⟩ := h.exists_column hj
    rw [apply_ofSteps h hk, apply_ofSteps h hl] at hij
    have hkl : k = l := by
      rw [← stepOf_ofSteps h hk, hij, stepOf_ofSteps h hl]
    subst hkl
    rfl
  refine MutuallyInverse.of_left fun j hj => ⟨hlt j hj, ?_⟩
  rw [← hsize] at hj
  rw [← happly j hj]
  refine Permutation.invert_ofForward hnodup hj ?_
  rw [happly j hj, hsize]
  exact hlt j (hsize ▸ hj)

/-- Factors of a complete elimination are well formed. -/
theorem wellFormed_ofSteps : (ofSteps steps upperColumns).WellFormed := by
  have hsteps : MutuallyInverse steps.length (ofSteps steps upperColumns).pivotRow
      (ofSteps steps upperColumns).stepOf := by
    refine MutuallyInverse.of_left fun k hk => ?_
    rw [pivotRow_ofSteps hk, stepOf_ofSteps h hk]
    exact ⟨h.row_lt _ (List.getElem_mem hk), rfl⟩
  refine ⟨hsteps, positions_ofSteps h, fun k hk => ?_, fun i => ?_, fun k hk t ht => ?_,
    fun i j x => ?_, ?_, fun r hr => absurd hr List.not_mem_nil⟩
  · rw [lowerColumn_ofSteps hk]
    exact h.lower_keys _ (List.getElem_mem hk)
  · rw [lowerRow_ofSteps]
    have hempty : ∀ i, (Array.replicate steps.length ([] : List (Nat × α))).getD i [] = [] :=
      fun i => by rw [getD_replicate, ite_self]
    refine distinctKeys_lowerRows steps _ h.rows_nodup h.lower_keys (fun j => ?_)
      (fun s _ j y => ?_) i
    · rw [hempty]
      exact distinctKeys_nil
    · rw [hempty]
      exact List.not_mem_nil
  · rw [lowerColumn_ofSteps hk] at ht
    obtain ⟨hlt, hlater⟩ := h.lower_later k hk t ht
    obtain ⟨j, hj, he⟩ := h.exists_row hlt
    refine ⟨hlt, ?_⟩
    rw [← he, stepOf_ofSteps h hj]
    by_contra hle
    exact hlater j hj (by omega) he
  · rw [lowerRow_ofSteps, mem_lowerRows, getD_replicate, ite_self, Array.size_replicate]
    constructor
    · rintro (hx | ⟨hi, s, hs, rfl, hx⟩)
      · exact absurd hx List.not_mem_nil
      · obtain ⟨k, hk, rfl⟩ := List.mem_iff_getElem.mp hs
        refine ⟨h.row_lt _ hs, ?_⟩
        rw [stepOf_ofSteps h hk, lowerColumn_ofSteps hk]
        exact hx
    · rintro ⟨hj, hx⟩
      obtain ⟨k, hk, rfl⟩ := h.exists_row hj
      rw [stepOf_ofSteps h hk, lowerColumn_ofSteps hk] at hx
      exact Or.inr ⟨(h.lower_later k hk _ hx).1, steps[k], List.getElem_mem hk, rfl, hx⟩
  · rw [upper_ofSteps]
    refine UpperTriangle.wellFormed_ofSlots (List.length_map _) ?_ ?_ ?_ fun k hk t ht => ?_
    · rw [List.map_map]
      exact h.rows_nodup
    · intro s hs
      obtain ⟨r, hr, rfl⟩ := List.mem_map.mp hs
      exact h.row_lt r hr
    · intro s hs
      obtain ⟨r, hr, rfl⟩ := List.mem_map.mp hs
      exact h.upper_keys r.column
    · rw [List.length_map] at hk
      rw [List.getElem_map] at ht
      obtain ⟨j, hj, he⟩ := h.upper_earlier k hk t ht
      exact ⟨j, hj, by rw [List.getElem_map]; exact he⟩

end OfSteps

/-- A step in the elimination of the identity matrix. -/
def identityStep [One α] (i : Nat) : PivotStep α :=
  { row := i, column := i, value := 1, lowerColumn := [] }

theorem completeElimination_identity [One α] (m : Nat) : CompleteElimination
    ((List.range m).map (identityStep (α := α))) (Array.replicate m []) := by
  have hempty : ∀ i, (Array.replicate m ([] : List (Nat × α))).getD i [] = [] :=
    fun i => by rw [getD_replicate, ite_self]
  have hmap : ∀ f : PivotStep α → Nat, (∀ i, f (identityStep i) = i) →
      ((List.range m).map (identityStep (α := α))).map f = List.range m := by
    intro f hf
    rw [List.map_map]
    exact (List.map_congr_left fun i _ => hf i).trans (List.map_id _)
  refine ⟨?_, ?_, ?_, ?_, ?_, fun k hk t ht => ?_, fun j => ?_, fun k hk t ht => ?_⟩
  · rw [hmap _ fun _ => rfl]
    exact List.nodup_range
  · simp [identityStep]
  · rw [hmap _ fun _ => rfl]
    exact List.nodup_range
  · simp [identityStep]
  · simp [identityStep, distinctKeys_nil]
  · rw [List.getElem_map] at ht
    exact absurd ht List.not_mem_nil
  · rw [hempty]
    exact distinctKeys_nil
  · rw [hempty] at ht
    exact absurd ht List.not_mem_nil

/-! ## Replacing a column -/

variable [Scalar α]

theorem wellFormed_identity (m : Nat) : (identity m : LU α).WellFormed :=
  wellFormed_ofSteps (completeElimination_identity m)

/-- The eta that takes the entries of a label's row away. -/
def eta (lu : LU α) (label : Nat) : RowEta α :=
  { values := lu.rowMultipliers label, pivot := label }

/-- The entries of the new column off its diagonal. -/
def spikeColumn (label : Nat) (spike : SparseVector α) : List (Nat × α) :=
  spike.entries.filter fun t => t.1 != label && Scalar.isSignificant t.2

theorem distinctKeys_spikeColumn {spike : SparseVector α} (hnodup : spike.support.Nodup)
    (label : Nat) : DistinctKeys (spikeColumn label spike) :=
  (SparseVector.distinctKeys_entries hnodup).filter _

theorem of_mem_spikeColumn {label : Nat} {spike : SparseVector α} {t : Nat × α}
    (ht : t ∈ spikeColumn label spike) : t.1 ∈ spike.support ∧ t.1 ≠ label := by
  obtain ⟨ht, hne⟩ := List.mem_filter.mp ht
  obtain ⟨i, hi, rfl⟩ := List.mem_map.mp ht
  rw [Bool.and_eq_true] at hne
  exact ⟨hi, bne_iff_ne.mp hne.1⟩

/-- The factors after a replacement that succeeds. -/
theorem eq_of_update_eq_ok {lu lu' : LU α} {position : Nat} {spike : SparseVector α}
    {pivot tolerance : α} (h : lu.update position spike pivot tolerance = .ok lu') :
    ¬ Scalar.magnitude ((lu.eta (lu.labels.apply position)).pivotValue spike.values) < tolerance ∧
    lu' = { lu with
      upper := lu.upper.replace (lu.labels.apply position)
        ((lu.eta (lu.labels.apply position)).pivotValue spike.values)
        (spikeColumn (lu.labels.apply position) spike)
      etas := lu.etas ++ [lu.eta (lu.labels.apply position)] } := by
  unfold update at h
  simp only at h
  split at h
  · exact absurd h nofun
  · rename_i hlarge
    split at h
    · exact absurd h nofun
    · exact ⟨hlarge, (Except.ok.inj h).symm⟩

section Eta

variable [LawfulScalar α] {lu : LU α} (h : lu.WellFormed) {label : Nat}

include h

/-- The row under elimination has entries in later slots alone. -/
theorem rowElimination_later (slots : List Nat) (e : RowElimination α)
    (hwork : ∀ s, ¬ (lu.upper.isActive s = true ∧ lu.upper.slotOf label < s) →
      e.work.getD s 0 = 0)
    (hmultipliers : ∀ t ∈ e.multipliers, t.1 < lu.m ∧ t.1 ≠ label) :
    ∀ t ∈ (slots.foldl (RowElimination.step lu.upper) e).multipliers, t.1 < lu.m ∧ t.1 ≠ label := by
  induction slots generalizing e with
  | nil => exact hmultipliers
  | cons s slots ih =>
    rw [List.foldl_cons]
    by_cases htiny : Scalar.isTiny (e.work.getD s 0) = true
    · rw [RowElimination.step, if_pos htiny]
      exact ih e hwork hmultipliers
    · have hs : lu.upper.isActive s = true ∧ lu.upper.slotOf label < s := by
        by_contra hs
        rw [hwork s hs] at htiny
        exact htiny Scalar.isTiny_zero
      rw [RowElimination.step, if_neg htiny]
      refine ih _ (fun r hr => ?_) fun t ht => ?_
      · -- The entries of the row that is taken off lie in slots after its own.
        have hrow : ∀ t ∈ lu.upper.row (lu.upper.labelOf s), t.1 ≠ r := by
          rintro ⟨later, a⟩ ht rfl
          have ht := (h.upper.mem_row _ _ _).mp ht
          have hlater := h.upper.slotOf_lt_of_mem _ _ ht
          rw [h.upper.slotOf_labelOf s hs.1] at hlater
          exact hr ⟨h.upper.isActive_of_mem _ _ ht, Nat.lt_trans hs.2 hlater⟩
        exact (getD_foldl_modify_of_notMem Prod.fst
          (fun t x => x - e.work.getD s 0 / lu.upper.diagonalAt s * t.2) hrow e.work 0).trans
          (hwork r hr)
      · rcases List.mem_append.mp ht with ht | ht
        · exact hmultipliers t ht
        · rw [List.mem_singleton.mp ht]
          refine ⟨h.upper.labelOf_lt s hs.1, fun heq => ?_⟩
          have hslot := h.upper.slotOf_labelOf s hs.1
          have heq : lu.upper.labelOf s = label := heq
          rw [heq] at hslot
          omega

theorem mem_rowMultipliers {t : Nat × α} (ht : t ∈ lu.rowMultipliers label) :
    t.1 < lu.m ∧ t.1 ≠ label := by
  refine rowElimination_later h _ _ (fun s hs => ?_) (fun t ht => ?_) t ht
  · refine (getD_foldl_set_of_notMem Prod.fst Prod.snd ?_ _ _).trans ?_
    rotate_left
    · rw [getD_replicate, ite_self]
    rintro ⟨r, x⟩ hx rfl
    have hx := (h.upper.mem_row _ _ _).mp hx
    exact hs ⟨h.upper.isActive_of_mem _ _ hx, h.upper.slotOf_lt_of_mem _ _ hx⟩
  · exact absurd ht List.not_mem_nil

end Eta

/-- Replacing a column keeps factors well formed.  The spike may come from
anywhere. -/
theorem WellFormed.update [LawfulScalar α] {lu lu' : LU α} (h : lu.WellFormed) {position : Nat}
    {spike : SparseVector α} {pivot tolerance : α} (hposition : position < lu.m)
    (hnodup : spike.support.Nodup) (hlt : ∀ i ∈ spike.support, i < lu.m)
    (hupdate : lu.update position spike pivot tolerance = .ok lu') : lu'.WellFormed := by
  obtain ⟨-, rfl⟩ := eq_of_update_eq_ok hupdate
  have hlabel : lu.labels.apply position < lu.m := (h.positions.left position hposition).1
  refine { h with upper := ?_, etas := fun r hr => ?_ }
  · refine h.upper.replace _ _ _ hlabel (distinctKeys_spikeColumn hnodup _) fun t ht => ?_
    obtain ⟨hmem, hne⟩ := of_mem_spikeColumn ht
    exact ⟨hlt t.1 hmem, hne⟩
  · rcases List.mem_append.mp hr with hr | hr
    · exact h.etas r hr
    · rw [List.mem_singleton.mp hr]
      exact ⟨hlabel, fun t ht => mem_rowMultipliers h ht⟩

end LU
end DualSimplex
