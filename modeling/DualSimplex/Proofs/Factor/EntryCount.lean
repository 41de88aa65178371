import DualSimplex.Proofs.Factor.Structure

/-!
# Counts of entries

The triangles say how many entries they have without counting them.  What they say is
right however slots are appended, erased and turned off, so that no more is ever taken
off a count than has been added to it.
-/

namespace DualSimplex

variable {α : Type}

/-! ## Lines and their transposes -/

theorem DistinctKeys.length_eq_sum {line : List (Nat × α)} (h : DistinctKeys line) {m : Nat}
    (hlt : ∀ t ∈ line, t.1 < m) :
    line.length = ∑ i ∈ Finset.range m, if i ∈ line.map Prod.fst then 1 else 0 := by
  have hkeys : (line.map Prod.fst).toFinset =
      (Finset.range m).filter fun i => i ∈ line.map Prod.fst := by
    ext i
    rw [List.mem_toFinset, Finset.mem_filter, Finset.mem_range]
    refine ⟨fun hi => ⟨?_, hi⟩, And.right⟩
    obtain ⟨t, ht, rfl⟩ := List.mem_map.mp hi
    exact hlt t ht
  rw [← Finset.card_filter, ← hkeys, List.toFinset_card_of_nodup h, List.length_map]

theorem DistinctKeys.length_filter_add {line : List (Nat × α)} (h : DistinctKeys line) (k : Nat) :
    (line.filter fun t => t.1 != k).length + (if k ∈ line.map Prod.fst then 1 else 0) =
      line.length := by
  have hkeys : ((line.filter fun t => t.1 != k).map Prod.fst) = (line.map Prod.fst).erase k := by
    rw [List.Nodup.erase_eq_filter h, List.filter_map]
    rfl
  have hlength := congrArg List.length hkeys
  rw [List.length_map, List.length_erase, List.length_map] at hlength
  rw [hlength]
  split
  · rename_i hmem
    have hpos : 0 < (line.map Prod.fst).length := List.length_pos_of_mem hmem
    rw [List.length_map] at hpos
    omega
  · rfl

/-- The entries that a transposed line has are one for each line with an entry there. -/
theorem DistinctKeys.length_transposed {row : List (Nat × α)} (h : DistinctKeys row)
    {columns : Nat → List (Nat × α)} {n i : Nat} (hlt : ∀ t ∈ row, t.1 < n)
    (hmem : ∀ s, s < n → ∀ x, (s, x) ∈ row ↔ (i, x) ∈ columns s) :
    row.length = ∑ s ∈ Finset.range n, if i ∈ (columns s).map Prod.fst then 1 else 0 := by
  rw [h.length_eq_sum hlt]
  refine Finset.sum_congr rfl fun s hs => if_congr ?_ rfl rfl
  rw [List.mem_map, List.mem_map]
  constructor
  · rintro ⟨⟨_, x⟩, hx, rfl⟩
    exact ⟨(i, x), (hmem _ (Finset.mem_range.mp hs) x).mp hx, rfl⟩
  · rintro ⟨⟨_, x⟩, hx, rfl⟩
    exact ⟨(s, x), (hmem s (Finset.mem_range.mp hs) x).mpr hx, rfl⟩

/-- Two copies of the same entries have equally many. -/
theorem sum_length_transposed {columns rows : Nat → List (Nat × α)} {n m : Nat}
    (hcolumns : ∀ s, s < n → DistinctKeys (columns s) ∧ ∀ t ∈ columns s, t.1 < m)
    (hrows : ∀ i, i < m → DistinctKeys (rows i) ∧ ∀ t ∈ rows i, t.1 < n)
    (hmem : ∀ s, s < n → ∀ i, i < m → ∀ x, (s, x) ∈ rows i ↔ (i, x) ∈ columns s) :
    ∑ i ∈ Finset.range m, (rows i).length = ∑ s ∈ Finset.range n, (columns s).length := by
  calc ∑ i ∈ Finset.range m, (rows i).length
      = ∑ i ∈ Finset.range m, ∑ s ∈ Finset.range n,
          if i ∈ (columns s).map Prod.fst then 1 else 0 := by
        refine Finset.sum_congr rfl fun i hi => ?_
        have hi := Finset.mem_range.mp hi
        exact (hrows i hi).1.length_transposed (hrows i hi).2 fun s hs => hmem s hs i hi
    _ = ∑ s ∈ Finset.range n, ∑ i ∈ Finset.range m,
          if i ∈ (columns s).map Prod.fst then 1 else 0 := Finset.sum_comm
    _ = ∑ s ∈ Finset.range n, (columns s).length := by
        refine Finset.sum_congr rfl fun s hs => ?_
        have hs := Finset.mem_range.mp hs
        exact ((hcolumns s hs).1.length_eq_sum (hcolumns s hs).2).symm

/-! ## The upper triangle -/

namespace UpperTriangle

variable {u : UpperTriangle α} {m : Nat}

/-- The number of entries that the columns hold. -/
def stored (u : UpperTriangle α) : Nat :=
  ∑ s ∈ Finset.range u.slotCount, (u.column s).length

theorem stored_push (label : Nat) (diagonal : α) (line : List (Nat × α)) :
    (u.push label diagonal line).stored = u.stored + line.length := by
  unfold stored
  rw [slotCount_push, Finset.sum_range_succ, column_push, if_pos rfl]
  refine congrArg (· + line.length) (Finset.sum_congr rfl fun s hs => ?_)
  rw [column_push, if_neg (Nat.ne_of_lt (Finset.mem_range.mp hs))]

theorem Copied.length_row (h : u.Copied m) (label : Nat) : (u.row label).length =
    ∑ s ∈ Finset.range u.slotCount, if label ∈ (u.column s).map Prod.fst then 1 else 0 :=
  (h.row_keys label).length_transposed
    (fun t ht => slot_lt ((h.mem_row label t.1 t.2).mp ht)) fun s _ x => h.mem_row label s x

/-- The rows hold as many entries as the columns. -/
theorem Copied.sum_length_row (h : u.Copied m) :
    ∑ i ∈ Finset.range m, (u.row i).length = u.stored :=
  sum_length_transposed (fun s _ => ⟨h.column_keys s, fun _ ht => h.label_lt ht⟩)
    (fun i _ => ⟨h.row_keys i, fun t ht => slot_lt ((h.mem_row i t.1 t.2).mp ht)⟩)
    fun s _ i _ x => h.mem_row i s x

theorem Copied.stored_eraseRow (h : u.Copied m) (label : Nat) :
    (u.eraseRow label).stored + (u.row label).length = u.stored := by
  rw [h.length_row]
  unfold stored
  rw [slotCount_eraseRow, ← Finset.sum_add_distrib]
  refine Finset.sum_congr rfl fun s _ => ?_
  have hleft : ((u.eraseRow label).column s).Perm
      ((u.column s).filter fun t => t.1 != label) := by
    rw [List.perm_ext_iff_of_nodup ((h.eraseRow label).column_keys s).nodup
      ((h.column_keys s).filter _).nodup]
    intro t
    rw [h.mem_column_eraseRow, List.mem_filter, bne_iff_ne]
  rw [hleft.length_eq]
  exact (h.column_keys s).length_filter_add label

theorem stored_turnOff (slot : Nat) :
    (u.turnOff slot).stored + (u.column slot).length = u.stored := by
  have hlength : ∀ s, (u.column s).length =
      ((u.turnOff slot).column s).length + if s = slot then (u.column slot).length else 0 := by
    intro s
    rw [column_turnOff]
    by_cases hs : slot = s
    · rw [if_pos hs, if_pos hs.symm, hs, List.length_nil, zero_add]
    · rw [if_neg hs, if_neg (Ne.symm hs), add_zero]
  unfold stored
  rw [slotCount_turnOff, Finset.sum_congr rfl fun s (_ : s ∈ Finset.range u.slotCount) => hlength s,
    Finset.sum_add_distrib, Finset.sum_ite_eq']
  by_cases hslot : slot < u.slotCount
  · rw [if_pos (Finset.mem_range.mpr hslot)]
  · have hnone : u.column slot = [] :=
      List.eq_nil_iff_forall_not_mem.mpr fun t ht => hslot (slot_lt ht)
    rw [hnone, List.length_nil, ite_self]

/-- The triangle knows how many entries it has. -/
def Counted (u : UpperTriangle α) : Prop :=
  u.entryCount = u.stored

theorem Counted.push (h : u.Counted) (label : Nat) (diagonal : α) (line : List (Nat × α)) :
    (u.push label diagonal line).Counted := by
  rw [Counted, stored_push, ← h]
  rfl

theorem Counted.eraseRow (h : u.Counted) (hcopied : u.Copied m) (label : Nat) :
    (u.row label).length ≤ u.entryCount ∧ (u.eraseRow label).Counted := by
  have hstored := hcopied.stored_eraseRow label
  have hcount : u.entryCount = u.stored := h
  refine ⟨by omega, ?_⟩
  show u.entryCount - (u.row label).length = _
  omega

theorem Counted.turnOff (h : u.Counted) (slot : Nat) :
    (u.column slot).length ≤ u.entryCount ∧ (u.turnOff slot).Counted := by
  have hstored := u.stored_turnOff slot
  have hcount : u.entryCount = u.stored := h
  refine ⟨by omega, ?_⟩
  show u.entryCount - (u.column slot).length = _
  omega

theorem Counted.replace (h : u.Counted) (hcopied : u.Copied m) (label : Nat) (diagonal : α)
    (line : List (Nat × α)) : (u.replace label diagonal line).Counted :=
  ((h.eraseRow hcopied label).2.turnOff _).2.push label diagonal line

theorem counted_ofSlots (m : Nat) (slots : List (Slot α)) : (ofSlots m slots).Counted := by
  induction slots using List.reverseRecOn with
  | nil => exact rfl
  | append_singleton slots s ih =>
    rw [ofSlots_append]
    exact ih.push ..

/-- The slots in use are as many as the labels. -/
theorem WellFormed.length_slots (h : u.WellFormed m) : u.slots.length = m := by
  have hperm : (u.slots.map u.labelOf).Perm (List.range m) := by
    have hnodup : u.slots.Nodup := List.nodup_range.filter _
    rw [List.perm_ext_iff_of_nodup (hnodup.map_on fun s hs s' hs' heq =>
      h.labelOf_inj ((mem_slots h).mp hs) ((mem_slots h).mp hs') heq) List.nodup_range]
    intro i
    rw [List.mem_map, List.mem_range]
    constructor
    · rintro ⟨s, hs, rfl⟩
      exact h.labelOf_lt s ((mem_slots h).mp hs)
    · intro hi
      exact ⟨u.slotOf i, (mem_slots h).mpr (h.isActive_slotOf i hi), h.labelOf_slotOf i hi⟩
  rw [← List.length_map (f := u.labelOf), hperm.length_eq, List.length_range]

/-- All entries are in the slots in use. -/
theorem WellFormed.sum_slots (h : u.WellFormed m) :
    (u.slots.map fun s => (u.column s).length).sum = u.stored := by
  have hsum : ∀ n, (((List.range n).filter u.isActive).map fun s => (u.column s).length).sum =
      ∑ s ∈ Finset.range n, (u.column s).length := by
    intro n
    induction n with
    | zero => rfl
    | succ n ih =>
      rw [List.range_succ, List.filter_append, List.map_append, List.sum_append, ih,
        Finset.sum_range_succ]
      refine congrArg (_ + ·) ?_
      cases hn : u.isActive n with
      | true => rw [List.filter_cons_of_pos hn]; rfl
      | false =>
        have hnone : u.column n = [] := List.eq_nil_iff_forall_not_mem.mpr fun t ht =>
          absurd ((h.isActive_of_mem n t ht).symm.trans hn) Bool.false_ne_true.symm
        rw [List.filter_cons_of_neg (by rw [hn]; exact Bool.false_ne_true), hnone]
        rfl
  exact hsum u.slotCount

end UpperTriangle

/-! ## Factors -/

namespace LU

variable {lu : LU α}

/-- The factors know how many entries their triangles have. -/
structure Counted (lu : LU α) : Prop where
  lower : lu.lowerCount = ∑ k ∈ Finset.range lu.m, (lu.lowerColumn k).length
  upper : lu.upper.Counted

theorem counted_ofSteps (steps : List (PivotStep α)) (upperColumns : Array (List (Nat × α))) :
    (ofSteps steps upperColumns).Counted := by
  refine ⟨?_, ?_⟩
  · have hlines : (steps.map fun s => s.lowerColumn.length) = (List.range steps.length).map
        fun k => ((ofSteps steps upperColumns).lowerColumn k).length := by
      refine List.ext_getElem (by simp) fun k hk _ => ?_
      rw [List.length_map] at hk
      rw [List.getElem_map, List.getElem_map, List.getElem_range, lowerColumn_ofSteps hk]
    have hcount : (ofSteps steps upperColumns).lowerCount =
        (steps.map fun s => s.lowerColumn.length).sum := List.length_flatMap ..
    rw [hcount, hlines]
    rfl
  · rw [upper_ofSteps]
    exact UpperTriangle.counted_ofSlots ..

/-- The lower triangle has as many entries by row as by column. -/
theorem WellFormed.sum_length_lowerRow (h : lu.WellFormed) :
    ∑ i ∈ Finset.range lu.m, (lu.lowerRow i).length =
      ∑ k ∈ Finset.range lu.m, (lu.lowerColumn k).length := by
  have hstep := fun j (hj : j < lu.m) => (h.steps.right j hj).1
  have hlabels : ∑ j ∈ Finset.range lu.m, (lu.lowerColumn (lu.stepOf j)).length =
      ∑ k ∈ Finset.range lu.m, (lu.lowerColumn k).length :=
    Finset.sum_nbij' lu.stepOf lu.pivotRow
      (fun j hj => Finset.mem_range.mpr (hstep j (Finset.mem_range.mp hj)))
      (fun k hk => Finset.mem_range.mpr (h.steps.left k (Finset.mem_range.mp hk)).1)
      (fun j hj => (h.steps.right j (Finset.mem_range.mp hj)).2)
      (fun k hk => (h.steps.left k (Finset.mem_range.mp hk)).2) fun j _ => rfl
  rw [← hlabels]
  refine sum_length_transposed
    (fun j hj => ⟨h.lowerColumn_keys _ (hstep j hj), fun t ht => (h.lower_later _ (hstep j hj) t ht).1⟩)
    (fun i _ => ⟨h.lowerRow_keys i, fun t ht => ((h.mem_lowerRow i t.1 t.2).mp ht).1⟩)
    fun j hj i _ x => ?_
  rw [h.mem_lowerRow]
  exact and_iff_right hj

end LU
end DualSimplex
