import DualSimplex.Proofs.Lines

/-!
# Well-formed upper triangles

An upper triangle is well formed if its two copies hold the same entries, if
every label has one slot in use, and if the entries of a slot in use lie at
labels whose slots come earlier.  Appending slots one by one builds such a
triangle, and replacing a slot by one at the end keeps it one.
-/

namespace DualSimplex
namespace UpperTriangle

variable {α : Type}

/-- The copies by column and by row hold the same entries, without repetition. -/
structure Copied (u : UpperTriangle α) (m : Nat) : Prop where
  size_rows : u.rows.size = m
  column_keys : ∀ s, DistinctKeys (u.column s)
  row_keys : ∀ i, DistinctKeys (u.row i)
  mem_row : ∀ i s x, (s, x) ∈ u.row i ↔ (i, x) ∈ u.column s

/-- The labels of entries are labels of the triangle. -/
theorem Copied.label_lt {u : UpperTriangle α} {m : Nat} (h : u.Copied m) {s i : Nat} {x : α}
    (hx : (i, x) ∈ u.column s) : i < m := by
  by_contra hge
  have hrow := (h.mem_row i s x).mpr hx
  rw [row, getD_of_size_le (by rw [h.size_rows]; omega)] at hrow
  exact absurd hrow List.not_mem_nil

/-- The slots of entries are slots of the triangle. -/
theorem slot_lt {u : UpperTriangle α} {s : Nat} {t : Nat × α} (ht : t ∈ u.column s) :
    s < u.slotCount := by
  by_contra hge
  rw [column, getD_of_size_le (by unfold slotCount at hge; omega)] at ht
  exact absurd ht List.not_mem_nil

structure WellFormed (u : UpperTriangle α) (m : Nat) : Prop extends u.Copied m where
  size_diagonal : u.diagonal.size = u.slotCount
  size_labelBySlot : u.labelBySlot.size = u.slotCount
  size_active : u.active.size = u.slotCount
  size_slotByLabel : u.slotByLabel.size = m
  labelOf_lt : ∀ s, u.isActive s = true → u.labelOf s < m
  slotOf_labelOf : ∀ s, u.isActive s = true → u.slotOf (u.labelOf s) = s
  isActive_slotOf : ∀ i, i < m → u.isActive (u.slotOf i) = true
  labelOf_slotOf : ∀ i, i < m → u.labelOf (u.slotOf i) = i
  isActive_of_mem : ∀ s t, t ∈ u.column s → u.isActive s = true
  slotOf_lt_of_mem : ∀ s t, t ∈ u.column s → u.slotOf t.1 < s

theorem WellFormed.lt_slotCount {u : UpperTriangle α} {m : Nat} (h : u.WellFormed m) {s : Nat}
    (hs : u.isActive s = true) : s < u.slotCount := by
  by_contra hge
  rw [isActive, getD_of_size_le (by rw [h.size_active]; omega)] at hs
  exact absurd hs Bool.false_ne_true

theorem WellFormed.slotOf_ne {u : UpperTriangle α} {m : Nat} (h : u.WellFormed m) {i j : Nat}
    (hi : i < m) (hj : j < m) (hne : i ≠ j) : u.slotOf i ≠ u.slotOf j := by
  intro he
  exact hne (by rw [← h.labelOf_slotOf i hi, he, h.labelOf_slotOf j hj])

theorem mem_slots {u : UpperTriangle α} {m : Nat} (h : u.WellFormed m) {s : Nat} :
    s ∈ u.slots ↔ u.isActive s = true := by
  rw [slots, List.mem_filter, List.mem_range]
  exact ⟨And.right, fun hs => ⟨h.lt_slotCount hs, hs⟩⟩

/-- Slots in use have different labels. -/
theorem WellFormed.labelOf_inj {u : UpperTriangle α} {m : Nat} (h : u.WellFormed m) {s s' : Nat}
    (hs : u.isActive s = true) (hs' : u.isActive s' = true)
    (heq : u.labelOf s = u.labelOf s') : s = s' := by
  rw [← h.slotOf_labelOf s hs, heq, h.slotOf_labelOf s' hs']

/-! ## Appending a slot -/

section Push

variable (u : UpperTriangle α) (label : Nat) (diagonal : α) (line : List (Nat × α))

@[simp] theorem slotCount_push : (u.push label diagonal line).slotCount = u.slotCount + 1 :=
  Array.size_push ..

theorem rows_push :
    (u.push label diagonal line).rows = scatter u.slotCount line u.rows := rfl

theorem column_push (s : Nat) : (u.push label diagonal line).column s =
    if s = u.slotCount then line else u.column s :=
  getD_push ..

theorem labelOf_push (h : u.labelBySlot.size = u.slotCount) (s : Nat) :
    (u.push label diagonal line).labelOf s = if s = u.slotCount then label else u.labelOf s := by
  show (u.labelBySlot.push label).getD s 0 = _
  rw [getD_push, h]
  rfl

theorem diagonalAt_push [Scalar α] (h : u.diagonal.size = u.slotCount) (s : Nat) :
    (u.push label diagonal line).diagonalAt s =
      if s = u.slotCount then diagonal else u.diagonalAt s := by
  show (u.diagonal.push diagonal).getD s 1 = _
  rw [getD_push, h]
  rfl

theorem isActive_push (h : u.active.size = u.slotCount) (s : Nat) :
    (u.push label diagonal line).isActive s = if s = u.slotCount then true else u.isActive s := by
  show (u.active.push true).getD s false = _
  rw [getD_push, h]
  rfl

theorem slotOf_push (i : Nat) : (u.push label diagonal line).slotOf i =
    if label = i ∧ i < u.slotByLabel.size then u.slotCount else u.slotOf i :=
  getD_setIfInBounds ..

end Push

theorem Copied.push {u : UpperTriangle α} {m : Nat} (h : u.Copied m) (label : Nat) (diagonal : α)
    {line : List (Nat × α)} (hkeys : DistinctKeys line) (hlt : ∀ t ∈ line, t.1 < m) :
    (u.push label diagonal line).Copied m := by
  have hnone : ∀ i y, (u.slotCount, y) ∉ u.row i := fun i y hy =>
    absurd (slot_lt ((h.mem_row i u.slotCount y).mp hy)) (Nat.lt_irrefl _)
  refine ⟨?_, fun s => ?_, fun i => ?_, fun i s x => ?_⟩
  · rw [rows_push, size_scatter, h.size_rows]
  · rw [column_push]
    split
    · exact hkeys
    · exact h.column_keys s
  · rw [row, rows_push]
    exact distinctKeys_scatter hkeys h.row_keys (fun i x _ y => hnone i y) i
  · rw [row, rows_push, mem_scatter, column_push, h.size_rows]
    have hold : (s, x) ∈ u.rows.getD i [] ↔ (i, x) ∈ u.column s := h.mem_row i s x
    rw [hold]
    by_cases hs : s = u.slotCount
    · rw [if_pos hs]
      subst hs
      constructor
      · rintro (hx | hx)
        · exact absurd (slot_lt hx) (Nat.lt_irrefl _)
        · exact hx.2.2
      · intro hx
        exact Or.inr ⟨hlt _ hx, rfl, hx⟩
    · rw [if_neg hs]
      exact ⟨fun hx => hx.elim id fun hx => absurd hx.2.1 hs, Or.inl⟩

/-! ## Replacing a slot -/

section Remove

variable (u : UpperTriangle α) (label slot : Nat)

theorem columns_eraseRow :
    (u.eraseRow label).columns = withdraw label (u.row label) u.columns := rfl

@[simp] theorem slotCount_eraseRow : (u.eraseRow label).slotCount = u.slotCount :=
  size_withdraw ..

theorem row_eraseRow (i : Nat) :
    (u.eraseRow label).row i = if label = i then [] else u.row i :=
  getD_setIfInBounds_default ..

@[simp] theorem slotCount_turnOff : (u.turnOff slot).slotCount = u.slotCount :=
  Array.size_setIfInBounds ..

theorem rows_turnOff : (u.turnOff slot).rows = withdraw slot (u.column slot) u.rows := rfl

theorem column_turnOff (s : Nat) :
    (u.turnOff slot).column s = if slot = s then [] else u.column s :=
  getD_setIfInBounds_default ..

theorem isActive_turnOff (s : Nat) :
    (u.turnOff slot).isActive s = if slot = s then false else u.isActive s :=
  getD_setIfInBounds_default ..

end Remove

/-- What is left in a column when a row has been erased. -/
theorem Copied.mem_column_eraseRow {u : UpperTriangle α} {m : Nat} (h : u.Copied m)
    {label s : Nat} {t : Nat × α} :
    t ∈ (u.eraseRow label).column s ↔ t ∈ u.column s ∧ t.1 ≠ label := by
  rw [column, columns_eraseRow, mem_withdraw h.column_keys]
  refine and_congr_right fun ht => not_congr ⟨And.left, fun e => ⟨e, t.2, ?_⟩⟩
  subst e
  exact (h.mem_row t.1 s t.2).mpr ht

theorem Copied.eraseRow {u : UpperTriangle α} {m : Nat} (h : u.Copied m) (label : Nat) :
    (u.eraseRow label).Copied m := by
  refine ⟨?_, fun s => ?_, fun i => ?_, fun i s x => ?_⟩
  · show (u.rows.setIfInBounds label []).size = m
    rw [Array.size_setIfInBounds, h.size_rows]
  · exact distinctKeys_withdraw h.column_keys s
  · rw [row_eraseRow]
    split
    · exact distinctKeys_nil
    · exact h.row_keys i
  · rw [h.mem_column_eraseRow, ← h.mem_row, row_eraseRow]
    by_cases hl : label = i
    · rw [if_pos hl]
      exact ⟨fun hx => absurd hx List.not_mem_nil, fun hx => absurd hl.symm hx.2⟩
    · rw [if_neg hl]
      exact ⟨fun hx => ⟨hx, Ne.symm hl⟩, And.left⟩

theorem Copied.turnOff {u : UpperTriangle α} {m : Nat} (h : u.Copied m) (slot : Nat) :
    (u.turnOff slot).Copied m := by
  refine ⟨?_, fun s => ?_, fun i => ?_, fun i s x => ?_⟩
  · rw [rows_turnOff, size_withdraw, h.size_rows]
  · rw [column_turnOff]
    split
    · exact distinctKeys_nil
    · exact h.column_keys s
  · exact distinctKeys_withdraw h.row_keys i
  · rw [row, rows_turnOff, mem_withdraw h.row_keys, column_turnOff]
    have hold : (s, x) ∈ u.rows.getD i [] ↔ (i, x) ∈ u.column s := h.mem_row i s x
    rw [hold]
    by_cases hs : slot = s
    · rw [if_pos hs]
      subst hs
      exact ⟨fun hx => absurd ⟨rfl, x, hx.1⟩ hx.2, fun hx => absurd hx List.not_mem_nil⟩
    · rw [if_neg hs]
      exact ⟨And.left, fun hx => ⟨hx, fun h' => hs h'.1.symm⟩⟩

/-- The triangle in which the slot of a label is replaced by a new one at the
end. -/
def replace (u : UpperTriangle α) (label : Nat) (diagonal : α) (line : List (Nat × α)) :
    UpperTriangle α :=
  ((u.eraseRow label).turnOff (u.slotOf label)).push label diagonal line

section Replace

variable {u : UpperTriangle α} {m : Nat} (h : u.WellFormed m) (label : Nat) (diagonal : α)
  (line : List (Nat × α))

@[simp] theorem slotCount_replace :
    (u.replace label diagonal line).slotCount = u.slotCount + 1 := by
  rw [replace, slotCount_push, slotCount_turnOff, slotCount_eraseRow]

theorem slotCount_removed : ((u.eraseRow label).turnOff (u.slotOf label)).slotCount =
    u.slotCount := by
  rw [slotCount_turnOff, slotCount_eraseRow]

include h

theorem mem_column_replace {s : Nat} {t : Nat × α} :
    t ∈ (u.replace label diagonal line).column s ↔ if s = u.slotCount then t ∈ line
      else t ∈ u.column s ∧ s ≠ u.slotOf label ∧ t.1 ≠ label := by
  rw [replace, column_push, slotCount_removed]
  by_cases hs : s = u.slotCount
  · rw [if_pos hs, if_pos hs]
  · rw [if_neg hs, if_neg hs, column_turnOff]
    by_cases hl : u.slotOf label = s
    · rw [if_pos hl]
      exact ⟨fun ht => absurd ht List.not_mem_nil, fun ht => absurd hl.symm ht.2.1⟩
    · rw [if_neg hl, h.mem_column_eraseRow]
      exact ⟨fun ht => ⟨ht.1, Ne.symm hl, ht.2⟩, fun ht => ⟨ht.1, ht.2.2⟩⟩

theorem labelOf_replace (s : Nat) : (u.replace label diagonal line).labelOf s =
    if s = u.slotCount then label else u.labelOf s := by
  rw [replace, labelOf_push, slotCount_removed]
  · rfl
  · rw [slotCount_removed]
    exact h.size_labelBySlot

theorem diagonalAt_replace [Scalar α] (s : Nat) : (u.replace label diagonal line).diagonalAt s =
    if s = u.slotCount then diagonal else u.diagonalAt s := by
  rw [replace, diagonalAt_push, slotCount_removed]
  · rfl
  · rw [slotCount_removed]
    exact h.size_diagonal

theorem isActive_replace (s : Nat) : (u.replace label diagonal line).isActive s =
    if s = u.slotCount then true else if u.slotOf label = s then false else u.isActive s := by
  rw [replace, isActive_push, slotCount_removed, isActive_turnOff]
  · rfl
  · rw [slotCount_removed]
    exact (Array.size_setIfInBounds ..).trans h.size_active

theorem slotOf_replace (hlabel : label < m) (i : Nat) :
    (u.replace label diagonal line).slotOf i =
      if label = i then u.slotCount else u.slotOf i := by
  rw [replace, slotOf_push, slotCount_removed]
  show (if label = i ∧ i < u.slotByLabel.size then u.slotCount else u.slotOf i) = _
  rw [h.size_slotByLabel]
  by_cases hi : label = i
  · rw [if_pos ⟨hi, hi ▸ hlabel⟩, if_pos hi]
  · rw [if_neg fun h' => hi h'.1, if_neg hi]

/-- A slot that stays in use is that of another label. -/
theorem other_of_isActive_replace {s : Nat}
    (hs : (u.replace label diagonal line).isActive s = true) (hne : s ≠ u.slotCount) :
    u.isActive s = true ∧ label ≠ u.labelOf s := by
  rw [isActive_replace h, if_neg hne] at hs
  by_cases hl : u.slotOf label = s
  · rw [if_pos hl] at hs
    exact absurd hs Bool.false_ne_true
  · rw [if_neg hl] at hs
    refine ⟨hs, fun he => hl ?_⟩
    rw [he, h.slotOf_labelOf s hs]

/-- The entries of the new slot may lie at all other labels. -/
theorem WellFormed.replace (hlabel : label < m) (hkeys : DistinctKeys line)
    (hline : ∀ t ∈ line, t.1 < m ∧ t.1 ≠ label) :
    (u.replace label diagonal line).WellFormed m := by
  have hcopied : (u.replace label diagonal line).Copied m :=
    ((h.toCopied.eraseRow label).turnOff _).push label diagonal hkeys fun t ht => (hline t ht).1
  have hslot : ∀ i, i < m → u.slotOf i < u.slotCount := fun i hi =>
    h.lt_slotCount (h.isActive_slotOf i hi)
  have hother := fun s => other_of_isActive_replace h label diagonal line (s := s)
  refine { hcopied with
    size_diagonal := ?_
    size_labelBySlot := ?_
    size_active := ?_
    size_slotByLabel := ?_
    labelOf_lt := fun s hs => ?_
    slotOf_labelOf := fun s hs => ?_
    isActive_slotOf := fun i hi => ?_
    labelOf_slotOf := fun i hi => ?_
    isActive_of_mem := fun s t ht => ?_
    slotOf_lt_of_mem := fun s t ht => ?_ }
  · rw [slotCount_replace, ← h.size_diagonal]
    exact Array.size_push ..
  · rw [slotCount_replace, ← h.size_labelBySlot]
    exact Array.size_push ..
  · rw [slotCount_replace, ← h.size_active]
    exact (Array.size_push ..).trans (congrArg (· + 1) (Array.size_setIfInBounds ..))
  · rw [← h.size_slotByLabel]
    exact Array.size_setIfInBounds ..
  · rw [labelOf_replace h]
    by_cases hn : s = u.slotCount
    · rw [if_pos hn]
      exact hlabel
    · rw [if_neg hn]
      exact h.labelOf_lt s (hother s hs hn).1
  · rw [labelOf_replace h, slotOf_replace h label diagonal line hlabel]
    by_cases hn : s = u.slotCount
    · rw [if_pos hn, if_pos rfl]
      exact hn.symm
    · obtain ⟨hactive, hlabels⟩ := hother s hs hn
      rw [if_neg hn, if_neg hlabels]
      exact h.slotOf_labelOf s hactive
  · rw [slotOf_replace h label diagonal line hlabel, isActive_replace h]
    by_cases hi' : label = i
    · rw [if_pos hi', if_pos rfl]
    · rw [if_neg hi', if_neg (Nat.ne_of_lt (hslot i hi)), if_neg (h.slotOf_ne hlabel hi hi')]
      exact h.isActive_slotOf i hi
  · rw [slotOf_replace h label diagonal line hlabel, labelOf_replace h]
    by_cases hi' : label = i
    · rw [if_pos hi', if_pos rfl]
      exact hi'
    · rw [if_neg hi', if_neg (Nat.ne_of_lt (hslot i hi))]
      exact h.labelOf_slotOf i hi
  · rw [mem_column_replace h] at ht
    rw [isActive_replace h]
    by_cases hn : s = u.slotCount
    · rw [if_pos hn]
    · rw [if_neg hn] at ht ⊢
      rw [if_neg (Ne.symm ht.2.1)]
      exact h.isActive_of_mem s t ht.1
  · rw [mem_column_replace h] at ht
    rw [slotOf_replace h label diagonal line hlabel]
    by_cases hn : s = u.slotCount
    · rw [if_pos hn] at ht
      rw [if_neg (Ne.symm (hline t ht).2), hn]
      exact hslot t.1 (hline t ht).1
    · rw [if_neg hn] at ht
      rw [if_neg (Ne.symm ht.2.2)]
      exact h.slotOf_lt_of_mem s t ht.1

end Replace
end UpperTriangle
end DualSimplex
