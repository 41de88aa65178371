import DualSimplex.Proofs.Factor.CountLists
import DualSimplex.Proofs.Factor.Factoring

/-!
# Counts and maxima of an active submatrix

Only lines that an elimination has touched are counted anew, and only columns that it has
touched are searched for their largest magnitude.  Since it leaves all other lines alone,
what is known of the lines that are left is up to date after every decision.
-/

namespace DualSimplex

open Scalar

variable {α : Type}

namespace Active

variable [Scalar α] {a : Active α}

/-! ## What is known of the lines that are left -/

/-- The open columns and rows are counted under their lengths, and the largest magnitudes of
the open columns are known. -/
structure UpToDate (a : Active α) (m : Nat) (columnOpen rowOpen : Nat → Prop) : Prop where
  size_peaks : a.columnPeaks.size = m
  peak : ∀ j, columnOpen j → a.columnPeaks.getD j 0 = largest (a.column j)
  columns : a.columnsByCount.Counts m columnOpen fun j => (a.column j).length
  rows : a.rowsByCount.Counts m rowOpen fun i => (a.row i).length

variable {m : Nat} {columnOpen rowOpen : Nat → Prop}

theorem row_eliminate (a : Active α) (row column : Nat) (pivot : α) (i : Nat) :
    (a.eliminate row column pivot).active.row i =
      ((a.strip row column).subtractProduct (a.eliminate row column pivot).lowerColumn
        (a.eliminate row column pivot).upperRow).row i := by
  rw [Active.row, Active.row, rows_eliminate]

theorem columnPeaks_eliminate (a : Active α) (row column : Nat) (pivot : α) :
    (a.eliminate row column pivot).active.columnPeaks = (a.others row column).foldl
      (fun peaks j => peaks.setIfInBounds j
        (largest ((a.eliminate row column pivot).active.column j)))
      ((a.strip row column).subtractProduct (a.eliminate row column pivot).lowerColumn
        (a.eliminate row column pivot).upperRow).columnPeaks := by
  dsimp only [eliminate, recount, strip, below, others]
  rfl

theorem rowsByCount_eliminate (a : Active α) (row column : Nat) (pivot : α) :
    (a.eliminate row column pivot).active.rowsByCount =
      ((a.below row column).map Prod.fst).foldl
        (fun l i => l.update i ((a.eliminate row column pivot).active.row i).length)
        (((a.strip row column).subtractProduct (a.eliminate row column pivot).lowerColumn
          (a.eliminate row column pivot).upperRow).rowsByCount.remove row) := by
  dsimp only [eliminate, recount, strip, below, others]
  rfl

omit [Scalar α] in
theorem WellFormed.length_row_le (h : a.WellFormed m) (i : Nat) : (a.row i).length ≤ m := by
  have hsub : (a.row i).Subperm (List.range m) := (h.row_nodup i).subperm fun j hj => by
    obtain ⟨x, hx⟩ := (h.mem_row i j).mp hj
    exact List.mem_range.mpr (h.column_lt hx)
  have := hsub.length_le
  rwa [List.length_range] at this

/-- Eliminating a pivot closes its row and its column. -/
theorem UpToDate.eliminate (h : a.UpToDate m columnOpen rowOpen) (ha : a.WellFormed m)
    (hopen : ∀ i j x, (i, x) ∈ a.column j → columnOpen j ∧ rowOpen i) (row column : Nat)
    (pivot : α) : (a.eliminate row column pivot).active.UpToDate m
      (fun j => columnOpen j ∧ j ≠ column) (fun i => rowOpen i ∧ i ≠ row) := by
  obtain ⟨hwell, -⟩ := ha.eliminate row column pivot
  obtain ⟨hkeys, hbelow⟩ := ha.below_spec row column
  have htouches := ha.touches_eliminate row column pivot
  have hcolumn : ∀ j, j ≠ column → j ∉ a.others row column →
      (a.eliminate row column pivot).active.column j = a.column j := fun j hj hothers => by
    rw [column_eliminate, htouches.column j (List.not_mem_cons_of_ne_of_not_mem hj hothers)]
  have hrow : ∀ i, i ≠ row → i ∉ (a.below row column).map Prod.fst →
      (a.eliminate row column pivot).active.row i = a.row i := fun i hi hrows => by
    rw [row_eliminate, htouches.row i (List.not_mem_cons_of_ne_of_not_mem hi hrows)]
  have hothers : ∀ j ∈ a.others row column, (columnOpen j ∧ j ≠ column) ∧ j < m := fun j hj => by
    obtain ⟨hne, x, hx⟩ := (ha.mem_others ..).mp hj
    exact ⟨⟨(hopen row j x hx).1, hne⟩, ha.column_lt hx⟩
  have hrows : ∀ i ∈ (a.below row column).map Prod.fst, (rowOpen i ∧ i ≠ row) ∧ i < m :=
    fun i hi => by
      obtain ⟨t, ht, rfl⟩ := List.mem_map.mp hi
      obtain ⟨hx, hne⟩ := (hbelow t).mp ht
      exact ⟨⟨(hopen t.1 column t.2 hx).2, hne⟩, ha.row_lt hx⟩
  refine ⟨?_, fun j hj => ?_, ?_, ?_⟩
  · rw [columnPeaks_eliminate, htouches.columnPeaks]
    exact (size_foldl_set id _ _ _).trans h.size_peaks
  · rw [columnPeaks_eliminate, htouches.columnPeaks]
    by_cases hmem : j ∈ a.others row column
    · exact getD_foldl_set_of_mem id _ (by rw [List.map_id]; exact (ha.row_nodup row).filter _) hmem
        (h.size_peaks.symm ▸ (hothers j hmem).2) 0
    · refine (getD_foldl_set_of_notMem id _ (fun k hk (e : k = j) => hmem (e ▸ hk)) _ 0).trans ?_
      rw [h.peak j hj.1, hcolumn j hj.2 hmem]
  · rw [columnsByCount_eliminate, htouches.columnsByCount]
    refine (h.columns.remove column).foldl_update (fun j hj => ?_) fun j hj hmem => ?_
    · exact ⟨(hothers j hj).1, (hothers j hj).2, Factoring.length_column_le hwell j⟩
    · rw [hcolumn j hj.2 hmem]
  · rw [rowsByCount_eliminate, htouches.rowsByCount]
    refine (h.rows.remove row).foldl_update (fun i hi => ?_) fun i hi hmem => ?_
    · exact ⟨(hrows i hi).1, (hrows i hi).2, hwell.length_row_le i⟩
    · rw [hrow i hi.2 hmem]

theorem columnPeaks_giveUp (a : Active α) (j : Nat) : (a.giveUp j).columnPeaks =
    (((a.column j).map Prod.fst).foldl (fun a i => a.dropPosition i j) a).columnPeaks := rfl

theorem rowsByCount_giveUp (a : Active α) (j : Nat) : (a.giveUp j).rowsByCount =
    ((a.column j).map Prod.fst).foldl (fun l i => l.update i ((a.giveUp j).row i).length)
      (((a.column j).map Prod.fst).foldl (fun a i => a.dropPosition i j) a).rowsByCount := rfl

/-- Giving up a column closes it. -/
theorem UpToDate.giveUp (h : a.UpToDate m columnOpen rowOpen) (ha : a.WellFormed m)
    (hopen : ∀ i j x, (i, x) ∈ a.column j → columnOpen j ∧ rowOpen i) (column : Nat) :
    (a.giveUp column).UpToDate m (fun j => columnOpen j ∧ j ≠ column) rowOpen := by
  obtain ⟨hwell, -⟩ := ha.giveUp column
  have htouches := a.touches_dropColumn column
  have hcolumn : ∀ j, j ≠ column → (a.giveUp column).column j = a.column j := fun j hj => by
    rw [Active.column, columns_giveUp, getD_setIfInBounds_ne hj.symm]
    exact htouches.column j List.not_mem_nil
  have hrow : ∀ i, i ∉ (a.column column).map Prod.fst → (a.giveUp column).row i = a.row i :=
    fun i hi => by
      rw [Active.row, rows_giveUp]
      exact htouches.row i hi
  refine ⟨?_, fun j hj => ?_, ?_, ?_⟩
  · rw [columnPeaks_giveUp, htouches.columnPeaks, h.size_peaks]
  · rw [columnPeaks_giveUp, htouches.columnPeaks, h.peak j hj.1, hcolumn j hj.2]
  · rw [columnsByCount_giveUp]
    exact (h.columns.remove column).congr (fun _ => Iff.rfl) fun j hj => by rw [hcolumn j hj.2]
  · rw [rowsByCount_giveUp, htouches.rowsByCount]
    refine h.rows.foldl_update (fun i hi => ?_) fun i _ hmem => by rw [hrow i hmem]
    obtain ⟨t, ht, rfl⟩ := List.mem_map.mp hi
    exact ⟨(hopen t.1 column t.2 ht).2, ha.row_lt ht, hwell.length_row_le t.1⟩

theorem upToDate_ofColumns {columns : List (List (Nat × α))} (h : SquareColumns columns) :
    (ofColumns columns).UpToDate columns.length (· < columns.length) (· < columns.length) := by
  have hwell := wellFormed_ofColumns h
  have hgroup : ∀ {β : Type} (lines : Array (List β)), lines.size = columns.length →
      (∀ k, (lines.getD k []).length ≤ columns.length) →
      (groupLines lines).Counts columns.length (· < columns.length)
        fun k => (lines.getD k []).length := by
    intro β lines hsize hle
    rw [groupLines, hsize]
    exact (CountBuckets.counts_foldr_insert (fun k => (lines.getD k []).length) List.nodup_range
      fun j hj => ⟨List.mem_range.mp hj, hle j⟩).congr (fun _ => List.mem_range.symm) fun _ _ => rfl
  refine ⟨?_, fun j hj => ?_, hgroup _ hwell.size_columns (Factoring.length_column_le hwell),
    hgroup _ hwell.size_rows hwell.length_row_le⟩
  · exact Array.size_map.trans hwell.size_columns
  · have hlt : j < (ofColumns columns).columns.size := hwell.size_columns.symm ▸ hj
    show ((ofColumns columns).columns.map largest).getD j 0 = _
    rw [Active.column, getD_eq_getElem (by simpa using hlt), getD_eq_getElem hlt, Array.getElem_map]

end Active

end DualSimplex
