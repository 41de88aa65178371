import DualSimplex.Proofs.Draft.Acceptance
import Mathlib.Data.List.Perm.Subperm

/-!
# The matrix of an accepted draft

The columns of a program list the nonzero entries of the columns of its draft by increasing row,
and its rows list the same entries by increasing column.  So the program is the same for all
drafts with these entries, whether they are given column by column or by dense rows, and it is
made again from its own parts.
-/

namespace DualSimplex

open Scalar

variable {α : Type}

/-! ## Transposes -/

theorem mem_ofKey {β : Type} {entries : List (Nat × β)} {key : Nat} {x : β} :
    x ∈ ofKey entries key ↔ (key, x) ∈ entries := by
  unfold ofKey
  rw [List.mem_map]
  constructor
  · rintro ⟨u, hu, rfl⟩
    obtain ⟨hu, hkey⟩ := List.mem_filter.mp hu
    rw [← eq_of_beq hkey]
    exact hu
  · intro h
    exact ⟨(key, x), List.mem_filter.mpr ⟨h, beq_self_eq_true key⟩, rfl⟩

namespace Matrix

variable [Scalar α] {a : Matrix α}

theorem mem_entriesByPosition {i k : Nat} {x : α} :
    (i, k, x) ∈ a.entriesByPosition ↔ k < a.lineCount ∧ (i, x) ∈ a.line k := by
  unfold entriesByPosition
  rw [List.mem_flatMap]
  constructor
  · rintro ⟨l, hl, hmem⟩
    obtain ⟨u, hu, heq⟩ := List.mem_map.mp hmem
    obtain ⟨rfl, rfl, rfl⟩ : u.1 = i ∧ l = k ∧ u.2 = x := by simpa using heq
    exact ⟨List.mem_range.mp hl, hu⟩
  · rintro ⟨hk, hmem⟩
    exact ⟨k, List.mem_range.mpr hk, List.mem_map.mpr ⟨(i, x), hmem, rfl⟩⟩

/-- Entries of one position come from different lines, one line after the other. -/
theorem sorted_ofKey (hkeys : ∀ k, k < a.lineCount → DistinctKeys (a.line k)) (i : Nat) :
    (ofKey a.entriesByPosition i).Pairwise fun s t => s.1 < t.1 := by
  have hall : a.entriesByPosition.Pairwise fun u v => u.1 = v.1 → u.2.1 < v.2.1 := by
    unfold entriesByPosition
    rw [List.pairwise_flatMap]
    constructor
    · intro k hk
      have hne := List.pairwise_map.mp (hkeys k (List.mem_range.mp hk))
      exact List.pairwise_map.mpr (hne.imp fun hne heq => absurd heq hne)
    · refine List.pairwise_lt_range.imp fun hkl u hu v hv _ => ?_
      obtain ⟨s, -, rfl⟩ := List.mem_map.mp hu
      obtain ⟨t, -, rfl⟩ := List.mem_map.mp hv
      exact hkl
  unfold ofKey
  rw [List.pairwise_map]
  refine (hall.filter _).imp_of_mem fun hu hv hlt => hlt ?_
  have hu := eq_of_beq (List.mem_filter.mp hu).2
  have hv := eq_of_beq (List.mem_filter.mp hv).2
  exact hu.trans hv.symm

theorem lineCount_transpose (a : Matrix α) : a.transpose.lineCount = a.width := by
  have hsize : (accumulateCounts a.tally).size = a.width + 1 :=
    (size_accumulateCounts a.tally).trans a.getD_tally.1
  show (accumulateCounts a.tally).size - 1 = a.width
  omega

/-! ## Lines given by their number -/

theorem line_ofRange (width n : Nat) (f : Nat → List (Nat × α)) (j : Nat) :
    (ofLines width ((List.range n).map f)).line j = if j < n then f j else [] := by
  rw [line_ofLines, List.getD_eq_getElem?_getD, List.getElem?_map]
  split
  · rename_i hj
    rw [List.getElem?_range hj]
    rfl
  · rename_i hj
    rw [List.getElem?_eq_none (by rw [List.length_range]; omega)]
    rfl

omit [Scalar α] in
theorem compressed_ofRange (width n : Nat) (f : Nat → List (Nat × α)) :
    (ofLines width ((List.range n).map f)).Compressed n := by
  have hlines := compressed_ofLines width ((List.range n).map f)
  rw [List.length_map, List.length_range] at hlines
  exact hlines

/-! ## Dense rows -/

theorem mem_denseColumn {rows : List (List α)} {i j : Nat} {x : α} :
    (i, x) ∈ denseColumn rows j ↔ rows[i]?.bind (·[j]?) = some x ∧ (x == 0) = false := by
  unfold denseColumn
  rw [List.mem_filterMap]
  constructor
  · rintro ⟨⟨row, k⟩, hrow, hentry⟩
    rw [List.mk_mem_zipIdx_iff_getElem?] at hrow
    dsimp only at hentry
    split at hentry
    · rename_i y hy
      split at hentry
      · exact absurd hentry nofun
      · rename_i hne
        obtain ⟨rfl, rfl⟩ := Prod.mk.inj (Option.some.inj hentry)
        rw [hrow]
        exact ⟨hy, Bool.eq_false_iff.mpr hne⟩
    · exact absurd hentry nofun
  · rintro ⟨hentry, hne⟩
    obtain ⟨row, hrow, hx⟩ := Option.bind_eq_some_iff.mp hentry
    refine ⟨(row, i), List.mk_mem_zipIdx_iff_getElem?.mpr hrow, ?_⟩
    dsimp only
    rw [hx]
    exact if_neg (Bool.eq_false_iff.mp hne)

omit [Scalar α] in
/-- Entries whose keys are their places in a list have different keys. -/
theorem distinctKeys_filterMap_zipIdx {β : Type} {f : β × Nat → Option (Nat × α)}
    (hf : ∀ u t, f u = some t → t.1 = u.2) (l : List β) :
    DistinctKeys (l.zipIdx.filterMap f) := by
  have hplace : l.zipIdx.Pairwise fun u v => u.2 ≠ v.2 := by
    rw [← List.pairwise_map, List.zipIdx_map_snd]
    exact List.nodup_range'
  unfold DistinctKeys
  rw [List.Nodup, List.pairwise_map, List.pairwise_filterMap]
  refine hplace.imp fun hne s hs t ht heq => hne ?_
  rw [← hf _ s hs, ← hf _ t ht, heq]

theorem distinctKeys_denseColumn (rows : List (List α)) (j : Nat) :
    DistinctKeys (denseColumn rows j) := by
  refine distinctKeys_filterMap_zipIdx (fun u t ht => ?_) rows
  dsimp only at ht
  split at ht
  · split at ht
    · exact absurd ht (Option.some_ne_none t).symm
    · rw [← Option.some.inj ht]
  · exact absurd ht (Option.some_ne_none t).symm

end Matrix

variable [Scalar α]

/-! ## Bounds -/

theorem Bound.normalize_normalize (infinity : α) (b : Bound α) :
    (b.normalize infinity).normalize infinity = b.normalize infinity := by
  cases b with
  | negInf => rfl
  | posInf => rfl
  | finite x =>
    unfold Bound.normalize
    dsimp only
    by_cases hlarge : infinity ≤ x
    · rw [if_pos hlarge]
    · rw [if_neg hlarge]
      by_cases hsmall : x ≤ -infinity
      · rw [if_pos hsmall]
      · rw [if_neg hsmall]
        dsimp only
        rw [if_neg hlarge, if_neg hsmall]

theorem Bound.isNaN_normalize {infinity : α} {b : Bound α} (h : b.isNaN = false) :
    (b.normalize infinity).isNaN = false := by
  cases b with
  | negInf => rfl
  | posInf => rfl
  | finite x =>
    unfold Bound.normalize
    dsimp only
    split
    · rfl
    · split
      · rfl
      · exact h

namespace Interval

variable {infinity : α} {b : Interval α}

theorem normalized_normalized (infinity : α) (b : Interval α) :
    (b.normalized infinity).normalized infinity = b.normalized infinity := by
  unfold normalized
  dsimp only
  rw [Bound.normalize_normalize, Bound.normalize_normalize]

theorem Usable.normalized (h : b.Usable infinity) : (b.normalized infinity).Usable infinity := by
  refine ⟨Bound.isNaN_normalize h.lower_number, Bound.isNaN_normalize h.upper_number, ?_, ?_, ?_⟩
  · exact fun hc => h.lower_ne ((Bound.normalize_normalize infinity b.lower).symm.trans hc)
  · exact fun hc => h.upper_ne ((Bound.normalize_normalize infinity b.upper).symm.trans hc)
  · show ((b.lower.normalize infinity).normalize infinity).above
      ((b.upper.normalize infinity).normalize infinity) = false
    rw [Bound.normalize_normalize, Bound.normalize_normalize]
    exact h.ordered

end Interval

namespace Draft

/-! ## Tidy columns -/

variable {line line' : List (Nat × α)}

/-- The entries of a column other than explicit zeros. -/
def nonzeros (line : List (Nat × α)) : List (Nat × α) :=
  line.filter fun u => !(u.2 == 0)

theorem mem_nonzeros {u : Nat × α} : u ∈ nonzeros line ↔ u ∈ line ∧ (u.2 == 0) = false := by
  rw [nonzeros, List.mem_filter, Bool.not_eq_true']

theorem mem_tidy {u : Nat × α} : u ∈ tidy line ↔ u ∈ line ∧ (u.2 == 0) = false :=
  (tidy_perm line).mem_iff.trans mem_nonzeros

theorem sorted_tidy (hkeys : DistinctKeys (nonzeros line)) :
    (tidy line).Pairwise fun s t => s.1 < t.1 := by
  have hsorted : (tidy line).Pairwise fun s t => decide (s.1 ≤ t.1) = true := by
    refine List.pairwise_mergeSort (fun s t u hst htu => ?_) (fun s t => ?_) _
    · rw [decide_eq_true_eq] at hst htu ⊢
      exact hst.trans htu
    · rw [Bool.or_eq_true, decide_eq_true_eq, decide_eq_true_eq]
      exact Nat.le_total s.1 t.1
  have hne := List.pairwise_map.mp (hkeys.perm (tidy_perm line))
  refine (hsorted.and hne).imp fun h => ?_
  exact Nat.lt_of_le_of_ne (of_decide_eq_true h.1) h.2

/-- A tidy column is determined by its entries. -/
theorem tidy_congr (hkeys : DistinctKeys (nonzeros line))
    (h : (nonzeros line).Perm (nonzeros line')) : tidy line = tidy line' := by
  have hperm : (tidy line).Perm (tidy line') :=
    (tidy_perm line).trans (h.trans (tidy_perm line').symm)
  have hsorted' : (tidy line').Pairwise fun s t => s.1 < t.1 := sorted_tidy (hkeys.perm h.symm)
  refine List.Perm.eq_of_pairwise (fun s t _ _ hst hts => ?_) (sorted_tidy hkeys) hsorted' hperm
  exact absurd hts (Nat.lt_asymm hst)

theorem tidy_tidy (hkeys : DistinctKeys (nonzeros line)) : tidy (tidy line) = tidy line := by
  refine (tidy_congr hkeys ?_).symm
  have hperm := (tidy_perm line).filter fun u => !(u.2 == 0)
  rw [List.filter_filter] at hperm
  simp only [Bool.and_self] at hperm
  exact hperm.symm

variable {d : Draft α} {lp : LinearProgram α} {a : Matrix α}

/-! ## The matrix of the program -/

theorem line_program (d : Draft α) (j : Nat) : d.program.columns.line j =
    if j < d.columnCount then tidy (d.matrix.line j) else [] :=
  Matrix.line_ofRange d.rowCount d.columnCount _ j

theorem lineCount_program (d : Draft α) : d.program.columns.lineCount = d.columnCount := by
  refine (Matrix.stored_ofLines _ _).2.trans ?_
  rw [List.length_map, List.length_range]

theorem compressed_program (d : Draft α) : d.program.columns.Compressed d.columnCount :=
  Matrix.compressed_ofRange d.rowCount d.columnCount _

theorem Acceptable.row_lt (h : d.Acceptable) {j : Nat} {u : Nat × α}
    (hu : u ∈ d.program.columns.line j) : u.1 < d.rowCount := by
  rw [line_program] at hu
  split at hu
  · rename_i hj
    exact (h.entry hj (mem_tidy.mp hu).1).1
  · exact absurd hu List.not_mem_nil

theorem Acceptable.sorted_program (h : d.Acceptable) (j : Nat) :
    (d.program.columns.line j).Pairwise fun s t => s.1 < t.1 := by
  rw [line_program]
  split
  · rename_i hj
    exact sorted_tidy ((h.keys j hj).filter _)
  · exact List.Pairwise.nil

theorem Acceptable.lined_program (h : d.Acceptable) : d.program.columns.Lined :=
  Matrix.lined_ofLines fun _ _ hu => h.row_lt hu

end Draft

/-- The columns of a program list the nonzero entries of the columns of a draft once each, by
increasing row, and its rows list the same entries once each, by increasing column. -/
structure LinearProgram.Stores (lp : LinearProgram α) (d : Draft α) : Prop where
  columnCount : lp.columns.lineCount = d.columnCount
  rowCount : lp.rows.lineCount = d.rowCount
  column_sorted : ∀ j, j < d.columnCount → (lp.columns.line j).Pairwise fun s t => s.1 < t.1
  mem_column : ∀ i j x, j < d.columnCount → ((i, x) ∈ lp.columns.line j ↔
    i < d.rowCount ∧ (i, x) ∈ d.matrix.line j ∧ (x == 0) = false)
  row_sorted : ∀ i, i < d.rowCount → (lp.rows.line i).Pairwise fun s t => s.1 < t.1
  mem_row : ∀ i j x, i < d.rowCount → ((j, x) ∈ lp.rows.line i ↔
    j < d.columnCount ∧ (i, x) ∈ lp.columns.line j)

namespace Draft

variable {d : Draft α} {lp : LinearProgram α} {a : Matrix α}

theorem Acceptable.stores (h : d.Acceptable) : d.program.Stores d := by
  have hwidth : d.program.columns.width = d.rowCount := Matrix.width_ofLines _ _
  have hrow : ∀ i, i < d.rowCount →
      d.program.rows.line i = ofKey d.program.columns.entriesByPosition i :=
    fun i hi => h.lined_program.line_transpose (hwidth.symm ▸ hi)
  refine ⟨lineCount_program d, ?_, fun j _ => h.sorted_program j, fun i j x hj => ?_,
    fun i hi => ?_, fun i j x hi => ?_⟩
  · exact (Matrix.lineCount_transpose _).trans hwidth
  · rw [line_program, if_pos hj, mem_tidy]
    exact ⟨fun hu => ⟨(h.entry hj hu.1).1, hu⟩, fun hu => hu.2⟩
  · rw [hrow i hi]
    refine Matrix.sorted_ofKey (fun k _ => ?_) i
    exact List.pairwise_map.mpr ((h.sorted_program k).imp Nat.ne_of_lt)
  · rw [hrow i hi, mem_ofKey, Matrix.mem_entriesByPosition, lineCount_program]

/-! ## Other matrices with the same entries -/

theorem program_eq {d' : Draft α} (hsense : d'.sense = d.sense) (hoffset : d'.offset = d.offset)
    (hcosts : d'.costs = d.costs) (hrowCount : d'.rowCount = d.rowCount)
    (hcolumnBounds : (pairs d'.columnLower d'.columnUpper).map (·.normalized d'.infinity) =
      (pairs d.columnLower d.columnUpper).map (·.normalized d.infinity))
    (hrowBounds : (pairs d'.rowLower d'.rowUpper).map (·.normalized d'.infinity) =
      (pairs d.rowLower d.rowUpper).map (·.normalized d.infinity))
    (hcolumnCount : d'.columnCount = d.columnCount) (hlines : ∀ j, j < d.columnCount →
      tidy (d'.matrix.line j) = tidy (d.matrix.line j)) : d'.program = d.program := by
  have hcolumns : ((List.range d'.columnCount).map fun j => tidy (d'.matrix.line j)) =
      (List.range d.columnCount).map fun j => tidy (d.matrix.line j) := by
    rw [hcolumnCount]
    exact List.map_congr_left fun j hj => hlines j (List.mem_range.mp hj)
  unfold program
  dsimp only
  rw [hsense, hoffset, hcosts, hrowCount, hcolumnBounds, hrowBounds, hcolumns]

/-- Drafts that differ in the order of the entries of a column or in explicit zeros make the same
program. -/
theorem build_unique (h : d.build = .ok lp) {lp' : LinearProgram α}
    (h' : ({ d with matrix := a } : Draft α).build = .ok lp')
    (hsame : ∀ j, j < d.columnCount →
      (nonzeros (a.line j)).Perm (nonzeros (d.matrix.line j))) : lp' = lp := by
  obtain ⟨-, rfl⟩ := build_eq_ok_iff.mp h
  obtain ⟨ha, rfl⟩ := build_eq_ok_iff.mp h'
  exact program_eq rfl rfl rfl rfl rfl rfl rfl fun j hj =>
    tidy_congr ((ha.keys j hj).filter _) (hsame j hj)

/-- A draft stays without a fault if entries of its columns change places or are left out. -/
theorem Acceptable.replace (h : d.Acceptable) (ha : a.Compressed d.columnCount)
    (hpart : ∀ j, j < d.columnCount → (a.line j).Subperm (d.matrix.line j)) :
    ({ d with matrix := a } : Draft α).Acceptable := by
  obtain ⟨hrows, hvalues⟩ := (ha.forall_entries (· < d.rowCount) (isFinite · = true)).mpr
    fun j hj u hu => h.entry hj ((hpart j hj).subset hu)
  refine ⟨⟨h.size_costs, h.size_columnLower, h.size_columnUpper, h.size_rowLower,
    h.size_rowUpper, ha.size_start, ha.size_value, ha.first, ha.last⟩, ha.le_succ, h.offset,
    h.costs, hvalues, hrows, fun j hj => ?_, h.columnBounds, h.rowBounds⟩
  obtain ⟨part, hperm, hsublist⟩ := hpart j hj
  exact ((h.keys j hj).sublist hsublist).perm hperm.symm

theorem build_replace (h : d.build = .ok lp) (ha : a.Compressed d.columnCount)
    (hpart : ∀ j, j < d.columnCount → (a.line j).Subperm (d.matrix.line j))
    (hsame : ∀ j, j < d.columnCount →
      (nonzeros (a.line j)).Perm (nonzeros (d.matrix.line j))) :
    ({ d with matrix := a } : Draft α).build = .ok lp := by
  obtain ⟨hd, -⟩ := build_eq_ok_iff.mp h
  have hbuild := build_eq_ok_iff.mpr ⟨hd.replace ha hpart, rfl⟩
  rw [hbuild, build_unique h hbuild hsame]

/-! ## Dense rows -/

/-- The dense rows have the shape of the draft. -/
def Fits (d : Draft α) (rows : List (List α)) : Prop :=
  rows.length = d.rowCount ∧ ∀ row ∈ rows, row.length = d.columnCount

omit [Scalar α] in
theorem fits_iff {rows : List (List α)} : d.Fits rows ↔
    (rows.length == d.rowCount && rows.all fun row => row.length == d.columnCount) = true := by
  rw [Bool.and_eq_true, List.all_eq_true]
  simp only [beq_iff_eq]
  exact Iff.rfl

theorem withDense_of_fits {rows : List (List α)} (hfits : d.Fits rows) :
    d.withDense rows = { d with matrix := Matrix.ofDense rows d.columnCount } := by
  have hwidth : (Matrix.ofDense rows d.columnCount).width = d.rowCount :=
    (Matrix.width_ofLines _ _).trans hfits.1
  unfold withDense withMatrix
  dsimp only
  rw [if_pos (fits_iff.mp hfits), ← hwidth]

/-- Dense rows of another shape are refused. -/
theorem build_withDense_of_not_fits {rows : List (List α)} (hfits : ¬d.Fits rows) :
    ∃ e, (d.withDense rows).build = .error e := by
  have hsize : (d.withDense rows).matrix.start.size = d.columnCount + 2 := by
    have hdense : (Matrix.ofDense rows d.columnCount).start.size = d.columnCount + 1 :=
      (Matrix.compressed_ofRange rows.length d.columnCount (Matrix.denseColumn rows)).size_start
    unfold withDense withMatrix
    dsimp only
    rw [if_neg fun hc => hfits (fits_iff.mpr hc), Array.size_push, hdense]
  cases hbuild : (d.withDense rows).build with
  | error e => exact ⟨e, rfl⟩
  | ok lp =>
    have hstart : (d.withDense rows).matrix.start.size = d.columnCount + 1 :=
      (build_eq_ok_iff.mp hbuild).1.size_start
    omega

/-- Dense rows with the same values make the same program. -/
theorem build_withDense (h : d.build = .ok lp) {rows : List (List α)} (hfits : d.Fits rows)
    (hsame : ∀ i j x, j < d.columnCount → (x == 0) = false →
      ((i, x) ∈ d.matrix.line j ↔ rows[i]?.bind (·[j]?) = some x)) :
    (d.withDense rows).build = .ok lp := by
  have hd := (build_eq_ok_iff.mp h).1
  have hline : ∀ j, j < d.columnCount →
      (Matrix.ofDense rows d.columnCount).line j = Matrix.denseColumn rows j := by
    intro j hj
    exact (Matrix.line_ofRange rows.length d.columnCount _ j).trans (if_pos hj)
  have hmem : ∀ j, j < d.columnCount → ∀ u, u ∈ Matrix.denseColumn rows j ↔
      u ∈ d.matrix.line j ∧ (u.2 == 0) = false := by
    rintro j hj ⟨i, x⟩
    rw [Matrix.mem_denseColumn]
    exact and_congr_left fun hx => (hsame i j x hj hx).symm
  have hnodup := fun j => (Matrix.distinctKeys_denseColumn rows j).nodup
  rw [withDense_of_fits hfits]
  refine build_replace h (Matrix.compressed_ofRange _ _ _) (fun j hj => ?_) fun j hj => ?_
  · rw [hline j hj]
    exact List.subperm_of_subset (hnodup j) fun u hu => ((hmem j hj u).mp hu).1
  · rw [hline j hj]
    refine (List.perm_ext_iff_of_nodup ((hnodup j).filter _)
      ((hd.keys j hj).nodup.filter _)).mpr fun u => ?_
    refine (mem_nonzeros.trans ?_).trans mem_nonzeros.symm
    rw [hmem j hj]
    exact and_iff_left_of_imp And.right

end Draft

/-! ## Making a program again -/

/-- The parts of a program as a draft. -/
def LinearProgram.toDraft (lp : LinearProgram α) (infinity : α) : Draft α where
  rowCount := lp.rowCount
  columnCount := lp.columnCount
  sense := lp.sense
  offset := lp.offset
  costs := lp.costs
  columnLower := lp.columnBounds.map (·.lower)
  columnUpper := lp.columnBounds.map (·.upper)
  rowLower := lp.rowBounds.map (·.lower)
  rowUpper := lp.rowBounds.map (·.upper)
  matrix := lp.columns
  infinity := infinity

namespace Draft

variable {d : Draft α}

omit [Scalar α] in
theorem length_pairs (lower upper : Array (Bound α)) :
    (pairs lower upper).length = min lower.size upper.size := by
  simp [pairs]

omit [Scalar α] in
theorem pairs_map (bs : List (Interval α)) :
    pairs (bs.toArray.map (·.lower)) (bs.toArray.map (·.upper)) = bs := by
  simp [pairs, List.zipWith_map]

/-- Bounds that were made infinite stay so. -/
theorem usable_normalized {infinity : α} {bs : List (Interval α)}
    (h : ∀ b ∈ bs, b.Usable infinity) :
    (∀ b ∈ bs.map (·.normalized infinity), b.Usable infinity) ∧
    (bs.map (·.normalized infinity)).map (·.normalized infinity) =
      bs.map (·.normalized infinity) := by
  constructor
  · intro b hb
    obtain ⟨b, hmem, rfl⟩ := List.mem_map.mp hb
    exact (h b hmem).normalized
  · rw [List.map_map]
    exact List.map_congr_left fun b _ => Interval.normalized_normalized infinity b

section Acceptable

variable (h : d.Acceptable)

include h

theorem Acceptable.columnCount_toDraft :
    (d.program.toDraft d.infinity).columnCount = d.columnCount :=
  h.size_costs

theorem Acceptable.size_columnBounds : d.program.columnBounds.size = d.columnCount := by
  refine (List.length_map _).trans ((length_pairs _ _).trans ?_)
  rw [h.size_columnLower, h.size_columnUpper, min_self]

theorem Acceptable.rowCount_toDraft : (d.program.toDraft d.infinity).rowCount = d.rowCount := by
  refine (List.length_map _).trans ((length_pairs _ _).trans ?_)
  rw [h.size_rowLower, h.size_rowUpper, min_self]

theorem Acceptable.toDraft : (d.program.toDraft d.infinity).Acceptable := by
  have hcolumns := h.size_columnBounds.trans h.columnCount_toDraft.symm
  have hcompressed := compressed_program d
  rw [← h.columnCount_toDraft] at hcompressed
  have hentries : ∀ j, j < (d.program.toDraft d.infinity).columnCount →
      ∀ u ∈ d.program.columns.line j,
        u.1 < (d.program.toDraft d.infinity).rowCount ∧ isFinite u.2 = true := by
    intro j hj u hu
    rw [h.columnCount_toDraft] at hj
    rw [line_program, if_pos hj] at hu
    rw [h.rowCount_toDraft]
    exact h.entry hj (mem_tidy.mp hu).1
  obtain ⟨hindex, hvalue⟩ := (hcompressed.forall_entries
    (· < (d.program.toDraft d.infinity).rowCount) (isFinite · = true)).mpr hentries
  refine ⟨⟨rfl, ?_, ?_, ?_, ?_, hcompressed.size_start, hcompressed.size_value, hcompressed.first,
    hcompressed.last⟩, hcompressed.le_succ, h.offset, h.costs, hvalue, hindex, fun j _ => ?_,
    ?_, ?_⟩
  · exact Array.size_map.trans hcolumns
  · exact Array.size_map.trans hcolumns
  · exact Array.size_map
  · exact Array.size_map
  · exact List.pairwise_map.mpr ((h.sorted_program j).imp Nat.ne_of_lt)
  · exact (pairs_map _).symm ▸ (usable_normalized h.columnBounds).1
  · exact (pairs_map _).symm ▸ (usable_normalized h.rowBounds).1

theorem Acceptable.program_toDraft : (d.program.toDraft d.infinity).program = d.program := by
  refine program_eq rfl rfl rfl h.rowCount_toDraft ?_ ?_ h.columnCount_toDraft fun j hj => ?_
  · exact (congrArg _ (pairs_map _)).trans (usable_normalized h.columnBounds).2
  · exact (congrArg _ (pairs_map _)).trans (usable_normalized h.rowBounds).2
  · show tidy (d.program.columns.line j) = _
    rw [line_program, if_pos hj, tidy_tidy ((h.keys j hj).filter _)]

end Acceptable

theorem size_columnBounds_of_build {lp : LinearProgram α} (h : d.build = .ok lp) :
    lp.columnBounds.size = lp.columnCount := by
  obtain ⟨hd, rfl⟩ := build_eq_ok_iff.mp h
  exact hd.size_columnBounds.trans hd.size_costs.symm

/-- A program is made again from its own parts. -/
theorem build_toDraft {lp : LinearProgram α} (h : d.build = .ok lp) :
    (lp.toDraft d.infinity).build = .ok lp := by
  obtain ⟨hd, rfl⟩ := build_eq_ok_iff.mp h
  exact build_eq_ok_iff.mpr ⟨hd.toDraft, hd.program_toDraft.symm⟩

end Draft
end DualSimplex
