import DualSimplex.Proofs.Draft.Access

/-!
# Every slot once

A matrix without gaps can be transposed if its positions are below its width: no line has to
hold anything, and a line may have several entries at one position.  The new lines have the
entries of the old ones, and on the way to them every slot is written once.
-/

namespace DualSimplex

open Scalar

namespace Matrix

variable {α : Type}

/-! ## Writes -/

/-- The writes that put entries into their slots, each with its slot. -/
def Scatter.writes (s : Scatter α) : List (Nat × Nat × α) → List (Nat × Nat × α)
  | [] => []
  | u :: rest => (s.next.getD u.1 0, u.2) :: (s.place u.2.1 (u.1, u.2.2)).writes rest

/-- Where the entries go, one after the other. -/
def Scatter.slots (s : Scatter α) (rest : List (Nat × Nat × α)) : List Nat :=
  (s.writes rest).map Prod.fst

/-- What is stored in the end is what has been written. -/
theorem Scatter.foldl_place_eq (s : Scatter α) (rest : List (Nat × Nat × α)) :
    (rest.foldl (fun s u => s.place u.2.1 (u.1, u.2.2)) s).index =
      (s.writes rest).foldl (fun xs w => xs.setIfInBounds w.1 w.2.1) s.index ∧
    (rest.foldl (fun s u => s.place u.2.1 (u.1, u.2.2)) s).value =
      (s.writes rest).foldl (fun xs w => xs.setIfInBounds w.1 w.2.2) s.value := by
  induction rest generalizing s with
  | nil => exact ⟨rfl, rfl⟩
  | cons u rest ih => exact ih (s.place u.2.1 (u.1, u.2.2))

theorem Scatter.length_slots (s : Scatter α) (rest : List (Nat × Nat × α)) :
    (s.slots rest).length = rest.length := by
  induction rest generalizing s with
  | nil => rfl
  | cons u rest ih => exact congrArg (· + 1) (ih (s.place u.2.1 (u.1, u.2.2)))

variable [Scalar α] {entries done rest : List (Nat × Nat × α)} {width : Nat} {s : Scatter α}

/-- An entry goes to a slot of its key that no earlier entry has. -/
theorem Scatter.Filled.mem_slots (h : s.Filled entries width done) (hrest : done ++ rest = entries)
    (hlt : ∀ u ∈ rest, u.1 < width) {slot : Nat} (hslot : slot ∈ s.slots rest) :
    ∃ i d, i < width ∧ slot = firstSlot entries i + d ∧ (ofKey done i).length ≤ d ∧
      d < (ofKey entries i).length := by
  induction rest generalizing done s with
  | nil => exact absurd hslot List.not_mem_nil
  | cons u rest ih =>
    have hu := hlt u List.mem_cons_self
    have hpart : (done ++ [u]) <+: entries := ⟨rest, by rw [← List.append_cons, hrest]⟩
    rcases List.mem_cons.mp hslot with rfl | hslot
    · exact ⟨u.1, (ofKey done u.1).length, hu, h.next u.1 hu, le_rfl, length_ofKey_lt hpart⟩
    · rw [List.append_cons] at hrest
      obtain ⟨i, d, hi, hd, hle, hd'⟩ := ih (h.place hpart hu) hrest
        (fun v hv => hlt v (List.mem_cons_of_mem u hv)) hslot
      rw [length_ofKey_append_singleton] at hle
      exact ⟨i, d, hi, hd, (Nat.le_add_right _ _).trans hle, hd'⟩

theorem Scatter.Filled.nodup_slots (h : s.Filled entries width done)
    (hrest : done ++ rest = entries) (hlt : ∀ u ∈ rest, u.1 < width) : (s.slots rest).Nodup := by
  induction rest generalizing done s with
  | nil => exact List.nodup_nil
  | cons u rest ih =>
    have hu := hlt u List.mem_cons_self
    have hlt' : ∀ v ∈ rest, v.1 < width := fun v hv => hlt v (List.mem_cons_of_mem u hv)
    have hpart : (done ++ [u]) <+: entries := ⟨rest, by rw [← List.append_cons, hrest]⟩
    rw [List.append_cons] at hrest
    have hplaced := h.place hpart hu
    refine List.nodup_cons.mpr ⟨fun hslot => ?_, ih hplaced hrest hlt'⟩
    -- A later slot is further behind if its key is the same.
    obtain ⟨i, d, -, heq, hle, hd⟩ := hplaced.mem_slots hrest hlt' hslot
    rw [h.next u.1 hu] at heq
    by_cases hui : u.1 = i
    · rw [length_ofKey_append_singleton, if_pos hui] at hle
      subst hui
      omega
    · exact slot_ne hui (length_ofKey_lt hpart) hd heq

/-- Every slot is written once. -/
theorem Scatter.Filled.slots_perm (h : s.Filled entries width [])
    (hlt : ∀ u ∈ entries, u.1 < width) : (s.slots entries).Perm (List.range entries.length) := by
  have hsubset : s.slots entries ⊆ List.range entries.length := by
    intro slot hslot
    obtain ⟨i, d, -, rfl, -, hd⟩ := h.mem_slots rfl hlt hslot
    exact List.mem_range.mpr (firstSlot_add_lt hd)
  refine (List.subperm_of_subset (h.nodup_slots rfl hlt) hsubset).perm_of_length_le ?_
  rw [List.length_range, s.length_slots]

/-! ## Matrices without gaps -/

variable {a : Matrix α} {n : Nat}

/-- Behind the last line there are no entries. -/
theorem Compressed.line_eq_nil (h : a.Compressed n) {k : Nat} (hk : n ≤ k) : a.line k = [] := by
  have hend : a.start.getD (k + 1) 0 = 0 := getD_of_size_le (by rw [h.size_start]; omega) 0
  rw [line, hend, Nat.zero_sub]
  rfl

/-- The positions of a line are stored next to each other. -/
theorem Compressed.map_line (h : a.Compressed n) {k : Nat} (hk : k < n) :
    (a.line k).map Prod.fst = (a.index.toList.drop (a.start.getD k 0)).take
      (a.start.getD (k + 1) 0 - a.start.getD k 0) := by
  have hle := h.le_succ k hk
  have hlast := h.start_le_size (show k + 1 ≤ n from hk)
  rw [Matrix.line, List.map_map]
  refine List.ext_getElem ?_ fun d hd hd' => ?_
  · rw [List.length_map, List.length_range, List.length_take, List.length_drop,
      Array.length_toList]
    omega
  · rw [List.length_map, List.length_range] at hd
    rw [List.getElem_map, List.getElem_range, List.getElem_take, List.getElem_drop,
      Array.getElem_toList]
    exact getD_eq_getElem (by omega) 0

theorem Compressed.flatMap_line (h : a.Compressed n) {k : Nat} (hk : k ≤ n) :
    ((List.range k).flatMap fun j => (a.line j).map Prod.fst) =
      a.index.toList.take (a.start.getD k 0) := by
  induction k with
  | zero => rw [h.first, List.take_zero, List.range_zero, List.flatMap_nil]
  | succ k ih =>
    rw [List.range_succ, List.flatMap_append, ih (by omega), List.flatMap_singleton,
      h.map_line hk, ← List.take_add, Nat.add_sub_cancel' (h.le_succ k hk)]

/-- A matrix without gaps can be transposed, if its positions are below its width. -/
theorem Compressed.lined (h : a.Compressed a.lineCount) (hlt : ∀ i ∈ a.index, i < a.width) :
    a.Lined := by
  refine ⟨?_, h.size_value, fun u hu => ?_⟩
  · have hall := h.flatMap_line le_rfl
    rw [h.last, ← Array.length_toList, List.take_length] at hall
    rw [← hall, entriesByPosition, List.map_flatMap]
    simp only [List.map_map]
    rfl
  · obtain ⟨k, hk, hu⟩ := List.mem_flatMap.mp hu
    obtain ⟨v, hv, rfl⟩ := List.mem_map.mp hu
    have hentries := (h.forall_entries (· < a.width) fun _ => True).mp ⟨hlt, fun _ _ => trivial⟩
    exact (hentries k (List.mem_range.mp hk) v hv).1

/-! ## New lines -/

theorem Lined.length_entriesByPosition (h : a.Lined) :
    a.entriesByPosition.length = a.entryCount := by
  rw [entryCount, ← Array.length_toList, h.index_eq, List.length_map]

/-- The entries of a new line come by old lines, and those of one old line in their order. -/
theorem ofKey_entriesByPosition (a : Matrix α) (i : Nat) :
    ofKey a.entriesByPosition i = (List.range a.lineCount).flatMap fun j =>
      ((a.line j).filter fun u => u.1 == i).map fun u => (j, u.2) := by
  rw [ofKey, entriesByPosition, List.filter_flatMap, List.map_flatMap]
  refine List.flatMap_congr fun j _ => ?_
  rw [List.filter_map, List.map_map]
  rfl

/-- What the transpose of a matrix is like. -/
structure Transposed (a b : Matrix α) : Prop where
  /-- The new lines come one after the other, from the first slot to the last. -/
  compressed : b.Compressed a.width
  width_eq : b.width = a.lineCount
  entryCount_eq : b.entryCount = a.entryCount
  /-- A new line has the entries of the old lines at its position, as often as they are stored
  there, by lines and then in stored order. -/
  line_eq : ∀ i, i < a.width → b.line i = (List.range a.lineCount).flatMap fun j =>
    ((a.line j).filter fun u => u.1 == i).map fun u => (j, u.2)

theorem Transposed.lineCount_eq {b : Matrix α} (h : Transposed a b) : b.lineCount = a.width := by
  rw [lineCount, h.compressed.size_start, Nat.add_sub_cancel]

/-- The new lines have positions for the old lines only. -/
theorem Transposed.lt_lineCount {b : Matrix α} (h : Transposed a b) (i : Nat) {u : Nat × α}
    (hu : u ∈ b.line i) : u.1 < a.lineCount := by
  by_cases hi : i < a.width
  · rw [h.line_eq i hi] at hu
    obtain ⟨j, hj, hu⟩ := List.mem_flatMap.mp hu
    obtain ⟨v, -, rfl⟩ := List.mem_map.mp hu
    exact List.mem_range.mp hj
  · rw [h.compressed.line_eq_nil (not_lt.mp hi)] at hu
    exact absurd hu List.not_mem_nil

theorem Lined.transposed (h : a.Lined) : Transposed a a.transpose := by
  have hstart : ∀ i, i ≤ a.width →
      a.transpose.start.getD i 0 = firstSlot a.entriesByPosition i := fun i hi => h.getD_start hi
  have hsize : a.transpose.index.size = a.entriesByPosition.length := by
    rw [transpose_eq]
    exact h.filled_placed.size_index
  refine ⟨⟨?_, ?_, ?_, ?_, fun i hi => ?_⟩, rfl, ?_, fun i hi => ?_⟩
  · exact (size_accumulateCounts a.tally).trans a.getD_tally.1
  · rw [transpose_eq]
    exact h.filled_placed.size_value.trans h.filled_placed.size_index.symm
  · rw [hstart 0 (Nat.zero_le _), firstSlot_zero]
  · rw [hstart a.width le_rfl, hsize]
    exact List.countP_eq_length.mpr fun u hu => decide_eq_true (h.lt_width u hu)
  · rw [hstart i hi.le, hstart (i + 1) hi]
    exact firstSlot_mono (Nat.le_succ i)
  · exact hsize.trans h.length_entriesByPosition
  · rw [h.line_transpose hi, ofKey_entriesByPosition]

/-- The writes of a transposition, in the order in which they are made. -/
def writes (a : Matrix α) : List (Nat × Nat × α) :=
  a.unplaced.writes a.entriesByPosition

theorem transpose_eq_writes (a : Matrix α) : a.transpose.index =
      a.writes.foldl (fun xs w => xs.setIfInBounds w.1 w.2.1) (Array.replicate a.index.size 0) ∧
    a.transpose.value =
      a.writes.foldl (fun xs w => xs.setIfInBounds w.1 w.2.2) (Array.replicate a.value.size 0) := by
  rw [transpose_eq]
  exact a.unplaced.foldl_place_eq a.entriesByPosition

/-- The transpose of a matrix without gaps has its entries by position.  It is made without an
access out of range, and each of its slots is written once. -/
theorem transpose_sorts_entries (h : a.Compressed a.lineCount) (hlt : ∀ i ∈ a.index, i < a.width) :
    a.guardedTranspose = some a.transpose ∧ Transposed a a.transpose ∧
    (a.writes.map Prod.fst).Perm (List.range a.entryCount) ∧
    a.transpose.index =
      a.writes.foldl (fun xs w => xs.setIfInBounds w.1 w.2.1) (Array.replicate a.index.size 0) ∧
    a.transpose.value =
      a.writes.foldl (fun xs w => xs.setIfInBounds w.1 w.2.2) (Array.replicate a.value.size 0) := by
  have hlined := h.lined hlt
  refine ⟨hlined.guardedTranspose_eq h, hlined.transposed, ?_, a.transpose_eq_writes⟩
  rw [← hlined.length_entriesByPosition]
  exact hlined.filled_unplaced.slots_perm hlined.lt_width

/-- A matrix of three lines, one of them empty, with two entries at one position and none at
two others. -/
def gappy : Matrix (Exact 0) where
  start := #[0, 2, 2, 5]
  index := #[2, 0, 0, 2, 2]
  value := #[1, .ofRat 2, .ofRat 3, .ofRat 4, .ofRat 5]
  width := 4

theorem transpose_sorts_gappy : gappy.guardedTranspose = some gappy.transpose ∧
    gappy.transpose.start = #[0, 2, 2, 5, 5] ∧
    gappy.transpose.lines = [[(0, .ofRat 2), (2, .ofRat 3)], [],
      [(0, 1), (2, .ofRat 4), (2, .ofRat 5)], []] ∧
    (gappy.writes.map Prod.fst).Perm (List.range 5) := by
  have hcompressed : gappy.Compressed gappy.lineCount :=
    ⟨rfl, rfl, rfl, rfl, by decide⟩
  obtain ⟨hguarded, htransposed, hperm, -⟩ := transpose_sorts_entries hcompressed (by decide)
  refine ⟨hguarded, by decide, ?_, hperm⟩
  rw [lines, htransposed.lineCount_eq]
  exact (List.map_congr_left fun i hi => htransposed.line_eq i (List.mem_range.mp hi)).trans
    (by decide)

end Matrix
end DualSimplex
