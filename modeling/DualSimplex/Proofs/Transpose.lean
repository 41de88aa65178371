import DualSimplex.Proofs.Exact
import DualSimplex.Proofs.Program

/-!
# Transposes by counting

The entries of a matrix are counted by position, which gives each new line its slots, and
then put into the slots one after the other.  So the new line at a position has the entries
with that position, in the order in which they come.
-/

namespace DualSimplex

/-! ## Slots -/

section Slots

variable {β : Type} (entries : List (Nat × β))

/-- Where the slots of a key begin: behind those of the smaller keys. -/
def firstSlot (key : Nat) : Nat :=
  entries.countP fun u => decide (u.1 < key)

/-- What belongs to a key, in order. -/
def ofKey (key : Nat) : List β :=
  (entries.filter fun u => u.1 == key).map Prod.snd

variable {entries}

theorem firstSlot_zero : firstSlot entries 0 = 0 :=
  List.countP_eq_zero.mpr fun u _ => by simp

theorem length_ofKey (key : Nat) :
    (ofKey entries key).length = entries.countP fun u => u.1 == key := by
  rw [ofKey, List.length_map, List.countP_eq_length_filter]

theorem firstSlot_succ (key : Nat) :
    firstSlot entries (key + 1) = firstSlot entries key + (ofKey entries key).length := by
  rw [length_ofKey]
  unfold firstSlot
  induction entries with
  | nil => rfl
  | cons u entries ih =>
    rw [List.countP_cons, List.countP_cons, List.countP_cons, ih]
    by_cases hkey : u.1 = key
    · simp [hkey]
      omega
    · by_cases hlt : u.1 < key
      · simp [hkey, hlt, show u.1 < key + 1 by omega]
        omega
      · simp [hkey, hlt, show ¬u.1 < key + 1 by omega]

theorem firstSlot_mono {key key' : Nat} (h : key ≤ key') :
    firstSlot entries key ≤ firstSlot entries key' :=
  List.countP_mono_left fun u _ hu => by
    rw [decide_eq_true_eq] at hu ⊢
    omega

theorem firstSlot_le (key : Nat) : firstSlot entries key ≤ entries.length :=
  List.countP_le_length

/-- The slots of different keys are apart. -/
theorem slot_ne {key key' d d' : Nat} (hkey : key ≠ key') (hd : d < (ofKey entries key).length)
    (hd' : d' < (ofKey entries key').length) :
    firstSlot entries key + d ≠ firstSlot entries key' + d' := by
  have hnext : firstSlot entries (key + 1) = _ := firstSlot_succ key
  have hnext' : firstSlot entries (key' + 1) = _ := firstSlot_succ key'
  rcases Nat.lt_or_gt_of_ne hkey with hlt | hlt
  · have hle : firstSlot entries (key + 1) ≤ firstSlot entries key' := firstSlot_mono hlt
    omega
  · have hle : firstSlot entries (key' + 1) ≤ firstSlot entries key := firstSlot_mono hlt
    omega

theorem ofKey_append (entries entries' : List (Nat × β)) (key : Nat) :
    ofKey (entries ++ entries') key = ofKey entries key ++ ofKey entries' key := by
  rw [ofKey, List.filter_append, List.map_append]
  rfl

theorem ofKey_singleton (u : Nat × β) (key : Nat) :
    ofKey [u] key = if u.1 = key then [u.2] else [] := by
  unfold ofKey
  by_cases hkey : u.1 = key
  · simp [hkey]
  · simp [hkey]

theorem length_ofKey_append_singleton (entries : List (Nat × β)) (u : Nat × β) (key : Nat) :
    (ofKey (entries ++ [u]) key).length =
      (ofKey entries key).length + if u.1 = key then 1 else 0 := by
  rw [ofKey_append, ofKey_singleton, List.length_append]
  split
  · rfl
  · rfl

theorem length_ofKey_le {done : List (Nat × β)} (h : done <+: entries) (key : Nat) :
    (ofKey done key).length ≤ (ofKey entries key).length := by
  obtain ⟨rest, rfl⟩ := h
  rw [ofKey_append, List.length_append]
  exact Nat.le_add_right _ _

/-- Some slot of a key is left as long as not all of its entries are done. -/
theorem length_ofKey_lt {done : List (Nat × β)} {u : Nat × β} (h : (done ++ [u]) <+: entries) :
    (ofKey done u.1).length < (ofKey entries u.1).length := by
  have hle := length_ofKey_le h u.1
  rw [length_ofKey_append_singleton, if_pos rfl] at hle
  omega

/-- The slots of all keys are among those of the entries. -/
theorem firstSlot_add_lt {key d : Nat} (hd : d < (ofKey entries key).length) :
    firstSlot entries key + d < entries.length := by
  have hnext : firstSlot entries (key + 1) = _ := firstSlot_succ key
  have hle : firstSlot entries (key + 1) ≤ entries.length := firstSlot_le (key + 1)
  omega

end Slots

namespace Matrix

variable {α : Type}

/-! ## Counts -/

/-- A running sum is known by its start and its steps. -/
theorem getD_accumulateCounts {counts : Array Nat} {f : Nat → Nat} (hzero : counts.getD 0 0 = f 0)
    (hsucc : ∀ k, k + 1 < counts.size → f (k + 1) = counts.getD (k + 1) 0 + f k) {k : Nat}
    (hk : k < counts.size) : (accumulateCounts counts).getD k 0 = f k := by
  have hfold : ∀ n, n < counts.size → ∀ c, (List.range n).foldl
      (fun c i => c.modify (i + 1) (· + c.getD i 0)) counts = c → c.size = counts.size ∧
      ∀ i, i < counts.size → c.getD i 0 = if i ≤ n then f i else counts.getD i 0 := by
    intro n hn c hc
    induction n generalizing c with
    | zero =>
      subst hc
      refine ⟨rfl, fun i _ => ?_⟩
      by_cases hi : i ≤ 0
      · rw [if_pos hi, Nat.le_zero.mp hi]
        exact hzero
      · rw [if_neg hi]
        rfl
    | succ n ih =>
      obtain ⟨hsize, hvalue⟩ := ih (by omega) _ rfl
      rw [List.range_succ, List.foldl_append, List.foldl_cons, List.foldl_nil] at hc
      subst hc
      refine ⟨Array.size_modify.trans hsize, fun i hi => ?_⟩
      rw [getD_modify, hsize, hvalue i hi]
      by_cases hin : n + 1 = i
      · subst hin
        rw [if_pos ⟨rfl, hi⟩, if_neg (by omega), if_pos le_rfl, hvalue n (by omega), if_pos le_rfl,
          hsucc n hi]
      · rw [if_neg fun hc => hin hc.1]
        exact if_congr (by omega) rfl rfl
  unfold accumulateCounts
  obtain ⟨-, hvalue⟩ := hfold (counts.size - 1) (by omega) _ rfl
  rw [hvalue k hk, if_pos (by omega)]

theorem size_accumulateCounts (counts : Array Nat) :
    (accumulateCounts counts).size = counts.size :=
  List.foldlRecOn _ _ (motive := fun c : Array Nat => c.size = counts.size) rfl
    fun _ hc _ _ => Array.size_modify.trans hc

/-- The positions are counted one place up. -/
theorem getD_tally (a : Matrix α) : a.tally.size = a.width + 1 ∧ a.tally.getD 0 0 = 0 ∧
    ∀ i, i < a.width → a.tally.getD (i + 1) 0 = a.index.toList.countP fun k => k == i := by
  unfold tally
  rw [← Array.foldl_toList]
  generalize a.index.toList = index
  induction index using List.reverseRecOn with
  | nil =>
    refine ⟨Array.size_replicate, ?_, fun i hi => ?_⟩
    · rw [List.foldl_nil, getD_replicate, ite_self]
    · rw [List.foldl_nil, getD_replicate, ite_self]
      rfl
  | append_singleton index k ih =>
    obtain ⟨hsize, hzero, hvalue⟩ := ih
    rw [List.foldl_append, List.foldl_cons, List.foldl_nil]
    refine ⟨Array.size_modify.trans hsize, ?_, fun i hi => ?_⟩
    · rw [getD_modify_ne (Nat.succ_ne_zero k)]
      exact hzero
    · rw [getD_modify, hsize, hvalue i hi, List.countP_append, List.countP_singleton]
      by_cases hki : k = i
      · rw [if_pos ⟨congrArg (· + 1) hki, by omega⟩, if_pos (beq_iff_eq.mpr hki)]
      · rw [if_neg fun hc => hki (Nat.succ.inj hc.1), if_neg fun hc => hki (beq_iff_eq.mp hc)]
        rfl

/-! ## Entries put into their slots -/

/-- A transposition under way, with the entries so far in their slots. -/
structure Scatter.Filled (entries : List (Nat × Nat × α)) (width : Nat) [Scalar α]
    (done : List (Nat × Nat × α)) (s : Scatter α) : Prop where
  size_next : width ≤ s.next.size
  size_index : s.index.size = entries.length
  size_value : s.value.size = entries.length
  next : ∀ i, i < width → s.next.getD i 0 = firstSlot entries i + (ofKey done i).length
  slot : ∀ i, i < width → ∀ d u, (ofKey done i)[d]? = some u →
    s.index.getD (firstSlot entries i + d) 0 = u.1 ∧ s.value.getD (firstSlot entries i + d) 0 = u.2

variable [Scalar α] {entries done : List (Nat × Nat × α)} {width : Nat} {s : Scatter α}

theorem Scatter.Filled.place (h : s.Filled entries width done) {u : Nat × Nat × α}
    (hpart : (done ++ [u]) <+: entries) (hu : u.1 < width) :
    (s.place u.2.1 (u.1, u.2.2)).Filled entries width (done ++ [u]) := by
  have hdone : done <+: entries := (List.prefix_append done [u]).trans hpart
  -- The slot is behind those that are filled, and it is there.
  have hnew := length_ofKey_lt hpart
  have hslot := firstSlot_add_lt hnew
  refine ⟨h.size_next.trans_eq Array.size_modify.symm,
    Array.size_setIfInBounds.trans h.size_index, Array.size_setIfInBounds.trans h.size_value,
    fun i hi => ?_, fun i hi d v hv => ?_⟩
  · show (s.next.modify u.1 (· + 1)).getD i 0 = _
    rw [getD_modify, h.next i hi, length_ofKey_append_singleton]
    by_cases hui : u.1 = i
    · rw [if_pos ⟨hui, hi.trans_le h.size_next⟩, if_pos hui, Nat.add_assoc]
    · rw [if_neg fun hc => hui hc.1, if_neg hui, Nat.add_zero]
  · show (s.index.setIfInBounds (s.next.getD u.1 0) u.2.1).getD _ 0 = v.1 ∧
      (s.value.setIfInBounds (s.next.getD u.1 0) u.2.2).getD _ 0 = v.2
    rw [h.next u.1 hu]
    by_cases hold : d < (ofKey done i).length
    · rw [ofKey_append, List.getElem?_append_left hold] at hv
      have hne : firstSlot entries u.1 + (ofKey done u.1).length ≠ firstSlot entries i + d := by
        by_cases hui : u.1 = i
        · subst hui
          omega
        · exact slot_ne hui hnew (hold.trans_le (length_ofKey_le hdone i))
      rw [getD_setIfInBounds_ne hne, getD_setIfInBounds_ne hne]
      exact h.slot i hi d v hv
    · rw [ofKey_append, List.getElem?_append_right (not_lt.mp hold), ofKey_singleton] at hv
      by_cases hui : u.1 = i
      · rw [if_pos hui] at hv
        obtain ⟨hd, rfl⟩ := List.getElem?_eq_some_iff.mp hv
        have hd : d = (ofKey done i).length := by
          rw [List.length_singleton] at hd
          omega
        subst hui
        subst hd
        rw [getD_setIfInBounds_self (h.size_index ▸ hslot),
          getD_setIfInBounds_self (h.size_value ▸ hslot), List.getElem_singleton]
        exact ⟨rfl, rfl⟩
      · rw [if_neg hui] at hv
        exact absurd hv nofun

theorem Scatter.Filled.foldl_place (h : s.Filled entries width done) {rest : List (Nat × Nat × α)}
    (hrest : (done ++ rest) <+: entries) (hlt : ∀ u ∈ rest, u.1 < width) :
    (rest.foldl (fun s u => s.place u.2.1 (u.1, u.2.2)) s).Filled entries width (done ++ rest) := by
  induction rest generalizing done s with
  | nil =>
    rw [List.append_nil]
    exact h
  | cons u rest ih =>
    rw [List.append_cons] at hrest ⊢
    refine ih (h.place ((List.prefix_append _ rest).trans hrest) (hlt u List.mem_cons_self)) hrest
      fun v hv => hlt v (List.mem_cons_of_mem u hv)

/-! ## Transposes -/

/-- The entries of a matrix by position, each with its line. -/
def entriesByPosition (a : Matrix α) : List (Nat × Nat × α) :=
  (List.range a.lineCount).flatMap fun k => (a.line k).map fun u => (u.1, k, u.2)

/-- What a transposition relies on: all entries belong to a line, and their positions are
below the width. -/
structure Lined (a : Matrix α) : Prop where
  index_eq : a.index.toList = a.entriesByPosition.map Prod.fst
  size_value : a.value.size = a.index.size
  lt_width : ∀ u ∈ a.entriesByPosition, u.1 < a.width

/-- The transposition of a matrix before its first entry is placed. -/
def unplaced (a : Matrix α) : Scatter α where
  next := accumulateCounts a.tally
  index := Array.replicate a.index.size 0
  value := Array.replicate a.value.size 0

theorem Lined.getD_start {a : Matrix α} (h : a.Lined) {k : Nat} (hk : k ≤ a.width) :
    (accumulateCounts a.tally).getD k 0 = firstSlot a.entriesByPosition k := by
  obtain ⟨hsize, hzero, hvalue⟩ := a.getD_tally
  have hcount : ∀ k, (a.index.toList.countP fun x => x == k) =
      (ofKey a.entriesByPosition k).length := by
    intro k
    rw [length_ofKey, h.index_eq, List.countP_map]
    rfl
  refine getD_accumulateCounts (hzero.trans firstSlot_zero.symm) (fun k hk => ?_) (by omega)
  rw [hvalue k (by omega), hcount, firstSlot_succ, Nat.add_comm]

theorem Lined.filled_unplaced {a : Matrix α} (h : a.Lined) :
    Scatter.Filled a.entriesByPosition a.width [] a.unplaced := by
  have hlength : a.index.size = a.entriesByPosition.length := by
    rw [← Array.length_toList, h.index_eq, List.length_map]
  refine ⟨?_, ?_, ?_, fun i hi => (h.getD_start hi.le).trans (Nat.add_zero _).symm,
    fun i _ d u hu => absurd hu nofun⟩
  · show a.width ≤ (accumulateCounts a.tally).size
    rw [size_accumulateCounts, a.getD_tally.1]
    omega
  · exact Array.size_replicate.trans hlength
  · exact Array.size_replicate.trans (h.size_value.trans hlength)

/-- The transposition of a matrix when all of its entries are placed. -/
def placed (a : Matrix α) : Scatter α :=
  a.entriesByPosition.foldl (fun s u => s.place u.2.1 (u.1, u.2.2)) a.unplaced

theorem transpose_eq (a : Matrix α) : a.transpose = {
    start := accumulateCounts a.tally
    index := a.placed.index
    value := a.placed.value
    width := a.lineCount } := by
  unfold placed entriesByPosition
  rw [List.foldl_flatMap]
  simp only [List.foldl_map]
  rfl

theorem Lined.filled_placed {a : Matrix α} (h : a.Lined) :
    Scatter.Filled a.entriesByPosition a.width a.entriesByPosition a.placed :=
  h.filled_unplaced.foldl_place (List.prefix_refl _) h.lt_width

theorem Lined.line_transpose {a : Matrix α} (h : a.Lined) {i : Nat} (hi : i < a.width) :
    a.transpose.line i = ofKey a.entriesByPosition i := by
  have hline : a.transpose.line i = (List.range (ofKey a.entriesByPosition i).length).map
      fun d => (a.transpose.index.getD (firstSlot a.entriesByPosition i + d) 0,
        a.transpose.value.getD (firstSlot a.entriesByPosition i + d) 0) := by
    have hfirst : a.transpose.start.getD i 0 = firstSlot a.entriesByPosition i :=
      h.getD_start hi.le
    have hnext : a.transpose.start.getD (i + 1) 0 = firstSlot a.entriesByPosition (i + 1) :=
      h.getD_start hi
    unfold Matrix.line
    dsimp only
    rw [hfirst, hnext, firstSlot_succ, Nat.add_sub_cancel_left]
  rw [hline, transpose_eq]
  refine List.ext_getElem (by simp) fun d hd hd' => ?_
  obtain ⟨hindex, hvalue⟩ := h.filled_placed.slot i hi d _ (List.getElem?_eq_getElem hd')
  rw [List.getElem_map, List.getElem_range]
  exact Prod.ext hindex hvalue

omit [Scalar α] in
theorem index_ofLines (width : Nat) (lines : List (List (Nat × α))) :
    (ofLines width lines).index.toList = (lines.flatMap id).map Prod.fst := by
  induction lines using List.reverseRecOn with
  | nil => rfl
  | append_singleton lines line ih =>
    have hpush : ofLines width (lines ++ [line]) = (ofLines width lines).push line := by
      simp [ofLines]
    rw [hpush, index_push, Array.toList_append, ih, List.flatMap_append, List.map_append]
    simp

omit [Scalar α] in
theorem width_ofLines (width : Nat) (lines : List (List (Nat × α))) :
    (ofLines width lines).width = width :=
  List.foldlRecOn lines push (motive := fun a : Matrix α => a.width = width) rfl
    fun _ ha _ _ => ha

/-- A matrix that is built line by line can be transposed. -/
theorem lined_ofLines {width : Nat} {lines : List (List (Nat × α))}
    (hlt : ∀ k, ∀ u ∈ (ofLines width lines).line k, u.1 < width) :
    (ofLines width lines).Lined := by
  obtain ⟨hstored, hcount⟩ := stored_ofLines width lines
  refine ⟨?_, hstored.size_value, fun u hu => ?_⟩
  · have hlines : (List.range lines.length).map (lines.getD · []) = lines := by
      refine List.ext_getElem (by simp) fun k hk _ => ?_
      simp at hk
      simp [hk]
    rw [index_ofLines, entriesByPosition, hcount, List.map_flatMap]
    conv_lhs => rw [← hlines]
    rw [List.flatMap_map, List.map_flatMap]
    refine List.flatMap_congr fun k _ => ?_
    rw [List.map_map, line_ofLines]
    rfl
  · obtain ⟨k, -, hu⟩ := List.mem_flatMap.mp hu
    obtain ⟨v, hv, rfl⟩ := List.mem_map.mp hu
    rw [width_ofLines]
    exact hlt k v hv

/-! ## Entries of the transpose -/

open Exact

variable {cutoff : Rat}

theorem coefficient_ofKey_map (line : List (Nat × Exact cutoff)) (k i j : Nat) :
    coefficient (ofKey (line.map fun u => (u.1, k, u.2)) i) j =
      if k = j then coefficient line i else 0 := by
  induction line with
  | nil => exact (ite_self _).symm
  | cons u line ih =>
    rw [List.map_cons, ← List.singleton_append, ofKey_append, coefficient_append, ih,
      ofKey_singleton, coefficient_cons]
    dsimp only
    by_cases hk : k = j
    · rw [if_pos hk, if_pos hk]
      refine congrArg (· + _) ?_
      split
      · rw [coefficient_cons, coefficient_nil, if_pos hk, add_zero]
      · exact coefficient_nil j
    · rw [if_neg hk, if_neg hk, add_zero]
      split
      · rw [coefficient_cons, coefficient_nil, if_neg hk, add_zero]
      · exact coefficient_nil j

/-- The entry of a transpose is that of the matrix with row and column exchanged. -/
theorem Lined.coefficient_transpose {a : Matrix (Exact cutoff)} (h : a.Lined) {i j : Nat}
    (hi : i < a.width) (hj : j < a.lineCount) :
    coefficient (a.transpose.line i) j = coefficient (a.line j) i := by
  have hfold : ∀ n, coefficient (ofKey ((List.range n).flatMap fun k =>
      (a.line k).map fun u => (u.1, k, u.2)) i) j =
        if j < n then coefficient (a.line j) i else 0 := by
    intro n
    induction n with
    | zero => rfl
    | succ n ih =>
      rw [List.range_succ, List.flatMap_append, ofKey_append, coefficient_append, ih,
        List.flatMap_singleton, coefficient_ofKey_map]
      by_cases hjn : n = j
      · rw [if_neg (by omega), if_pos hjn, if_pos (by omega), zero_add, hjn]
      · rw [if_neg hjn, add_zero]
        exact if_congr (by omega) rfl rfl
  rw [h.line_transpose hi, entriesByPosition, hfold, if_pos hj]

end Matrix
end DualSimplex
