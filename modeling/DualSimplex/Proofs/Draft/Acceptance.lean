import DualSimplex.Proofs.Transpose

/-!
# Drafts that are accepted

A draft is accepted exactly if its parts fit together, its numbers are finite and its bounds
leave some room.  What is made of it depends on the nonzero entries of its columns alone, in
whatever order they come, and it can be taken apart and made again.
-/

namespace DualSimplex

open Scalar

variable {α : Type}

/-! ## Matrices without gaps -/

namespace Matrix

/-- The lines of a matrix are stored one after the other, and there is nothing else. -/
structure Compressed (a : Matrix α) (n : Nat) : Prop where
  size_start : a.start.size = n + 1
  size_value : a.value.size = a.index.size
  first : a.start.getD 0 0 = 0
  last : a.start.getD n 0 = a.index.size
  le_succ : ∀ j, j < n → a.start.getD j 0 ≤ a.start.getD (j + 1) 0

variable {a : Matrix α} {n : Nat}

theorem Compressed.start_le (h : a.Compressed n) {j k : Nat} (hjk : j ≤ k) (hk : k ≤ n) :
    a.start.getD j 0 ≤ a.start.getD k 0 := by
  induction k with
  | zero => rw [Nat.le_zero.mp hjk]
  | succ k ih =>
    rcases Nat.lt_or_eq_of_le hjk with hlt | heq
    · exact (ih (by omega) (by omega)).trans (h.le_succ k hk)
    · rw [heq]

theorem Compressed.start_le_size (h : a.Compressed n) {j : Nat} (hj : j ≤ n) :
    a.start.getD j 0 ≤ a.index.size :=
  (h.start_le hj le_rfl).trans_eq h.last

/-- Every stored entry belongs to a line. -/
theorem Compressed.exists_line (h : a.Compressed n) {k : Nat} (hk : k < a.index.size) :
    ∃ j, j < n ∧ a.start.getD j 0 ≤ k ∧ k < a.start.getD (j + 1) 0 := by
  have hfind : ∀ j, j ≤ n → k < a.start.getD j 0 →
      ∃ i, i < j ∧ a.start.getD i 0 ≤ k ∧ k < a.start.getD (i + 1) 0 := by
    intro j hj hlt
    induction j with
    | zero =>
      rw [h.first] at hlt
      exact absurd hlt (Nat.not_lt_zero k)
    | succ j ih =>
      by_cases hle : a.start.getD j 0 ≤ k
      · exact ⟨j, Nat.lt_succ_self j, hle, hlt⟩
      · obtain ⟨i, hi, hfound⟩ := ih (by omega) (by omega)
        exact ⟨i, by omega, hfound⟩
  exact hfind n le_rfl (h.last ▸ hk)

theorem Compressed.push (h : a.Compressed n) (line : List (Nat × α)) :
    (a.push line).Compressed (n + 1) := by
  have hstart : ∀ k, (a.push line).start.getD k 0 =
      if k = n + 1 then a.index.size + line.length else a.start.getD k 0 := by
    intro k
    rw [start_push, getD_push, h.size_start]
  have hindex : (a.push line).index.size = a.index.size + line.length := by
    simp [index_push]
  refine ⟨?_, ?_, ?_, ?_, fun j hj => ?_⟩
  · rw [start_push, Array.size_push, h.size_start]
  · simp [hindex, value_push, h.size_value]
  · rw [hstart, if_neg (by omega), h.first]
  · rw [hstart, if_pos rfl, hindex]
  · rw [hstart, hstart, if_neg (by omega)]
    by_cases hjn : j = n
    · rw [if_pos (by omega), hjn, h.last]
      omega
    · rw [if_neg (by omega)]
      exact h.le_succ j (by omega)

theorem compressed_ofLines (width : Nat) (lines : List (List (Nat × α))) :
    (ofLines width lines).Compressed lines.length := by
  induction lines using List.reverseRecOn with
  | nil => exact ⟨rfl, rfl, rfl, rfl, fun j hj => absurd hj (Nat.not_lt_zero j)⟩
  | append_singleton lines line ih =>
    have hpush : ofLines width (lines ++ [line]) = (ofLines width lines).push line := by
      simp [ofLines]
    rw [hpush, List.length_append]
    exact ih.push line

variable [Scalar α]

theorem mem_line {j : Nat} {u : Nat × α} : u ∈ a.line j ↔
    ∃ k, a.start.getD j 0 ≤ k ∧ k < a.start.getD (j + 1) 0 ∧
      (a.index.getD k 0, a.value.getD k 0) = u := by
  unfold Matrix.line
  rw [List.mem_map]
  constructor
  · rintro ⟨d, hd, hu⟩
    have hd := List.mem_range.mp hd
    exact ⟨a.start.getD j 0 + d, by omega, by omega, hu⟩
  · rintro ⟨k, hle, hlt, hu⟩
    refine ⟨k - a.start.getD j 0, List.mem_range.mpr (by omega), ?_⟩
    rw [Nat.add_sub_cancel' hle]
    exact hu

/-- What holds of all stored positions and values is what holds of all entries of the lines. -/
theorem Compressed.forall_entries (h : a.Compressed n) (P : Nat → Prop) (Q : α → Prop) :
    (∀ i ∈ a.index, P i) ∧ (∀ x ∈ a.value, Q x) ↔
      ∀ j, j < n → ∀ u ∈ a.line j, P u.1 ∧ Q u.2 := by
  constructor
  · rintro ⟨hindex, hvalue⟩ j hj u hu
    obtain ⟨k, -, hlt, rfl⟩ := mem_line.mp hu
    have hk : k < a.index.size := hlt.trans_le (h.start_le_size hj)
    have hk' : k < a.value.size := h.size_value ▸ hk
    rw [getD_eq_getElem hk, getD_eq_getElem hk']
    exact ⟨hindex _ (Array.getElem_mem hk), hvalue _ (Array.getElem_mem hk')⟩
  · intro hlines
    have hstored : ∀ k, k < a.index.size → P (a.index.getD k 0) ∧ Q (a.value.getD k 0) := by
      intro k hk
      obtain ⟨j, hj, hle, hlt⟩ := h.exists_line hk
      exact hlines j hj _ (mem_line.mpr ⟨k, hle, hlt, rfl⟩)
    constructor
    · intro i hi
      obtain ⟨k, hk, rfl⟩ := Array.getElem_of_mem hi
      exact getD_eq_getElem hk 0 ▸ (hstored k hk).1
    · intro x hx
      obtain ⟨k, hk, rfl⟩ := Array.getElem_of_mem hx
      exact getD_eq_getElem hk 0 ▸ (hstored k (h.size_value ▸ hk)).2

end Matrix

/-! ## Checks -/

section Checks

variable {ε β γ : Type}

theorem seq_eq_ok_iff {x : Except ε Unit} {f : Unit → Except ε β} {b : β} :
    x >>= f = .ok b ↔ x = .ok () ∧ f () = .ok b := by
  constructor
  · intro h
    obtain ⟨u, hx, hf⟩ := exists_of_bind_eq_ok h
    exact ⟨hx, hf⟩
  · rintro ⟨rfl, hf⟩
    exact hf

theorem guard_eq_ok_iff {c : Prop} [Decidable c] {e : ε} {f : Unit → Except ε β} {b : β} :
    (if c then throw e >>= f else f ()) = .ok b ↔ ¬c ∧ f () = .ok b := by
  refine ⟨of_guard_eq_ok, ?_⟩
  rintro ⟨hc, hf⟩
  rw [if_neg hc]
  exact hf

/-- A check that refuses something before it goes on. -/
theorem unless_eq_ok_iff {c : Prop} [Decidable c] {e : ε} {x : Except ε β} {b : β} :
    (if c then throw e else x) = .ok b ↔ ¬c ∧ x = .ok b := by
  split
  · rename_i h
    exact ⟨fun hx => absurd hx nofun, fun hx => absurd h hx.1⟩
  · rename_i h
    exact ⟨fun hx => ⟨h, hx⟩, fun hx => hx.2⟩

/-- A check that goes on with what it does not refuse. -/
theorem when_eq_ok_iff {c : Prop} [Decidable c] {e : ε} {x : Except ε β} {b : β} :
    (if c then x else throw e) = .ok b ↔ c ∧ x = .ok b := by
  rw [← ite_not, unless_eq_ok_iff, not_not]

theorem require_eq_ok_iff {c : Prop} [Decidable c] {e : ε} :
    (if c then pure () else throw e : Except ε Unit) = .ok () ↔ c :=
  when_eq_ok_iff.trans (and_iff_left rfl)

theorem forM_eq_ok_iff {f : β → Except ε Unit} {l : List β} :
    l.forM f = .ok () ↔ ∀ x ∈ l, f x = .ok () :=
  ⟨of_forM_eq_ok, forM_eq_ok⟩

theorem forall_mem_zipIdx_iff {l : List β} (P : β → Prop) :
    (∀ u ∈ l.zipIdx, P u.1) ↔ ∀ x ∈ l, P x := by
  constructor
  · intro h x hx
    rw [← List.zipIdx_map_fst 0 l] at hx
    obtain ⟨u, hu, rfl⟩ := List.mem_map.mp hx
    exact h u hu
  · intro h u hu
    exact h u.1 (List.fst_mem_of_mem_zipIdx hu)

theorem mapM_eq_ok_iff {f : β → Except ε γ} {P : β → Prop} {g : β → γ}
    (hf : ∀ x y, f x = .ok y ↔ P x ∧ y = g x) {l : List β} {ys : List γ} :
    l.mapM f = .ok ys ↔ (∀ x ∈ l, P x) ∧ ys = l.map g := by
  induction l generalizing ys with
  | nil =>
    rw [List.mapM_nil]
    constructor
    · intro h
      exact ⟨fun x hx => absurd hx List.not_mem_nil, (Except.ok.inj h).symm⟩
    · rintro ⟨-, rfl⟩
      rfl
  | cons x l ih =>
    rw [List.mapM_cons]
    constructor
    · intro h
      obtain ⟨y, hy, h⟩ := exists_of_bind_eq_ok h
      obtain ⟨zs, hzs, h⟩ := exists_of_bind_eq_ok h
      obtain ⟨hx, rfl⟩ := (hf x y).mp hy
      obtain ⟨hl, rfl⟩ := ih.mp hzs
      exact ⟨List.forall_mem_cons.mpr ⟨hx, hl⟩, (Except.ok.inj h).symm⟩
    · rintro ⟨hall, rfl⟩
      obtain ⟨hx, hl⟩ := List.forall_mem_cons.mp hall
      rw [(hf x (g x)).mpr ⟨hx, rfl⟩, ih.mpr ⟨hl, rfl⟩]
      rfl

end Checks

variable [Scalar α]

namespace Interval

/-- The bounds with large magnitudes made infinite. -/
def normalized (infinity : α) (b : Interval α) : Interval α where
  lower := b.lower.normalize infinity
  upper := b.upper.normalize infinity

/-- Bounds that a variable can have: they are numbers or infinite, and once large magnitudes
are infinite there is a number that they admit. -/
structure Usable (infinity : α) (b : Interval α) : Prop where
  lower_number : b.lower.isNaN = false
  upper_number : b.upper.isNaN = false
  lower_ne : b.lower.normalize infinity ≠ .posInf
  upper_ne : b.upper.normalize infinity ≠ .negInf
  ordered : (b.lower.normalize infinity).above (b.upper.normalize infinity) = false

end Interval

namespace Draft

/-- The bounds of each variable, from all lower and all upper bounds. -/
def pairs (lower upper : Array (Bound α)) : List (Interval α) :=
  List.zipWith Interval.mk lower.toList upper.toList

/-- The parts of a draft have the lengths that they should have. -/
structure Shaped (d : Draft α) : Prop where
  size_costs : d.costs.size = d.columnCount
  size_columnLower : d.columnLower.size = d.columnCount
  size_columnUpper : d.columnUpper.size = d.columnCount
  size_rowLower : d.rowLower.size = d.rowCount
  size_rowUpper : d.rowUpper.size = d.rowCount
  size_start : d.matrix.start.size = d.columnCount + 1
  size_value : d.matrix.value.size = d.matrix.index.size
  first : d.matrix.start.getD 0 0 = 0
  last : d.matrix.start.getD d.columnCount 0 = d.matrix.index.size

/-- A draft without a fault. -/
structure Acceptable (d : Draft α) : Prop extends Shaped d where
  starts : ∀ j, j < d.columnCount → d.matrix.start.getD j 0 ≤ d.matrix.start.getD (j + 1) 0
  offset : isFinite d.offset = true
  costs : ∀ c ∈ d.costs, isFinite c = true
  values : ∀ x ∈ d.matrix.value, isFinite x = true
  rows : ∀ i ∈ d.matrix.index, i < d.rowCount
  keys : ∀ j, j < d.columnCount → DistinctKeys (d.matrix.line j)
  columnBounds : ∀ b ∈ pairs d.columnLower d.columnUpper, b.Usable d.infinity
  rowBounds : ∀ b ∈ pairs d.rowLower d.rowUpper, b.Usable d.infinity

/-- What a draft without a fault describes. -/
def program (d : Draft α) : LinearProgram α :=
  let columns := Matrix.ofLines d.rowCount
    ((List.range d.columnCount).map fun j => tidy (d.matrix.line j))
  { sense := d.sense
    offset := d.offset
    costs := d.costs
    columnBounds := ((pairs d.columnLower d.columnUpper).map (·.normalized d.infinity)).toArray
    rowBounds := ((pairs d.rowLower d.rowUpper).map (·.normalized d.infinity)).toArray
    columns := columns
    rows := columns.transpose }

omit [Scalar α] in
theorem expectLength_eq_ok_iff {part : DraftPart} {n m : Nat} :
    expectLength (α := α) part n m = .ok () ↔ m = n := by
  unfold expectLength
  rw [require_eq_ok_iff, eq_comm]

omit [Scalar α] in
theorem checkShape_eq_ok_iff {d : Draft α} : d.checkShape = .ok () ↔ d.Shaped := by
  unfold checkShape
  simp only [seq_eq_ok_iff, guard_eq_ok_iff, expectLength_eq_ok_iff, bne_iff_ne, ne_eq, not_not]
  constructor
  · rintro ⟨hcosts, hcolumnLower, hcolumnUpper, hrowLower, hrowUpper, hstart, hvalue, hfirst, hlast⟩
    exact ⟨hcosts, hcolumnLower, hcolumnUpper, hrowLower, hrowUpper, hstart, hvalue, hfirst,
      hlast.symm⟩
  · intro h
    exact ⟨h.size_costs, h.size_columnLower, h.size_columnUpper, h.size_rowLower, h.size_rowUpper,
      h.size_start, h.size_value, h.first, h.last.symm⟩

theorem checkOffset_eq_ok_iff {d : Draft α} : d.checkOffset = .ok () ↔ isFinite d.offset = true :=
  require_eq_ok_iff

omit [Scalar α] in
theorem checkStarts_eq_ok_iff {d : Draft α} : d.checkStarts = .ok () ↔
    ∀ j, j < d.columnCount → d.matrix.start.getD j 0 ≤ d.matrix.start.getD (j + 1) 0 := by
  unfold checkStarts
  dsimp only
  split
  · rename_i j hfound
    have hj := List.mem_range.mp (List.mem_of_find?_eq_some hfound)
    have hlt := List.find?_some hfound
    rw [decide_eq_true_eq] at hlt
    exact ⟨fun h => absurd h nofun, fun h => absurd (h j hj) (Nat.not_le_of_lt hlt)⟩
  · rename_i hnone
    refine ⟨fun _ j hj => ?_, fun _ => rfl⟩
    have hj := List.find?_eq_none.mp hnone j (List.mem_range.mpr hj)
    exact Nat.le_of_not_lt fun hlt => hj (decide_eq_true hlt)

omit [Scalar α] in
theorem distinctKeys_cons {row : Nat} {x : α} {entries : List (Nat × α)} :
    DistinctKeys ((row, x) :: entries) ↔ (∀ u ∈ entries, u.1 ≠ row) ∧ DistinctKeys entries := by
  unfold DistinctKeys
  rw [List.map_cons, List.nodup_cons, List.mem_map]
  exact and_congr_left' ⟨fun h u hu he => h ⟨u, hu, he⟩, fun h ⟨u, hu, he⟩ => h u hu he⟩

/-- The rows of a column may come in any order, as long as none comes twice. -/
theorem checkEntries_eq_ok_iff {rowCount column : Nat} {seen : List Nat}
    {entries : List (Nat × α)} : checkEntries rowCount column seen entries = .ok () ↔
      DistinctKeys entries ∧ ∀ u ∈ entries, u.1 ∉ seen ∧ u.1 < rowCount ∧ isFinite u.2 = true := by
  induction entries generalizing seen with
  | nil => exact ⟨fun _ => ⟨distinctKeys_nil, fun u hu => absurd hu List.not_mem_nil⟩, fun _ => rfl⟩
  | cons u entries ih =>
    obtain ⟨row, x⟩ := u
    unfold checkEntries
    rw [unless_eq_ok_iff, unless_eq_ok_iff, when_eq_ok_iff, ih, distinctKeys_cons,
      List.forall_mem_cons, List.contains_iff_mem, not_le]
    simp only [List.mem_cons, not_or]
    constructor
    · rintro ⟨hrow, hnew, hx, hkeys, hrest⟩
      exact ⟨⟨fun u hu => (hrest u hu).1.1, hkeys⟩, ⟨hnew, hrow, hx⟩,
        fun u hu => ⟨(hrest u hu).1.2, (hrest u hu).2⟩⟩
    · rintro ⟨⟨hfresh, hkeys⟩, ⟨hnew, hrow, hx⟩, hrest⟩
      exact ⟨hrow, hnew, hx, hkeys, fun u hu => ⟨⟨hfresh u hu, (hrest u hu).1⟩, (hrest u hu).2⟩⟩

theorem checkMatrix_eq_ok_iff {d : Draft α} : d.checkMatrix = .ok () ↔
    ∀ j, j < d.columnCount → DistinctKeys (d.matrix.line j) ∧
      ∀ u ∈ d.matrix.line j, u.1 < d.rowCount ∧ isFinite u.2 = true := by
  unfold checkMatrix
  rw [forM_eq_ok_iff]
  simp only [List.mem_range, checkEntries_eq_ok_iff, List.not_mem_nil, not_false_eq_true,
    true_and]

theorem checkCosts_eq_ok_iff {d : Draft α} : d.checkCosts = .ok () ↔
    ∀ c ∈ d.costs, isFinite c = true := by
  unfold checkCosts
  rw [forM_eq_ok_iff]
  simp only [require_eq_ok_iff]
  refine (forall_mem_zipIdx_iff fun c => isFinite c = true).trans ?_
  simp only [Array.mem_toList_iff]

theorem bounds_eq_ok_iff {infinity : α} {kind : VariableKind} {k : Nat} {b b' : Interval α} :
    bounds infinity kind k b = .ok b' ↔ b.Usable infinity ∧ b' = b.normalized infinity := by
  unfold bounds
  rw [unless_eq_ok_iff, Bool.not_eq_true, Bool.or_eq_false_iff]
  dsimp only
  split
  · rename_i hlower
    exact ⟨fun h => absurd h.2 nofun, fun h => absurd hlower h.1.lower_ne⟩
  · rename_i hupper _
    exact ⟨fun h => absurd h.2 nofun, fun h => absurd hupper h.1.upper_ne⟩
  · rename_i hlower hupper
    rw [unless_eq_ok_iff, Bool.not_eq_true]
    constructor
    · rintro ⟨⟨hlowerNumber, hupperNumber⟩, hordered, h⟩
      exact ⟨⟨hlowerNumber, hupperNumber, hlower, hupper, hordered⟩, (Except.ok.inj h).symm⟩
    · rintro ⟨h, rfl⟩
      exact ⟨⟨h.lower_number, h.upper_number⟩, h.ordered, rfl⟩

theorem allBounds_eq_ok_iff {infinity : α} {kind : VariableKind} {lower upper : Array (Bound α)}
    {bs : Array (Interval α)} : allBounds infinity kind lower upper = .ok bs ↔
      (∀ b ∈ pairs lower upper, b.Usable infinity) ∧
      bs = ((pairs lower upper).map (·.normalized infinity)).toArray := by
  have hmap : ∀ ys,
      (pairs lower upper).zipIdx.mapM (fun u => bounds infinity kind u.2 u.1) = .ok ys ↔
      (∀ u ∈ (pairs lower upper).zipIdx, u.1.Usable infinity) ∧
      ys = (pairs lower upper).zipIdx.map fun u => u.1.normalized infinity := fun ys =>
    mapM_eq_ok_iff fun u b' => bounds_eq_ok_iff
  have hvalues : ((pairs lower upper).zipIdx.map fun u => u.1.normalized infinity) =
      (pairs lower upper).map (·.normalized infinity) := by
    conv_rhs => rw [← List.zipIdx_map_fst 0 (pairs lower upper), List.map_map]
    rfl
  simp only [hvalues, forall_mem_zipIdx_iff fun b : Interval α => b.Usable infinity] at hmap
  unfold allBounds
  constructor
  · intro h
    obtain ⟨checked, hchecked, h⟩ := exists_of_bind_eq_ok h
    obtain ⟨husable, rfl⟩ := (hmap checked).mp hchecked
    exact ⟨husable, (Except.ok.inj h).symm⟩
  · rintro ⟨husable, rfl⟩
    show ((pairs lower upper).zipIdx.mapM fun u => bounds infinity kind u.2 u.1) >>=
      (fun checked => pure checked.toArray) = _
    rw [(hmap _).mpr ⟨husable, rfl⟩]
    rfl

omit [Scalar α] in
theorem Shaped.compressed {d : Draft α} (h : d.Shaped)
    (hstarts : ∀ j, j < d.columnCount →
      d.matrix.start.getD j 0 ≤ d.matrix.start.getD (j + 1) 0) :
    d.matrix.Compressed d.columnCount :=
  ⟨h.size_start, h.size_value, h.first, h.last, hstarts⟩

theorem Acceptable.compressed {d : Draft α} (h : d.Acceptable) :
    d.matrix.Compressed d.columnCount :=
  h.toShaped.compressed h.starts

/-- The entries of a draft without a fault are those that its checks look at. -/
theorem Acceptable.entry {d : Draft α} (h : d.Acceptable) {j : Nat} (hj : j < d.columnCount)
    {u : Nat × α} (hu : u ∈ d.matrix.line j) : u.1 < d.rowCount ∧ isFinite u.2 = true :=
  (h.compressed.forall_entries (· < d.rowCount) (isFinite · = true)).mp ⟨h.rows, h.values⟩ j hj u hu

/-- Checks that find nothing leave a draft without a fault. -/
theorem acceptable_of_checks {d : Draft α} {columnBounds rowBounds : Array (Interval α)}
    (hshape : d.checkShape = .ok ()) (hoffset : d.checkOffset = .ok ())
    (hstarts : d.checkStarts = .ok ()) (hmatrix : d.checkMatrix = .ok ())
    (hcosts : d.checkCosts = .ok ())
    (hcolumns : allBounds d.infinity .column d.columnLower d.columnUpper = .ok columnBounds)
    (hrows : allBounds d.infinity .row d.rowLower d.rowUpper = .ok rowBounds) :
    d.Acceptable := by
  have hshape := checkShape_eq_ok_iff.mp hshape
  have hstarts := checkStarts_eq_ok_iff.mp hstarts
  have hmatrix := checkMatrix_eq_ok_iff.mp hmatrix
  obtain ⟨hindex, hvalue⟩ :=
    ((hshape.compressed hstarts).forall_entries (· < d.rowCount) (isFinite · = true)).mpr
      fun j hj => (hmatrix j hj).2
  exact ⟨hshape, hstarts, checkOffset_eq_ok_iff.mp hoffset, checkCosts_eq_ok_iff.mp hcosts,
    hvalue, hindex, fun j hj => (hmatrix j hj).1, (allBounds_eq_ok_iff.mp hcolumns).1,
    (allBounds_eq_ok_iff.mp hrows).1⟩

/-- A draft is accepted exactly if it is without a fault. -/
theorem build_eq_ok_iff {d : Draft α} {lp : LinearProgram α} :
    d.build = .ok lp ↔ d.Acceptable ∧ lp = d.program := by
  unfold build
  constructor
  · intro h
    obtain ⟨_, hshape, h⟩ := exists_of_bind_eq_ok h
    obtain ⟨_, hoffset, h⟩ := exists_of_bind_eq_ok h
    obtain ⟨_, hstarts, h⟩ := exists_of_bind_eq_ok h
    obtain ⟨_, hmatrix, h⟩ := exists_of_bind_eq_ok h
    obtain ⟨_, hcosts, h⟩ := exists_of_bind_eq_ok h
    obtain ⟨columnBounds, hcolumns, h⟩ := exists_of_bind_eq_ok h
    obtain ⟨rowBounds, hrows, h⟩ := exists_of_bind_eq_ok h
    refine ⟨acceptable_of_checks hshape hoffset hstarts hmatrix hcosts hcolumns hrows, ?_⟩
    rw [(allBounds_eq_ok_iff.mp hcolumns).2, (allBounds_eq_ok_iff.mp hrows).2] at h
    exact (Except.ok.inj h).symm
  · rintro ⟨h, rfl⟩
    simp only [seq_eq_ok_iff, checkShape_eq_ok_iff, checkOffset_eq_ok_iff, checkStarts_eq_ok_iff,
      checkMatrix_eq_ok_iff, checkCosts_eq_ok_iff]
    refine ⟨h.toShaped, h.offset, h.starts,
      fun j hj => ⟨h.keys j hj, fun u hu => h.entry hj hu⟩, h.costs, ?_⟩
    rw [allBounds_eq_ok_iff.mpr ⟨h.columnBounds, rfl⟩, allBounds_eq_ok_iff.mpr ⟨h.rowBounds, rfl⟩]
    rfl

end Draft
end DualSimplex
