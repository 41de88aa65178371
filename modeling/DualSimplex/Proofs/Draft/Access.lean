import DualSimplex.Proofs.Draft.Entries
import DualSimplex.Proofs.Guarded

/-!
# Accepting a draft stays in range

A read behind the end of an array gives a default here, and a write there is dropped.  Making a
program does neither, whatever the draft: the same steps with every read and write guarded get
as far, because each of them comes after the checks that it needs.
-/

namespace DualSimplex

open Scalar

variable {α : Type}

/-! ## Matrices -/

namespace Matrix

section Definitions

variable [Scalar α]

/-- `line` with every read guarded. -/
def guardedLine (a : Matrix α) (k : Nat) : Option (List (Nat × α)) := do
  let first ← a.start[k]?
  let last ← a.start[k + 1]?
  (List.range (last - first)).mapM fun d => do
    return (← a.index[first + d]?, ← a.value[first + d]?)

/-- `tally` with every count guarded. -/
def guardedTally (a : Matrix α) : Option (Array Nat) :=
  a.index.toList.foldlM (fun counts i => guardedModify counts (i + 1) (· + 1))
    (Array.replicate (a.width + 1) 0)

/-- `accumulateCounts` with every read and write guarded. -/
def guardedAccumulate (counts : Array Nat) : Option (Array Nat) :=
  (List.range (counts.size - 1)).foldlM (fun sums i => do
    let before ← sums[i]?
    guardedModify sums (i + 1) (· + before)) counts

/-- `place` with every read and write guarded. -/
def Scatter.guardedPlace (s : Scatter α) (k : Nat) (entry : Nat × α) : Option (Scatter α) := do
  let slot ← s.next[entry.1]?
  let index ← guardedSet s.index slot k
  let value ← guardedSet s.value slot entry.2
  let next ← guardedModify s.next entry.1 (· + 1)
  return { next := next, index := index, value := value }

/-- `transpose` with every read and write guarded. -/
def guardedTranspose (a : Matrix α) : Option (Matrix α) := do
  let counts ← a.guardedTally
  let start ← guardedAccumulate counts
  let empty : Scatter α := {
    next := start
    index := Array.replicate a.index.size 0
    value := Array.replicate a.value.size 0 }
  let s ← (List.range a.lineCount).foldlM (fun s k => do
    let line ← a.guardedLine k
    line.foldlM (fun s entry => s.guardedPlace k entry) s) empty
  return { start := start, index := s.index, value := s.value, width := a.lineCount }

end Definitions

variable {a : Matrix α} {n : Nat}

theorem guardedAccumulate_eq (counts : Array Nat) :
    guardedAccumulate counts = some (accumulateCounts counts) := by
  refine foldlM_eq_some_foldl (fun _ c => c.size = counts.size) rfl fun done i c hpart hsize => ?_
  have hi : i < counts.size - 1 := List.mem_range.mp (hpart.subset (by simp))
  rw [getElem?_of_lt (by omega) 0]
  exact ⟨guardedModify_of_lt (by omega) _, Array.size_modify.trans hsize⟩

variable [Scalar α]

/-- The lines of a matrix without gaps can be read. -/
theorem Compressed.guardedLine_eq (h : a.Compressed n) {k : Nat} (hk : k < n) :
    a.guardedLine k = some (a.line k) := by
  have hsize := h.size_start
  have hlast := h.start_le_size (show k + 1 ≤ n from hk)
  have hvalue := h.size_value
  unfold guardedLine
  refine bind_eq_of_eq_some (getElem?_of_lt (by omega) 0) ?_
  refine bind_eq_of_eq_some (getElem?_of_lt (by omega) 0) ?_
  refine mapM_eq_some_map fun d hd => ?_
  have hd := List.mem_range.mp hd
  refine bind_eq_of_eq_some (getElem?_of_lt (by omega) 0) ?_
  exact bind_eq_of_eq_some (getElem?_of_lt (by omega) 0) rfl

/-- A line of any other matrix may reach behind the end. -/
example : ({ start := #[0, 2], index := #[0], value := #[1], width := 1 } :
    Matrix (Exact 0)).guardedLine 0 = none := by decide

omit [Scalar α] in
theorem guardedTally_eq (hlt : ∀ i ∈ a.index.toList, i < a.width) :
    a.guardedTally = some a.tally := by
  unfold guardedTally tally
  rw [← Array.foldl_toList]
  refine foldlM_eq_some_foldl (fun _ c => c.size = a.width + 1) Array.size_replicate
    fun done i c hpart hsize => ?_
  have hi := hlt i (hpart.subset (by simp))
  exact ⟨guardedModify_of_lt (by omega) _, Array.size_modify.trans hsize⟩

/-- The slot of the next entry is there. -/
theorem Scatter.Filled.guardedPlace_eq {entries done : List (Nat × Nat × α)} {width : Nat}
    {s : Scatter α} (h : s.Filled entries width done) {u : Nat × Nat × α}
    (hpart : (done ++ [u]) <+: entries) (hu : u.1 < width) :
    s.guardedPlace u.2.1 (u.1, u.2.2) = some (s.place u.2.1 (u.1, u.2.2)) := by
  have hnext : u.1 < s.next.size := hu.trans_le h.size_next
  have hslot : s.next.getD u.1 0 < entries.length := by
    rw [h.next u.1 hu]
    exact firstSlot_add_lt (length_ofKey_lt hpart)
  unfold guardedPlace
  refine bind_eq_of_eq_some (getElem?_of_lt hnext 0) ?_
  refine bind_eq_of_eq_some (guardedSet_of_lt (hslot.trans_eq h.size_index.symm) _) ?_
  refine bind_eq_of_eq_some (guardedSet_of_lt (hslot.trans_eq h.size_value.symm) _) ?_
  exact bind_eq_of_eq_some (guardedModify_of_lt hnext _) rfl

/-- A matrix without gaps whose positions are below its width can be transposed. -/
theorem Lined.guardedTranspose_eq (h : a.Lined) (ha : a.Compressed a.lineCount) :
    a.guardedTranspose = some a.transpose := by
  have hindex : ∀ i ∈ a.index.toList, i < a.width := by
    intro i hi
    rw [h.index_eq] at hi
    obtain ⟨u, hu, rfl⟩ := List.mem_map.mp hi
    exact h.lt_width u hu
  have hplaced : a.entriesByPosition.foldlM
      (fun s u => s.guardedPlace u.2.1 (u.1, u.2.2)) a.unplaced =
      some (a.entriesByPosition.foldl (fun s u => s.place u.2.1 (u.1, u.2.2)) a.unplaced) := by
    refine foldlM_eq_some_foldl (Scatter.Filled a.entriesByPosition a.width · ·) h.filled_unplaced
      fun done u s hpart hs => ?_
    have hu := h.lt_width u (hpart.subset (by simp))
    exact ⟨hs.guardedPlace_eq hpart hu, hs.place hpart hu⟩
  have hscatter : (List.range a.lineCount).foldlM (fun s k => a.guardedLine k >>=
      fun line => line.foldlM (fun s entry => s.guardedPlace k entry) s) a.unplaced =
      some ((List.range a.lineCount).foldl
        (fun s k => (a.line k).foldl (fun s entry => s.place k entry) s) a.unplaced) := by
    unfold entriesByPosition at hplaced
    rw [foldlM_flatMap, List.foldl_flatMap] at hplaced
    simp only [List.foldlM_map, List.foldl_map] at hplaced
    refine (foldlM_congr fun s k hk => ?_).trans hplaced
    rw [ha.guardedLine_eq (List.mem_range.mp hk)]
    rfl
  unfold guardedTranspose
  refine bind_eq_of_eq_some (guardedTally_eq hindex) ?_
  refine bind_eq_of_eq_some (guardedAccumulate_eq _) ?_
  exact bind_eq_of_eq_some hscatter rfl

end Matrix

/-! ## Drafts -/

/-- A check that ends without any result at the first access out of range. -/
abbrev GuardedCheck (α : Type) := ExceptT (InputError α) Option

namespace GuardedCheck

variable {β γ : Type}

/-- An access as part of a check. -/
def access (o : Option β) : GuardedCheck α β :=
  ExceptT.mk (o.map Except.ok)

/-- A check that accesses nothing by position. -/
def plain (x : Draft.Check α β) : GuardedCheck α β :=
  ExceptT.mk (some x)

variable {g : GuardedCheck α β} {x : Draft.Check α β}

theorem run_bind {f : β → GuardedCheck α γ} {f' : β → Draft.Check α γ} (hg : g.run = some x)
    (hf : ∀ b, x = .ok b → (f b).run = some (f' b)) : (g >>= f).run = some (x >>= f') := by
  rw [ExceptT.run_bind, hg]
  cases x with
  | error e => rfl
  | ok b => exact hf b rfl

theorem run_access_bind {o : Option β} {b : β} {f : β → GuardedCheck α γ}
    {y : Draft.Check α γ} (ho : o = some b) (hf : (f b).run = some y) :
    (access o >>= f).run = some y := by
  rw [ho]
  exact hf

theorem run_forM {f : β → GuardedCheck α Unit} {f' : β → Draft.Check α Unit} {l : List β}
    (h : ∀ b ∈ l, (f b).run = some (f' b)) : (l.forM f).run = some (l.forM f') := by
  induction l with
  | nil => rfl
  | cons b l ih =>
    exact run_bind (h b List.mem_cons_self) fun _ _ => ih fun c hc => h c (List.mem_cons_of_mem b hc)

theorem run_guard {c : Prop} [Decidable c] {e : InputError α} {f : Unit → GuardedCheck α β}
    {f' : Unit → Draft.Check α β} (hf : (f ()).run = some (f' ())) :
    (if c then throw e >>= f else f ()).run = some (if c then throw e >>= f' else f' ()) := by
  split
  · rfl
  · exact hf

end GuardedCheck

namespace Draft

open GuardedCheck

section Definitions

variable [Scalar α]

/-- `checkShape` with every read guarded. -/
def guardedShape (d : Draft α) : GuardedCheck α Unit := do
  plain (expectLength .costs d.columnCount d.costs.size)
  plain (expectLength .columnLower d.columnCount d.columnLower.size)
  plain (expectLength .columnUpper d.columnCount d.columnUpper.size)
  plain (expectLength .rowLower d.rowCount d.rowLower.size)
  plain (expectLength .rowUpper d.rowCount d.rowUpper.size)
  plain (expectLength .starts (d.columnCount + 1) d.matrix.start.size)
  plain (expectLength .values d.matrix.index.size d.matrix.value.size)
  let first ← access d.matrix.start[0]?
  if first != 0 then throw (.nonMonotoneStarts 0)
  let last ← access d.matrix.start[d.columnCount]?
  plain (expectLength .indices last d.matrix.index.size)

/-- `checkStarts` with every read guarded. -/
def guardedStarts (d : Draft α) : GuardedCheck α Unit := do
  let found ← access <| (List.range d.columnCount).findM? fun j => do
    return (← d.matrix.start[j + 1]?) < (← d.matrix.start[j]?)
  match found with
  | some j => throw (.nonMonotoneStarts (j + 1))
  | none => pure ()

/-- `checkMatrix` with every read guarded. -/
def guardedMatrix (d : Draft α) : GuardedCheck α Unit :=
  (List.range d.columnCount).forM fun j => do
    let entries ← access (d.matrix.guardedLine j)
    plain (checkEntries d.rowCount j [] entries)

/-- `build` with every read and write guarded. -/
def guardedBuild (d : Draft α) : GuardedCheck α (LinearProgram α) := do
  d.guardedShape
  plain d.checkOffset
  d.guardedStarts
  d.guardedMatrix
  plain d.checkCosts
  let columnBounds ← plain (allBounds d.infinity .column d.columnLower d.columnUpper)
  let rowBounds ← plain (allBounds d.infinity .row d.rowLower d.rowUpper)
  let lines ← access <| (List.range d.columnCount).mapM fun j => do
    return tidy (← d.matrix.guardedLine j)
  let columns := Matrix.ofLines d.rowCount lines
  let rows ← access columns.guardedTranspose
  return {
    sense := d.sense
    offset := d.offset
    costs := d.costs
    columnBounds := columnBounds
    rowBounds := rowBounds
    columns := columns
    rows := rows }

end Definitions

variable {d : Draft α}

theorem run_guardedShape (d : Draft α) : d.guardedShape.run = some d.checkShape := by
  unfold guardedShape checkShape
  refine run_bind rfl fun _ _ => ?_
  refine run_bind rfl fun _ _ => ?_
  refine run_bind rfl fun _ _ => ?_
  refine run_bind rfl fun _ _ => ?_
  refine run_bind rfl fun _ _ => ?_
  refine run_bind rfl fun _ hstart => ?_
  have hsize : d.matrix.start.size = d.columnCount + 1 := expectLength_eq_ok_iff.mp hstart
  refine run_bind rfl fun _ _ => ?_
  refine run_access_bind (getElem?_of_lt (by omega) 0) (run_guard ?_)
  exact run_access_bind (getElem?_of_lt (by omega) 0) rfl

theorem run_guardedStarts (hsize : d.matrix.start.size = d.columnCount + 1) :
    d.guardedStarts.run = some d.checkStarts := by
  have hfound : ((List.range d.columnCount).findM? fun j => do
      return (← d.matrix.start[j + 1]?) < (← d.matrix.start[j]?)) = some
      ((List.range d.columnCount).find? fun j =>
        decide (d.matrix.start.getD (j + 1) 0 < d.matrix.start.getD j 0)) := by
    refine findM?_eq_some_find? fun j hj => ?_
    have hj := List.mem_range.mp hj
    refine bind_eq_of_eq_some (getElem?_of_lt (by omega) 0) ?_
    exact bind_eq_of_eq_some (getElem?_of_lt (by omega) 0) rfl
  unfold guardedStarts checkStarts
  refine run_access_bind hfound ?_
  dsimp only
  generalize (List.range d.columnCount).find? _ = found
  cases found with
  | none => rfl
  | some j => rfl

variable [Scalar α]

theorem run_guardedMatrix (h : d.matrix.Compressed d.columnCount) :
    d.guardedMatrix.run = some d.checkMatrix :=
  run_forM fun _ hj => run_access_bind (h.guardedLine_eq (List.mem_range.mp hj)) rfl

theorem mapM_tidy_guardedLine (h : d.matrix.Compressed d.columnCount) :
    ((List.range d.columnCount).mapM fun j => do return tidy (← d.matrix.guardedLine j)) =
      some ((List.range d.columnCount).map fun j => tidy (d.matrix.line j)) :=
  mapM_eq_some_map fun _ hj => bind_eq_of_eq_some (h.guardedLine_eq (List.mem_range.mp hj)) rfl

theorem Acceptable.guardedTranspose_eq (h : d.Acceptable) :
    d.program.columns.guardedTranspose = some d.program.rows := by
  have hcompressed := compressed_program d
  rw [← lineCount_program d] at hcompressed
  exact h.lined_program.guardedTranspose_eq hcompressed

/-- Whatever a draft contains, nothing is read or written out of range. -/
theorem run_guardedBuild (d : Draft α) : d.guardedBuild.run = some d.build := by
  unfold guardedBuild build
  refine run_bind (run_guardedShape d) fun _ hshape => ?_
  have hshaped : d.Shaped := checkShape_eq_ok_iff.mp hshape
  refine run_bind rfl fun _ hoffset => ?_
  refine run_bind (run_guardedStarts hshaped.size_start) fun _ hstarts => ?_
  have hcompressed : d.matrix.Compressed d.columnCount :=
    hshaped.compressed (checkStarts_eq_ok_iff.mp hstarts)
  refine run_bind (run_guardedMatrix hcompressed) fun _ hmatrix => ?_
  refine run_bind rfl fun _ hcosts => ?_
  refine run_bind rfl fun _ hcolumns => ?_
  refine run_bind rfl fun _ hrows => ?_
  have hd : d.Acceptable :=
    acceptable_of_checks hshape hoffset hstarts hmatrix hcosts hcolumns hrows
  refine run_access_bind (mapM_tidy_guardedLine hcompressed) ?_
  exact run_access_bind hd.guardedTranspose_eq rfl

/-! ## Accepted drafts -/

/-- A draft makes the program `lp`, and only its nonzero entries matter for the matrix. -/
structure Determines (d : Draft α) (lp : LinearProgram α) : Prop where
  stores : lp.Stores d
  /-- Neither the order of the entries of a column nor explicit zeros make a difference. -/
  unique : ∀ a lp', ({ d with matrix := a } : Draft α).build = .ok lp' →
    (∀ j, j < d.columnCount → (nonzeros (a.line j)).Perm (nonzeros (d.matrix.line j))) → lp' = lp
  /-- Entries may change places, and explicit zeros may be left out. -/
  replaced : ∀ a : Matrix α, a.Compressed d.columnCount →
    (∀ j, j < d.columnCount → (a.line j).Subperm (d.matrix.line j) ∧
      (nonzeros (a.line j)).Perm (nonzeros (d.matrix.line j))) →
    ({ d with matrix := a } : Draft α).build = .ok lp
  dense : ∀ rows, d.Fits rows →
    (∀ i j x, j < d.columnCount → (x == 0) = false →
      ((i, x) ∈ d.matrix.line j ↔ rows[i]?.bind (·[j]?) = some x)) →
    (d.withDense rows).build = .ok lp
  again : (lp.toDraft d.infinity).build = .ok lp

theorem determines_of_build {lp : LinearProgram α} (h : d.build = .ok lp) : d.Determines lp where
  stores := by
    obtain ⟨hd, rfl⟩ := build_eq_ok_iff.mp h
    exact hd.stores
  unique _ _ h' hsame := build_unique h h' hsame
  replaced _ ha hpart :=
    build_replace h ha (fun j hj => (hpart j hj).1) fun j hj => (hpart j hj).2
  dense _ hfits hsame := build_withDense h hfits hsame
  again := build_toDraft h

/-- A draft is accepted exactly if it is without a fault, it is never accessed out of range, and
an accepted draft determines its program. -/
theorem build_accepts_and_stores (d : Draft α) :
    d.guardedBuild.run = some d.build ∧
    ((∃ lp, d.build = .ok lp) ↔ d.Acceptable) ∧
    (∀ lp, d.build = .ok lp → d.Determines lp) ∧
    ∀ rows, ¬d.Fits rows → ∃ e, (d.withDense rows).build = .error e := by
  refine ⟨run_guardedBuild d, ?_, fun _ h => determines_of_build h,
    fun _ hfits => build_withDense_of_not_fits hfits⟩
  constructor
  · rintro ⟨lp, h⟩
    exact (build_eq_ok_iff.mp h).1
  · intro h
    exact ⟨d.program, build_eq_ok_iff.mpr ⟨h, rfl⟩⟩

end Draft
end DualSimplex
