import DualSimplex.Basis
import DualSimplex.Parameters
import DualSimplex.Proofs.Bound
import DualSimplex.Proofs.Lines
import Mathlib.Data.List.Induction

/-!
# Programs that were accepted

What the checks of a draft and of a basis leave the engine to rely on.
-/

namespace DualSimplex

open Scalar

/-! ## Matrices -/

namespace Matrix

variable {α : Type}

/-- Every line starts within the stored entries, and the last one ends with
them. -/
structure Stored (a : Matrix α) : Prop where
  size_start : a.start.size = a.lineCount + 1
  size_value : a.value.size = a.index.size
  last : a.start.getD a.lineCount 0 = a.index.size
  start_le : ∀ k, a.start.getD k 0 ≤ a.index.size

variable {a : Matrix α}

theorem index_push (a : Matrix α) (line : List (Nat × α)) :
    (a.push line).index = a.index ++ (line.map Prod.fst).toArray := by
  simp [push]

theorem value_push (a : Matrix α) (line : List (Nat × α)) :
    (a.push line).value = a.value ++ (line.map Prod.snd).toArray := by
  simp [push]

theorem start_push (a : Matrix α) (line : List (Nat × α)) :
    (a.push line).start = a.start.push (a.index.size + line.length) := by
  simp [push]

theorem Stored.lineCount_push (h : a.Stored) (line : List (Nat × α)) :
    (a.push line).lineCount = a.lineCount + 1 := by
  rw [lineCount, start_push, Array.size_push, h.size_start]
  omega

theorem Stored.getD_start_push (h : a.Stored) (line : List (Nat × α)) (k : Nat) :
    (a.push line).start.getD k 0 =
      if k = a.lineCount + 1 then a.index.size + line.length else a.start.getD k 0 := by
  rw [start_push, getD_push, h.size_start]

theorem Stored.push (h : a.Stored) (line : List (Nat × α)) : (a.push line).Stored := by
  have hindex : (a.push line).index.size = a.index.size + line.length := by
    simp [index_push]
  refine ⟨?_, ?_, ?_, fun k => ?_⟩
  · rw [h.lineCount_push, start_push, Array.size_push, h.size_start]
  · simp [hindex, value_push, h.size_value]
  · rw [h.lineCount_push, h.getD_start_push, if_pos rfl, hindex]
  · rw [h.getD_start_push, hindex]
    have hle := h.start_le k
    split <;> omega

theorem getD_append {β : Type} (xs ys : Array β) (i : Nat) (d : β) :
    (xs ++ ys).getD i d = if i < xs.size then xs.getD i d else ys.getD (i - xs.size) d := by
  simp only [Array.getD_eq_getD_getElem?, Array.getElem?_append]
  split <;> rfl

theorem Stored.line_push [Scalar α] (h : a.Stored) (line : List (Nat × α)) (k : Nat) :
    (a.push line).line k = if k = a.lineCount then line else a.line k := by
  unfold Matrix.line
  rw [h.getD_start_push, h.getD_start_push, index_push, value_push]
  by_cases hk : k = a.lineCount
  · subst hk
    rw [if_neg (by omega), if_pos rfl, if_pos rfl, h.last]
    dsimp only
    rw [Nat.add_sub_cancel_left]
    refine List.ext_getElem (by simp) fun d hd _ => ?_
    have hlt : d < line.length := by simpa using hd
    simp [h.size_value, hlt]
  · rw [if_neg hk]
    by_cases hlt : k < a.lineCount
    · rw [if_neg (by omega), if_neg (by omega)]
      refine List.map_congr_left fun d hd => ?_
      have hd := List.mem_range.mp hd
      have hle := h.start_le (k + 1)
      rw [getD_append, getD_append, if_pos (by omega), if_pos (by rw [h.size_value]; omega)]
    · have hzero : ∀ l, a.lineCount < l → a.start.getD l 0 = 0 := fun l hl =>
        getD_of_size_le (by rw [h.size_start]; omega) 0
      rw [if_neg (show ¬ k + 1 = a.lineCount + 1 by omega), hzero (k + 1) (by omega)]
      simp

theorem stored_ofLines (width : Nat) (lines : List (List (Nat × α))) :
    (ofLines width lines).Stored ∧ (ofLines width lines).lineCount = lines.length := by
  induction lines using List.reverseRecOn with
  | nil => exact ⟨⟨rfl, rfl, rfl, fun k => by cases k <;> simp [ofLines]⟩, rfl⟩
  | append_singleton lines line ih =>
    have hpush : ofLines width (lines ++ [line]) = (ofLines width lines).push line := by
      simp [ofLines]
    rw [hpush, ih.1.lineCount_push, ih.2, List.length_append]
    exact ⟨ih.1.push line, rfl⟩

theorem line_ofLines [Scalar α] (width : Nat) (lines : List (List (Nat × α))) (k : Nat) :
    (ofLines width lines).line k = lines.getD k [] := by
  induction lines using List.reverseRecOn with
  | nil => simp [ofLines, Matrix.line]
  | append_singleton lines line ih =>
    obtain ⟨hstored, hcount⟩ := stored_ofLines width lines
    have hpush : ofLines width (lines ++ [line]) = (ofLines width lines).push line := by
      simp [ofLines]
    rw [hpush, hstored.line_push, ih, hcount]
    by_cases hk : k = lines.length
    · simp [hk]
    · rw [if_neg hk]
      by_cases hlt : k < lines.length
      · simp [List.getElem?_append, hlt]
      · simp [List.getElem?_append, hlt, show ¬ k - lines.length = 0 by omega]

end Matrix

/-! ## Checks -/

section Checks

variable {ε β γ : Type}

theorem exists_of_bind_eq_ok {x : Except ε β} {f : β → Except ε γ} {c : γ}
    (h : x >>= f = .ok c) : ∃ b, x = .ok b ∧ f b = .ok c := by
  cases x with
  | error e => exact absurd h nofun
  | ok b => exact ⟨b, rfl, h⟩

/-- A check that was run and passed. -/
theorem eq_ok_of_isSome {x : Except ε Unit} (h : x.toOption.isSome = true) : x = .ok () := by
  cases x with
  | error e => exact absurd h Bool.false_ne_true
  | ok u => rfl

/-- What was found of a result by running the check. -/
theorem exists_of_any_toOption {x : Except ε β} {P : β → Bool} (h : x.toOption.any P = true) :
    ∃ b, x = .ok b ∧ P b = true := by
  cases x with
  | error e => exact absurd h Bool.false_ne_true
  | ok b => exact ⟨b, rfl, h⟩

theorem of_forM_eq_ok {f : β → Except ε Unit} {l : List β} {u : Unit} (h : l.forM f = .ok u) :
    ∀ x ∈ l, f x = .ok () := by
  induction l with
  | nil => exact fun x hx => absurd hx List.not_mem_nil
  | cons y l ih =>
    obtain ⟨_, hy, hl⟩ := exists_of_bind_eq_ok h
    intro x hx
    rcases List.mem_cons.mp hx with rfl | hx
    · exact hy
    · exact ih hl x hx

theorem forM_eq_ok {f : β → Except ε Unit} {l : List β} (h : ∀ x ∈ l, f x = .ok ()) :
    l.forM f = .ok () := by
  induction l with
  | nil => rfl
  | cons y l ih =>
    show (f y >>= fun _ => l.forM f) = .ok ()
    rw [h y List.mem_cons_self]
    exact ih fun x hx => h x (List.mem_cons_of_mem y hx)

theorem of_mapM_eq_ok {f : β → Except ε γ} {l : List β} {ys : List γ} (h : l.mapM f = .ok ys) :
    ys.length = l.length ∧ ∀ y ∈ ys, ∃ x ∈ l, f x = .ok y := by
  induction l generalizing ys with
  | nil =>
    rw [List.mapM_nil] at h
    rw [← Except.ok.inj h]
    exact ⟨rfl, fun y hy => absurd hy List.not_mem_nil⟩
  | cons x l ih =>
    rw [List.mapM_cons] at h
    obtain ⟨y, hy, h⟩ := exists_of_bind_eq_ok h
    obtain ⟨zs, hzs, h⟩ := exists_of_bind_eq_ok h
    obtain ⟨hlen, hmem⟩ := ih hzs
    rw [← Except.ok.inj h, List.length_cons, List.length_cons, hlen]
    refine ⟨rfl, fun z hz => ?_⟩
    rcases List.mem_cons.mp hz with rfl | hz
    · exact ⟨x, List.mem_cons_self, hy⟩
    · obtain ⟨w, hw, he⟩ := hmem z hz
      exact ⟨w, List.mem_cons_of_mem x hw, he⟩

/-- A check that throws unless its condition fails. -/
theorem of_guard_eq_ok {c : Prop} [Decidable c] {e : ε} {f : Unit → Except ε β} {b : β}
    (h : (if c then throw e >>= f else f ()) = .ok b) : ¬ c ∧ f () = .ok b := by
  split at h
  · exact absurd h nofun
  · exact ⟨by assumption, h⟩

end Checks

variable {α : Type} [Scalar α]

/-- The infinities of the number type are not among the numbers. -/
def Bound.Canonical (b : Bound α) : Prop :=
  ∀ x, b = .finite x → Scalar.isFinite x = true ∨ Scalar.isNaN x = true

theorem Bound.canonical_ofScalar (x : α) : (Bound.ofScalar x).Canonical := by
  intro y hy
  unfold Bound.ofScalar at hy
  split at hy
  · rename_i hx
    rw [← Bound.finite.inj hy]
    exact Bool.or_eq_true_iff.mp hx
  · split at hy <;> exact absurd hy nofun

namespace Draft

/-- A draft whose bounds were read off numbers. -/
structure Canonical (d : Draft α) : Prop where
  columnLower : ∀ b ∈ d.columnLower, b.Canonical
  columnUpper : ∀ b ∈ d.columnUpper, b.Canonical
  rowLower : ∀ b ∈ d.rowLower, b.Canonical
  rowUpper : ∀ b ∈ d.rowUpper, b.Canonical

/-- Exact bounds are numbers. -/
theorem canonical_exact {cutoff : Rat} (d : Draft (Exact cutoff)) : d.Canonical := by
  constructor <;> exact fun _ _ _ _ => Or.inl rfl

omit [Scalar α] in
theorem of_expectLength {part : DraftPart} {n m : Nat} {u : Unit}
    (h : expectLength (α := α) part n m = .ok u) : n = m := by
  unfold expectLength at h
  split at h
  · assumption
  · exact absurd h nofun

theorem of_checkEntries {rowCount column : Nat} {seen : List Nat} {entries : List (Nat × α)}
    {u : Unit} (h : checkEntries rowCount column seen entries = .ok u) :
    DistinctKeys entries ∧ ∀ t ∈ entries, t.1 < rowCount ∧ t.1 ∉ seen := by
  induction entries generalizing seen with
  | nil => exact ⟨distinctKeys_nil, fun t ht => absurd ht List.not_mem_nil⟩
  | cons t entries ih =>
    obtain ⟨row, x⟩ := t
    unfold checkEntries at h
    split at h
    · exact absurd h nofun
    · rename_i hrow
      split at h
      · exact absurd h nofun
      · rename_i hseen
        split at h
        · obtain ⟨hkeys, hrest⟩ := ih h
          refine ⟨List.nodup_cons.mpr ⟨fun hmem => ?_, hkeys⟩, fun t ht => ?_⟩
          · obtain ⟨s, hs, he⟩ := List.mem_map.mp hmem
            exact (hrest s hs).2 (he ▸ List.mem_cons_self)
          · rcases List.mem_cons.mp ht with rfl | ht
            · exact ⟨Nat.lt_of_not_le hrow, fun hmem => hseen (List.contains_iff_mem.mpr hmem)⟩
            · exact ⟨(hrest t ht).1, fun hmem => (hrest t ht).2 (List.mem_cons_of_mem _ hmem)⟩
        · exact absurd h nofun

theorem tidy_perm (column : List (Nat × α)) :
    (tidy column).Perm (column.filter fun t => !(t.2 == 0)) :=
  List.mergeSort_perm ..

theorem isFinite_of_normalize {infinity x : α} {b : Bound α} (hb : b.Canonical)
    (hnumber : b.isNaN = false) (h : b.normalize infinity = .finite x) :
    Scalar.isFinite x = true := by
  cases b with
  | negInf => exact absurd h nofun
  | posInf => exact absurd h nofun
  | finite y =>
    have hy : y = x := by
      unfold Bound.normalize at h
      dsimp only at h
      split at h
      · exact absurd h nofun
      · split at h
        · exact absurd h nofun
        · exact Bound.finite.inj h
    subst hy
    refine (hb y rfl).resolve_right fun hnan => ?_
    rw [Bound.isNaN, hnan] at hnumber
    exact absurd hnumber nofun

theorem canonical_of_bounds {infinity : α} {kind : VariableKind} {index : Nat}
    {b b' : Interval α} (hlower : b.lower.Canonical) (hupper : b.upper.Canonical)
    (h : bounds infinity kind index b = .ok b') : b'.Canonical := by
  unfold bounds at h
  split at h
  · exact absurd h nofun
  · rename_i hnumber
    rw [Bool.not_eq_true, Bool.or_eq_false_iff] at hnumber
    dsimp only at h
    split at h
    · exact absurd h nofun
    · exact absurd h nofun
    · rename_i hl hu
      split at h
      · exact absurd h nofun
      · rw [← Except.ok.inj h]
        exact ⟨hl, hu, fun x hx => isFinite_of_normalize hlower hnumber.1 hx,
          fun x hx => isFinite_of_normalize hupper hnumber.2 hx⟩

/-- Every interval was made of two bounds of the draft. -/
theorem of_allBounds {infinity : α} {kind : VariableKind} {lower upper : Array (Bound α)}
    {bs : Array (Interval α)} (h : allBounds infinity kind lower upper = .ok bs) :
    bs.size = min lower.size upper.size ∧ ∀ b ∈ bs, ∃ l ∈ lower, ∃ u ∈ upper, ∃ k,
      bounds infinity kind k { lower := l, upper := u } = .ok b := by
  unfold allBounds at h
  obtain ⟨checked, hchecked, h⟩ := exists_of_bind_eq_ok h
  obtain ⟨hlen, hmem⟩ := of_mapM_eq_ok hchecked
  rw [← Except.ok.inj h]
  refine ⟨?_, fun b hb => ?_⟩
  · rw [List.size_toArray, hlen]
    simp
  · obtain ⟨⟨b', k⟩, hb', he⟩ := hmem b (List.mem_toArray.mp hb)
    have hzip := List.fst_mem_of_mem_zipIdx hb'
    rw [← List.map_uncurry_zip_eq_zipWith] at hzip
    obtain ⟨⟨l, u⟩, hlu, rfl⟩ := List.mem_map.mp hzip
    exact ⟨l, Array.mem_toList_iff.mp (List.of_mem_zip hlu).1, u,
      Array.mem_toList_iff.mp (List.of_mem_zip hlu).2, k, he⟩

/-- A draft whose row bounds come back when they are negated twice.  Those that are
numbers do, and only a mark does not. -/
structure Reflexive (d : Draft α) : Prop where
  rowLower : ∀ b ∈ d.rowLower, b.neg.neg = b
  rowUpper : ∀ b ∈ d.rowUpper, b.neg.neg = b

theorem neg_neg_normalize {b : Bound α} (h : b.neg.neg = b) (infinity : α) :
    (b.normalize infinity).neg.neg = b.normalize infinity := by
  cases b with
  | negInf => rfl
  | posInf => rfl
  | finite x =>
    unfold Bound.normalize
    dsimp only
    split
    · rfl
    · split
      · rfl
      · exact h

theorem neg_neg_of_bounds {infinity : α} {kind : VariableKind} {index : Nat}
    {b b' : Interval α} (hlower : b.lower.neg.neg = b.lower) (hupper : b.upper.neg.neg = b.upper)
    (h : bounds infinity kind index b = .ok b') : b'.neg.neg = b' := by
  unfold bounds at h
  split at h
  · exact absurd h nofun
  · dsimp only at h
    split at h
    · exact absurd h nofun
    · exact absurd h nofun
    · split at h
      · exact absurd h nofun
      · rw [← Except.ok.inj h]
        exact congr (congrArg Interval.mk (neg_neg_normalize hlower infinity))
          (neg_neg_normalize hupper infinity)

/-- The bounds of a program are those of its draft. -/
theorem allBounds_of_build {d : Draft α} {lp : LinearProgram α} (h : d.build = .ok lp) :
    allBounds d.infinity .column d.columnLower d.columnUpper = .ok lp.columnBounds ∧
    allBounds d.infinity .row d.rowLower d.rowUpper = .ok lp.rowBounds := by
  unfold build at h
  obtain ⟨_, -, h⟩ := exists_of_bind_eq_ok h
  obtain ⟨_, -, h⟩ := exists_of_bind_eq_ok h
  obtain ⟨_, -, h⟩ := exists_of_bind_eq_ok h
  obtain ⟨_, -, h⟩ := exists_of_bind_eq_ok h
  obtain ⟨_, -, h⟩ := exists_of_bind_eq_ok h
  obtain ⟨columnBounds, hcolumnBounds, h⟩ := exists_of_bind_eq_ok h
  obtain ⟨rowBounds, hrowBounds, h⟩ := exists_of_bind_eq_ok h
  rw [← Except.ok.inj h]
  exact ⟨hcolumnBounds, hrowBounds⟩

theorem neg_neg_rowBounds {d : Draft α} (hd : d.Reflexive) {lp : LinearProgram α}
    (h : d.build = .ok lp) : ∀ b ∈ lp.rowBounds, b.neg.neg = b := by
  intro b hb
  obtain ⟨l, hl, u, hu, k, hbounds⟩ := (of_allBounds (allBounds_of_build h).2).2 b hb
  exact neg_neg_of_bounds (hd.rowLower l hl) (hd.rowUpper u hu) hbounds

theorem not_above_of_bounds {infinity : α} {kind : VariableKind} {index : Nat}
    {b b' : Interval α} (h : bounds infinity kind index b = .ok b') :
    b'.lower.above b'.upper = false := by
  unfold bounds at h
  split at h
  · exact absurd h nofun
  · dsimp only at h
    split at h
    · exact absurd h nofun
    · exact absurd h nofun
    · split at h
      · exact absurd h nofun
      · rename_i habove
        rw [← Except.ok.inj h]
        exact Bool.eq_false_iff.mpr habove

/-- No lower bound lies above the upper one. -/
theorem not_above_build {d : Draft α} {lp : LinearProgram α} (h : d.build = .ok lp) :
    (∀ b ∈ lp.columnBounds, b.lower.above b.upper = false) ∧
    ∀ b ∈ lp.rowBounds, b.lower.above b.upper = false := by
  obtain ⟨hcolumns, hrows⟩ := allBounds_of_build h
  constructor
  · intro b hb
    obtain ⟨_, -, _, -, _, hbounds⟩ := (of_allBounds hcolumns).2 b hb
    exact not_above_of_bounds hbounds
  · intro b hb
    obtain ⟨_, -, _, -, _, hbounds⟩ := (of_allBounds hrows).2 b hb
    exact not_above_of_bounds hbounds

end Draft

/-- What the engine relies on of a program. -/
structure LinearProgram.WellFormed (lp : LinearProgram α) : Prop where
  size_columnBounds : lp.columnBounds.size = lp.columnCount
  column_keys : ∀ j, j < lp.columnCount → DistinctKeys (lp.columns.line j)
  row_lt : ∀ j, j < lp.columnCount → ∀ t ∈ lp.columns.line j, t.1 < lp.rowCount
  columnBounds : ∀ b ∈ lp.columnBounds, b.Canonical
  rowBounds : ∀ b ∈ lp.rowBounds, b.Canonical
  /-- The matrix has a line for each column, and the matrix by row is its transpose. -/
  lines : ∃ lines : List (List (Nat × α)), lines.length = lp.columnCount ∧
    lp.columns = Matrix.ofLines lp.rowCount lines ∧ lp.rows = lp.columns.transpose

/-- A program that was accepted is well formed. -/
theorem Draft.wellFormed_build {d : Draft α} (hd : d.Canonical) {lp : LinearProgram α}
    (h : d.build = .ok lp) : lp.WellFormed := by
  unfold build at h
  obtain ⟨_, hshape, h⟩ := exists_of_bind_eq_ok h
  obtain ⟨_, -, h⟩ := exists_of_bind_eq_ok h
  obtain ⟨_, -, h⟩ := exists_of_bind_eq_ok h
  obtain ⟨_, hmatrix, h⟩ := exists_of_bind_eq_ok h
  obtain ⟨_, -, h⟩ := exists_of_bind_eq_ok h
  obtain ⟨columnBounds, hcolumnBounds, h⟩ := exists_of_bind_eq_ok h
  obtain ⟨rowBounds, hrowBounds, h⟩ := exists_of_bind_eq_ok h
  unfold checkShape at hshape
  obtain ⟨_, hcosts, hshape⟩ := exists_of_bind_eq_ok hshape
  obtain ⟨_, hcolumnLower, hshape⟩ := exists_of_bind_eq_ok hshape
  obtain ⟨_, hcolumnUpper, hshape⟩ := exists_of_bind_eq_ok hshape
  obtain ⟨_, hrowLower, hshape⟩ := exists_of_bind_eq_ok hshape
  obtain ⟨_, hrowUpper, -⟩ := exists_of_bind_eq_ok hshape
  have hcosts := of_expectLength hcosts
  obtain ⟨hcolumnSize, hcolumn⟩ := of_allBounds hcolumnBounds
  obtain ⟨hrowSize, hrow⟩ := of_allBounds hrowBounds
  rw [← of_expectLength hcolumnLower, ← of_expectLength hcolumnUpper, min_self] at hcolumnSize
  rw [← of_expectLength hrowLower, ← of_expectLength hrowUpper, min_self] at hrowSize
  have hentries : ∀ j, j < d.columnCount → DistinctKeys (d.matrix.line j) ∧
      ∀ t ∈ d.matrix.line j, t.1 < d.rowCount := by
    intro j hj
    obtain ⟨hkeys, hrows⟩ :=
      of_checkEntries (of_forM_eq_ok hmatrix j (List.mem_range.mpr hj))
    exact ⟨hkeys, fun t ht => (hrows t ht).1⟩
  rw [← Except.ok.inj h]
  have hline : ∀ j, j < d.columnCount → (Matrix.ofLines d.rowCount
      ((List.range d.columnCount).map fun j => tidy (d.matrix.line j))).line j =
      tidy (d.matrix.line j) := by
    intro j hj
    rw [Matrix.line_ofLines, List.getD_eq_getElem?_getD, List.getElem?_map, List.getElem?_range hj]
    rfl
  refine ⟨hcolumnSize.trans hcosts, fun j hj => ?_, fun j hj t ht => ?_, fun b hb => ?_,
    fun b hb => ?_, ⟨(List.range d.columnCount).map fun j => tidy (d.matrix.line j), ?_, ?_, rfl⟩⟩
  · have hj : j < d.columnCount := hcosts.symm ▸ hj
    show DistinctKeys (Matrix.line _ j)
    rw [hline j hj]
    exact ((hentries j hj).1.filter _).perm (tidy_perm _)
  · have hj : j < d.columnCount := hcosts.symm ▸ hj
    have ht : t ∈ Matrix.line _ j := ht
    rw [hline j hj, (tidy_perm _).mem_iff] at ht
    exact Nat.lt_of_lt_of_eq ((hentries j hj).2 t (List.mem_filter.mp ht).1) hrowSize.symm
  · obtain ⟨l, hl, u, hu, k, hbounds⟩ := hcolumn b hb
    exact canonical_of_bounds (hd.columnLower l hl) (hd.columnUpper u hu) hbounds
  · obtain ⟨l, hl, u, hu, k, hbounds⟩ := hrow b hb
    exact canonical_of_bounds (hd.rowLower l hl) (hd.rowUpper u hu) hbounds
  · rw [List.length_map, List.length_range]
    exact hcosts
  · exact congrArg (Matrix.ofLines · _) hrowSize.symm

/-! ## Bases -/

/-- What the engine relies on of a basis for a program. -/
structure Basis.Valid (b : Basis) (lp : LinearProgram α) : Prop where
  size_columns : b.columns.size = lp.columnCount
  size_rows : b.rows.size = lp.rowCount
  count : b.basicCount = lp.rowCount
  columns : ∀ j d, (lp.columnBounds.getD j d).allows (b.columns.getD j .basic) = true
  rows : ∀ i d, (lp.rowBounds.getD i d).allows (b.rows.getD i .basic) = true

theorem Basis.allows_of_checkStatuses {kind : VariableKind} {statuses : Array VariableStatus}
    {bounds : Array (Interval α)} {u : Unit} (h : checkStatuses kind statuses bounds = .ok u)
    (hsize : statuses.size = bounds.size) (j : Nat) (d : Interval α) :
    (bounds.getD j d).allows (statuses.getD j .basic) = true := by
  by_cases hj : j < statuses.size
  · have hj' : j < bounds.size := hsize ▸ hj
    have hmem : ((statuses[j], bounds[j]), j) ∈
        (List.zip statuses.toList bounds.toList).zipIdx := by
      rw [List.mk_mem_zipIdx_iff_getElem?, List.getElem?_zip_eq_some]
      exact ⟨by simp [hj], by simp [hj']⟩
    have hcheck := of_forM_eq_ok h _ hmem
    dsimp only at hcheck
    rw [getD_eq_getElem hj, getD_eq_getElem hj']
    split at hcheck
    · assumption
    · exact absurd hcheck nofun
  · rw [getD_of_size_le (Nat.le_of_not_lt hj) VariableStatus.basic]
    rfl

theorem Basis.valid_of_size {b : Basis} {lp : LinearProgram α}
    (hsize : lp.columnBounds.size = lp.columnCount) {u : Unit} (h : b.validate lp = .ok u) :
    b.Valid lp := by
  unfold validate at h
  obtain ⟨hcolumns, h⟩ := of_guard_eq_ok h
  obtain ⟨hrows, h⟩ := of_guard_eq_ok h
  obtain ⟨hcount, h⟩ := of_guard_eq_ok h
  obtain ⟨_, hcheck, hcheck'⟩ := exists_of_bind_eq_ok h
  rw [not_not] at hcolumns hrows hcount
  exact ⟨hcolumns, hrows, hcount,
    allows_of_checkStatuses hcheck (hcolumns.trans hsize.symm),
    allows_of_checkStatuses hcheck' hrows⟩

theorem Basis.valid_of_validate {b : Basis} {lp : LinearProgram α} (hlp : lp.WellFormed) {u : Unit}
    (h : b.validate lp = .ok u) : b.Valid lp :=
  valid_of_size hlp.size_columnBounds h

theorem Basis.checkStatuses_eq_ok (kind : VariableKind) {statuses : Array VariableStatus}
    {bounds : Array (Interval α)} {d : Interval α}
    (h : ∀ j, (bounds.getD j d).allows (statuses.getD j .basic) = true) :
    checkStatuses kind statuses bounds = .ok () := by
  refine forM_eq_ok fun x hx => ?_
  obtain ⟨⟨s, b⟩, k⟩ := x
  rw [List.mk_mem_zipIdx_iff_getElem?, List.getElem?_zip_eq_some] at hx
  obtain ⟨hs, hb⟩ := hx
  have hallows := h k
  rw [Array.getD_eq_getD_getElem?, Array.getD_eq_getD_getElem?, ← Array.getElem?_toList,
    ← Array.getElem?_toList, hs, hb] at hallows
  exact if_pos hallows

theorem Basis.validate_of_valid {b : Basis} {lp : LinearProgram α} (h : b.Valid lp) :
    b.validate lp = .ok () := by
  have hcolumns := checkStatuses_eq_ok .column
    fun j => h.columns j { lower := .negInf, upper := .posInf }
  have hrows := checkStatuses_eq_ok .row
    fun i => h.rows i { lower := .negInf, upper := .posInf }
  unfold validate
  rw [if_neg (not_not.mpr h.size_columns), if_neg (not_not.mpr h.size_rows),
    if_neg (not_not.mpr h.count), hcolumns]
  exact hrows

/-! ## Parameters -/

/-- Tolerances that were accepted are positive. -/
theorem Parameters.tolerances_of_validate {p : Parameters α} {u : Unit} (h : p.validate = .ok u) :
    (Scalar.isFinite p.primalTolerance = true ∧ 0 < p.primalTolerance) ∧
    (Scalar.isFinite p.dualTolerance = true ∧ 0 < p.dualTolerance) ∧
    Scalar.isFinite p.pivotTolerance = true ∧ 0 < p.pivotTolerance := by
  have htolerance : ∀ (name : ToleranceName) (x : α) (u : Unit), checkTolerance name x = .ok u →
      Scalar.isFinite x = true ∧ 0 < x := by
    intro name x u hx
    unfold checkTolerance at hx
    split at hx
    · rename_i hcheck
      rw [Bool.and_eq_true, decide_eq_true_eq] at hcheck
      exact hcheck
    · exact absurd hx nofun
  unfold validate at h
  obtain ⟨_, hprimal, h⟩ := exists_of_bind_eq_ok h
  obtain ⟨_, hdual, h⟩ := exists_of_bind_eq_ok h
  obtain ⟨_, hpivot, -⟩ := exists_of_bind_eq_ok h
  exact ⟨htolerance _ _ _ hprimal, htolerance _ _ _ hdual, htolerance _ _ _ hpivot⟩

end DualSimplex
