import DualSimplex.Proofs.Factor.RowEta
import DualSimplex.Proofs.Factor.Structure

/-!
# Solving with factors

Both triangles of well-formed factors are triangles as the sweeps see them, so
that every stage of a solve inverts one factor of the matrix.  The stages of a
solve with the transpose are the transposes of these stages, and inner products
go from the one solve to the other.
-/

namespace DualSimplex

open Scalar

variable {α : Type} [Scalar α]

/-! ## Moving a vector -/

namespace LU

section Relocate

variable {m : Nat} {f g : Nat → Nat} (hfg : MutuallyInverse m f g) {v : SparseVector α}
  (hv : v.Listed m)

include hfg hv

theorem get_relocate_of_mem [LawfulScalar α] {i : Nat} (hi : i ∈ v.support) :
    (relocate f v).get (f i) = v.get i := by
  have hnodup : (v.entries.map fun t => f t.1).Nodup := by
    rw [SparseVector.entries, List.map_map]
    refine List.Nodup.map_on (fun j hj k hk e => ?_) hv.nodup
    rw [← (hfg.left j (hv.lt hj)).2, show f j = f k from e, (hfg.left k (hv.lt hk)).2]
  refine getD_foldl_set_of_mem (fun t : Nat × α => f t.1) Prod.snd hnodup
    (t := (i, v.get i)) (List.mem_map.mpr ⟨i, hi, rfl⟩) ?_ 0
  rw [SparseVector.size_foldl_zero]
  exact Nat.lt_of_lt_of_eq (hfg.left i (hv.lt hi)).1 hv.dim_eq.symm

omit hfg in
theorem get_relocate_of_notMem [LawfulScalar α] {j : Nat} (hj : ∀ i ∈ v.support, f i ≠ j) :
    ((relocate f v).get j == 0) = true := by
  have hcleared : (relocate f v).get j =
      (v.support.foldl (fun xs i => xs.setIfInBounds i 0) v.values).getD j 0 := by
    refine getD_foldl_set_of_notMem (fun t : Nat × α => f t.1) Prod.snd (fun t ht => ?_) _ 0
    obtain ⟨i, hi, rfl⟩ := List.mem_map.mp ht
    exact hj i hi
  rw [hcleared, SparseVector.getD_foldl_zero]
  split
  · exact zero_beq_zero
  · rename_i hmem
    exact hv.beq_zero hmem

theorem listed_relocate [LawfulScalar α] : (relocate f v).Listed m := by
  refine ⟨?_, ?_, fun j => ?_⟩
  · exact (size_foldl_set (fun t : Nat × α => f t.1) Prod.snd _ _).trans
      ((SparseVector.size_foldl_zero _ _).trans hv.dim_eq)
  · refine List.Nodup.map_on (fun j hj k hk e => ?_) hv.nodup
    rw [← (hfg.left j (hv.lt hj)).2, e, (hfg.left k (hv.lt hk)).2]
  · show j ∈ v.support.map f ↔ _
    rw [List.mem_map]
    by_cases hj : ∃ i ∈ v.support, f i = j
    · obtain ⟨i, hi, rfl⟩ := hj
      rw [get_relocate_of_mem hfg hv hi, ← hv.mem_support]
      exact ⟨fun _ => hi, fun _ => ⟨i, hi, rfl⟩⟩
    · rw [get_relocate_of_notMem hv fun i hi e => hj ⟨i, hi, e⟩]
      exact ⟨fun h => absurd h hj, fun h => absurd h Bool.noConfusion⟩

end Relocate

theorem valueAt_relocate {m : Nat} {f g : Nat → Nat} (hfg : MutuallyInverse m f g)
    {v : SparseVector (Exact 0)} (hv : v.Listed m) {j : Nat} (hj : j < m) :
    (relocate f v).valueAt j = v.valueAt (g j) := by
  by_cases hmem : g j ∈ v.support
  · have h := get_relocate_of_mem hfg hv hmem
    rw [(hfg.right j hj).2] at h
    rw [SparseVector.valueAt, h]
    rfl
  · rw [hv.valueAt_eq_zero hmem]
    refine Exact.value_eq_zero_of_beq (get_relocate_of_notMem hv fun i hi e => hmem ?_)
    rw [← e, (hfg.left i (hv.lt hi)).2]
    exact hi

end LU

/-! ## Triangles of well-formed factors -/

namespace LU.WellFormed

variable {lu : LU α} (h : lu.WellFormed)

include h

theorem numbered_lower : lu.lowerTriangle.Numbered lu.m where
  sorted := List.pairwise_lt_range
  place_lt k hk := (h.steps.left k (List.mem_range.mp hk)).1
  rank_place k hk := (h.steps.left k (List.mem_range.mp hk)).2
  rank_mem i hi := List.mem_range.mpr (h.steps.right i hi).1
  place_rank i hi := (h.steps.right i hi).2

theorem later_lower : lu.lowerTriangle.Later .ascending lu.lowerColumn lu.m := fun k hk t ht =>
  h.lower_later k (List.mem_range.mp hk) t ht

theorem numbered_upper : lu.upperTriangle.Numbered lu.m where
  sorted := List.pairwise_lt_range.filter _
  place_lt s hs := h.upper.labelOf_lt s ((UpperTriangle.mem_slots h.upper).mp hs)
  rank_place s hs := h.upper.slotOf_labelOf s ((UpperTriangle.mem_slots h.upper).mp hs)
  rank_mem i hi := (UpperTriangle.mem_slots h.upper).mpr (h.upper.isActive_slotOf i hi)
  place_rank i hi := h.upper.labelOf_slotOf i hi

theorem later_upper : lu.upperTriangle.Later .descending lu.upper.column lu.m := fun s _ t ht =>
  ⟨h.upper.label_lt ht, h.upper.slotOf_lt_of_mem s t ht⟩

theorem mem_upperRow (s i : Nat) (x : α) : (i, x) ∈ lu.upperTriangle.row s ↔
    i < lu.m ∧ (lu.upper.labelOf s, x) ∈ lu.upper.column (lu.upper.slotOf i) := by
  show (i, x) ∈ (lu.upper.row (lu.upper.labelOf s)).map (fun t =>
    (lu.upper.labelOf t.1, t.2)) ↔ _
  constructor
  · intro hx
    obtain ⟨⟨later, y⟩, hy, he⟩ := List.mem_map.mp hx
    obtain ⟨rfl, rfl⟩ := Prod.mk.inj he
    have hcolumn := (h.upper.mem_row _ _ _).mp hy
    have hactive := h.upper.isActive_of_mem _ _ hcolumn
    refine ⟨h.upper.labelOf_lt later hactive, ?_⟩
    rw [h.upper.slotOf_labelOf later hactive]
    exact hcolumn
  · rintro ⟨hi, hx⟩
    refine List.mem_map.mpr ⟨(lu.upper.slotOf i, x), (h.upper.mem_row _ _ _).mpr hx, ?_⟩
    exact congrArg (·, x) (h.upper.labelOf_slotOf i hi)

theorem later_lowerRow : lu.lowerTriangle.Later .descending lu.lowerTriangle.row lu.m :=
  Triangle.Later.transpose (d := .ascending) h.numbered_lower h.later_lower fun _ _ i x =>
    (h.mem_lowerRow _ i x).mp

theorem later_upperRow : lu.upperTriangle.Later .ascending lu.upperTriangle.row lu.m :=
  Triangle.Later.transpose (d := .descending) h.numbered_upper h.later_upper fun s _ i x =>
    (h.mem_upperRow s i x).mp

end LU.WellFormed

theorem LU.storable_lower [LawfulScalar α] (lu : LU α) : lu.lowerTriangle.Storable where
  solution _ _ _ hx := div_one_beq_zero hx
  retire _ hx := hx

/-! ## The spike -/

section Spike

variable [LawfulScalar α] {m : Nat} {v : SparseVector α}

theorem LU.WellFormed.listed_lower {lu : LU α} (h : lu.WellFormed) (hv : v.Listed lu.m) :
    (lu.lowerTriangle.solve .ascending v).vector.Listed lu.m :=
  Triangle.listed_solve h.numbered_lower h.later_lower lu.storable_lower hv

/-- The spike of a solve is listed, however the numbers are rounded. -/
theorem LU.WellFormed.listed_spike {lu : LU α} (h : lu.WellFormed) (hv : v.Listed lu.m) :
    (lu.ftran v).spike.Listed lu.m :=
  (SparseVector.listed_zero _ _).assign
    (RowEta.listed_foldl_mulVec (fun r hr => (h.etas r hr).1) (h.listed_lower hv))

end Spike

/-! ## The matrix that is factored -/

namespace LU

/-- Well-formed factors without zeros on the diagonal. -/
structure Solvable (lu : LU (Exact 0)) : Prop extends lu.WellFormed where
  diagonal : ∀ s, lu.upper.isActive s = true → (lu.upper.diagonalAt s).value ≠ 0

/-- The value at a row and position of the matrix. -/
def matrixAt (lu : LU (Exact 0)) (i position : Nat) : ℚ :=
  arrayAt (lu.matrixColumn position) i

/-- The column from which the lower triangle and the etas make another. -/
def restore (lu : LU (Exact 0)) (f : Nat → ℚ) (i : Nat) : ℚ :=
  ∑ j ∈ Finset.range lu.m, lu.lowerTriangle.entry i j * lu.etas.foldr RowEta.undo f j

theorem restore_sum (lu : LU (Exact 0)) (s : Finset Nat) (c : Nat → ℚ) (f : Nat → Nat → ℚ)
    (i : Nat) :
    lu.restore (fun i => ∑ p ∈ s, c p * f p i) i = ∑ p ∈ s, c p * lu.restore (f p) i := by
  rw [restore, RowEta.foldr_undo_sum]
  simp only [restore, Finset.mul_sum]
  rw [Finset.sum_comm]
  exact Finset.sum_congr rfl fun p _ => Finset.sum_congr rfl fun j _ => by ring

theorem restore_congr {lu : LU (Exact 0)} (hetas : ∀ r ∈ lu.etas, r.Within lu.m)
    {f g : Nat → ℚ} (h : ∀ i, i < lu.m → f i = g i) (i : Nat) : lu.restore f i = lu.restore g i :=
  Finset.sum_congr rfl fun j hj => by
    rw [RowEta.foldr_undo_congr hetas h (Finset.mem_range.mp hj)]

theorem rowsAt_toRows (lu : LU (Exact 0)) {i j : Nat} (hi : i < lu.m) (hj : j < lu.m) :
    rowsAt lu.toRows i j = lu.matrixAt i j := by
  have hrow : lu.toRows.getD i [] =
      ((List.range lu.m).map lu.matrixColumn).map fun c => c.getD i 0 := by
    rw [toRows, List.getD_eq_getElem?_getD, List.getElem?_map, List.getElem?_range hi]
    rfl
  rw [rowsAt, hrow, List.getD_eq_getElem?_getD, List.getElem?_map, List.getElem?_map,
    List.getElem?_range hj]
  rfl

@[simp] theorem size_undoEta (column : Array (Exact 0)) (r : RowEta (Exact 0)) :
    (undoEta column r).size = column.size :=
  Array.size_modify

theorem arrayAt_undoEta {column : Array (Exact 0)} {r : RowEta (Exact 0)}
    (hpivot : r.pivot < column.size) : arrayAt (undoEta column r) = r.undo (arrayAt column) := by
  have hshift : ∀ (values : List (Nat × Exact 0)) (total : Exact 0),
      (values.foldl (fun total t => total + t.2 * column.getD t.1 0) total).value =
        total.value + (values.map fun t => t.2.value * arrayAt column t.1).sum := by
    intro values
    induction values with
    | nil => exact fun total => (add_zero _).symm
    | cons t values ih =>
      intro total
      rw [List.foldl_cons, ih, List.map_cons, List.sum_cons, ← add_assoc]
      rfl
  funext i
  rw [undoEta, arrayAt_modify hpivot, RowEta.undo, Exact.value_add, hshift, Exact.value_zero,
    zero_add]
  rfl

@[simp] theorem size_undoStep (lu : LU (Exact 0)) (column : Array (Exact 0)) (k : Nat) :
    (lu.undoStep column k).size = column.size :=
  size_foldl_modify Prod.fst (fun t x => x + t.2 * column.getD (lu.pivotRow k) 0) _ _

/-- Add the column of a step, as often as its row holds. -/
def expand (lu : LU (Exact 0)) (f : Nat → ℚ) (k i : Nat) : ℚ :=
  f i + Exact.coefficient (lu.lowerColumn k) i * f (lu.pivotRow k)

@[simp] theorem size_upperColumn (lu : LU (Exact 0)) (p : Nat) :
    (lu.upperColumn p).size = lu.m := by
  refine (size_foldl_set Prod.fst Prod.snd _ _).trans ?_
  rw [Array.size_setIfInBounds, Array.size_replicate]

namespace WellFormed

variable {lu : LU (Exact 0)} (h : lu.WellFormed)

include h

/-- Reading the column of a position off the upper triangle. -/
theorem arrayAt_upperColumn {p : Nat} (hp : p < lu.m) :
    arrayAt (lu.upperColumn p) = fun i => lu.upperTriangle.entry i (lu.labels.apply p) := by
  have hlabel := (h.positions.left p hp).1
  have hsize : ((Array.replicate lu.m (0 : Exact 0)).setIfInBounds (lu.labels.apply p)
      (lu.upper.diagonalAt (lu.upper.slotOf (lu.labels.apply p)))).size = lu.m := by
    rw [Array.size_setIfInBounds, Array.size_replicate]
  have hdiagonal : ∀ j, j < lu.m → arrayAt ((Array.replicate lu.m (0 : Exact 0)).setIfInBounds
      (lu.labels.apply p) (lu.upper.diagonalAt (lu.upper.slotOf (lu.labels.apply p)))) j =
      if j = lu.labels.apply p then
        (lu.upper.diagonalAt (lu.upper.slotOf (lu.labels.apply p))).value else 0 := by
    intro j hj
    rw [arrayAt, getD_setIfInBounds, Array.size_replicate, getD_replicate, ite_self]
    by_cases he : j = lu.labels.apply p
    · rw [if_pos ⟨he.symm, hj⟩, if_pos he]
    · rw [if_neg fun h' => he h'.1.symm, if_neg he]
      rfl
  funext i
  by_cases hi : i < lu.m
  · refine (arrayAt_foldl_set (h.upper.column_keys _) (fun t ht => ?_)
      (by rw [hsize]; exact hi)).trans (congrArg (· + _) (hdiagonal i hi))
    rw [hdiagonal t.1 (h.upper.label_lt ht), if_neg]
    rintro e
    have hearlier := h.upper.slotOf_lt_of_mem _ _ ht
    rw [e] at hearlier
    exact Nat.lt_irrefl _ hearlier
  · have hnone : Exact.coefficient (lu.upperTriangle.column
        (lu.upperTriangle.rank (lu.labels.apply p))) i = 0 :=
      Exact.coefficient_of_notMem fun t ht (e : t.1 = i) => hi (e ▸ h.upper.label_lt ht)
    rw [Triangle.entry, Triangle.entryBy, if_neg fun (e : i = _) => hi (e ▸ hlabel), hnone,
      add_zero, arrayAt, getD_of_size_le (by rw [size_upperColumn]; omega)]
    rfl

theorem arrayAt_undoStep {column : Array (Exact 0)} (hsize : column.size = lu.m) {k : Nat}
    (hk : k < lu.m) : arrayAt (lu.undoStep column k) = lu.expand (arrayAt column) k :=
  funext fun i => arrayAt_foldl_modify _ _
    (fun t ht => hsize ▸ (h.lower_later k hk t ht).1) i

/-- Steps taken back from the last to the first do what the triangle does. -/
theorem foldl_expand {rest : List Nat} (hrest : rest.Pairwise fun k l => l < k)
    (hlt : ∀ k ∈ rest, k < lu.m) (f : Nat → ℚ) (i : Nat) :
    rest.foldl lu.expand f i =
      f i + (rest.map fun k => Exact.coefficient (lu.lowerColumn k) i * f (lu.pivotRow k)).sum := by
  induction rest generalizing f with
  | nil => exact (add_zero _).symm
  | cons k rest ih =>
    have hk := List.pairwise_cons.mp hrest
    rw [List.foldl_cons, ih hk.2 fun l hl => hlt l (List.mem_cons_of_mem k hl), List.map_cons,
      List.sum_cons]
    have hsame : (rest.map fun l =>
          Exact.coefficient (lu.lowerColumn l) i * lu.expand f k (lu.pivotRow l)) =
        rest.map fun l => Exact.coefficient (lu.lowerColumn l) i * f (lu.pivotRow l) := by
      refine List.map_congr_left fun l hl => ?_
      have hnone : Exact.coefficient (lu.lowerColumn k) (lu.pivotRow l) = 0 :=
        Triangle.coefficient_place h.later_lower h.numbered_lower
          (List.mem_range.mpr (hlt k List.mem_cons_self))
          (List.mem_range.mpr (hlt l (List.mem_cons_of_mem k hl)))
          (Nat.lt_asymm (hk.1 l hl))
      rw [expand, hnone, zero_mul, add_zero]
    rw [hsame, expand, add_assoc]

theorem foldl_expand_range (f : Nat → ℚ) {i : Nat} (hi : i < lu.m) :
    (List.range lu.m).reverse.foldl lu.expand f i =
      ∑ j ∈ Finset.range lu.m, lu.lowerTriangle.entry i j * f j := by
  rw [h.foldl_expand (List.pairwise_reverse.mpr List.pairwise_lt_range)
    (fun k hk => List.mem_range.mp (List.mem_reverse.mp hk))]
  have hsum := Triangle.sum_order (d := .descending) h.numbered_lower
    fun j => Exact.coefficient (lu.lowerColumn (lu.stepOf j)) i * f j
  have hsteps : ((List.range lu.m).reverse.map fun k =>
        Exact.coefficient (lu.lowerColumn k) i * f (lu.pivotRow k)) =
      (List.range lu.m).reverse.map fun k =>
        Exact.coefficient (lu.lowerColumn (lu.stepOf (lu.pivotRow k))) i * f (lu.pivotRow k) := by
    refine List.map_congr_left fun k hk => ?_
    rw [(h.steps.left k (List.mem_range.mp (List.mem_reverse.mp hk))).2]
  rw [hsteps]
  refine (congrArg (f i + ·) hsum).trans ?_
  simp only [Triangle.entry, Triangle.entryBy, add_mul, Finset.sum_add_distrib, ite_mul, zero_mul]
  rw [Finset.sum_ite_eq, if_pos (Finset.mem_range.mpr hi)]
  exact congrArg (· + _) (one_mul _).symm

theorem within : ∀ r ∈ lu.etas, r.Within lu.m := h.etas

/-- The columns of the matrix come from those of the upper triangle. -/
theorem matrixAt_eq_restore {p : Nat} (hp : p < lu.m) {i : Nat} (hi : i < lu.m) :
    lu.matrixAt i p =
      lu.restore (fun i => lu.upperTriangle.entry i (lu.labels.apply p)) i := by
  have hsteps : ∀ (rest : List Nat) (column : Array (Exact 0)), (∀ k ∈ rest, k < lu.m) →
      column.size = lu.m →
      arrayAt (rest.foldl lu.undoStep column) = rest.foldl lu.expand (arrayAt column) := by
    intro rest
    induction rest with
    | nil => exact fun _ _ _ => rfl
    | cons k rest ih =>
      intro column hlt hsize
      rw [List.foldl_cons, List.foldl_cons, ← h.arrayAt_undoStep hsize (hlt k List.mem_cons_self)]
      exact ih _ (fun l hl => hlt l (List.mem_cons_of_mem k hl)) ((size_undoStep ..).trans hsize)
  have hetas : ∀ (etas : List (RowEta (Exact 0))) (column : Array (Exact 0)),
      (∀ r ∈ etas, r.Within lu.m) → column.size = lu.m →
      (etas.foldr (fun r column => undoEta column r) column).size = lu.m ∧
      arrayAt (etas.foldr (fun r column => undoEta column r) column) =
        etas.foldr RowEta.undo (arrayAt column) := by
    intro etas column hwithin hsize
    induction etas with
    | nil => exact ⟨hsize, rfl⟩
    | cons r etas ih =>
      obtain ⟨hs, hv⟩ := ih fun s hs => hwithin s (List.mem_cons_of_mem r hs)
      rw [List.foldr_cons, List.foldr_cons, ← hv]
      exact ⟨(size_undoEta ..).trans hs,
        arrayAt_undoEta (by rw [hs]; exact (hwithin r List.mem_cons_self).1)⟩
  obtain ⟨hsize, hvalue⟩ := hetas lu.etas _ h.within (size_upperColumn lu p)
  rw [matrixAt, matrixColumn, List.foldl_reverse (l := lu.etas), hsteps _ _ (fun k hk =>
    List.mem_range.mp (List.mem_reverse.mp hk)) hsize, h.foldl_expand_range _ hi, hvalue,
    h.arrayAt_upperColumn hp, restore]

end WellFormed

namespace Solvable

variable {lu : LU (Exact 0)} (h : lu.Solvable)

include h

theorem lawful_lower : lu.lowerTriangle.Lawful .ascending lu.m where
  numbered := h.numbered_lower
  regular := {
    divisor := fun _ _ => one_ne_zero
    retire_value := fun _ hx => hx
    retire_listed := fun _ hx => hx }
  later := h.later_lower
  column_keys k hk := h.lowerColumn_keys k (List.mem_range.mp hk)
  row_keys _ _ := h.lowerRow_keys _
  mem_row _ _ i x := h.mem_lowerRow _ i x

theorem lawful_upper : lu.upperTriangle.Lawful .descending lu.m where
  numbered := h.numbered_upper
  regular := {
    divisor := fun s hs => h.diagonal s ((UpperTriangle.mem_slots h.upper).mp hs)
    retire_value := fun _ _ => rfl
    retire_listed := fun _ _ => vanished_beq_zero }
  later := h.later_upper
  column_keys s _ := h.upper.column_keys s
  row_keys s _ := by
    rw [DistinctKeys]
    show ((((lu.upper.row (lu.upper.labelOf s)).map fun t =>
      (lu.upper.labelOf t.1, t.2))).map Prod.fst).Nodup
    rw [List.map_map]
    refine List.Nodup.map_on ?_ (h.upper.row_keys _).nodup
    rintro ⟨a, x⟩ ha ⟨b, y⟩ hb (e : lu.upper.labelOf a = lu.upper.labelOf b)
    have hactive : ∀ {a x}, (a, x) ∈ lu.upper.row (lu.upper.labelOf s) →
        lu.upper.isActive a = true := fun ha =>
      h.upper.isActive_of_mem _ _ ((h.upper.mem_row _ _ _).mp ha)
    have hab := h.upper.labelOf_inj (hactive ha) (hactive hb) e
    subst hab
    rw [(h.upper.row_keys _).eq ha hb]
  mem_row s _ i x := h.mem_upperRow s i x

/-! ## Solving with the matrix and with its transpose -/

/-- The numbers below `m` in another order. -/
theorem sum_apply (f : Nat → ℚ) : ∑ p ∈ Finset.range lu.m, f (lu.labels.apply p) =
    ∑ i ∈ Finset.range lu.m, f i := by
  refine Finset.sum_nbij' lu.labels.apply lu.labels.invert ?_ ?_ ?_ ?_ fun _ _ => rfl
  · exact fun p hp => Finset.mem_range.mpr (h.positions.left p (Finset.mem_range.mp hp)).1
  · exact fun i hi => Finset.mem_range.mpr (h.positions.right i (Finset.mem_range.mp hi)).1
  · exact fun p hp => (h.positions.left p (Finset.mem_range.mp hp)).2
  · exact fun i hi => (h.positions.right i (Finset.mem_range.mp hi)).2

section Vectors

variable {v : SparseVector (Exact 0)} (hv : v.Listed lu.m)

include hv

/-- The values on the way through the upper triangle. -/
theorem valueAt_spike : (lu.ftran v).spike.valueAt =
    lu.etas.foldl (fun f r => r.act f) (lu.lowerTriangle.solution .ascending v.valueAt) := by
  obtain ⟨hlisted, hvalue⟩ := h.lawful_lower.solve hv
  have hspike := RowEta.listed_foldl_mulVec (fun r hr => (h.within r hr).1) hlisted
  funext i
  refine ((SparseVector.listed_zero _ _).valueAt_assign hspike i).trans ?_
  rw [RowEta.valueAt_foldl_mulVec h.within hlisted, hvalue]

/-- The spike restores the right-hand side. -/
theorem restore_spike {i : Nat} (hi : i < lu.m) :
    lu.restore (lu.ftran v).spike.valueAt i = v.valueAt i := by
  rw [h.valueAt_spike hv, restore, RowEta.foldr_undo_foldl_act h.within]
  exact h.lawful_lower.sum_entry_solution v.valueAt hi

/-- What the solution holds by position, the upper triangle makes the spike
of. -/
theorem sum_solution_mul_upper : (lu.ftran v).solution.Listed lu.m ∧
    ∀ i, i < lu.m → ∑ p ∈ Finset.range lu.m, (lu.ftran v).solution.valueAt p *
      lu.upperTriangle.entry i (lu.labels.apply p) = (lu.ftran v).spike.valueAt i := by
  obtain ⟨hlower, -⟩ := h.lawful_lower.solve hv
  have hspike := RowEta.listed_foldl_mulVec (fun r hr => (h.within r hr).1) hlower
  obtain ⟨hupper, hvalue⟩ := h.lawful_upper.solve hspike
  refine ⟨(listed_relocate h.positions.symm hupper).dropTiny.addTicks _, fun i hi => ?_⟩
  have hsum := h.lawful_upper.sum_entry_solution (lu.etas.foldl (fun v r => r.mulVec v)
    (lu.lowerTriangle.solve .ascending v).vector).valueAt hi
  rw [← hvalue, ← h.sum_apply] at hsum
  refine Eq.trans (Finset.sum_congr rfl fun p hp => ?_) (hsum.trans
    ((SparseVector.listed_zero _ _).valueAt_assign hspike i).symm)
  have hsolution : (lu.ftran v).solution.valueAt p = _ :=
    (SparseVector.valueAt_dropTiny _ p).trans
      (valueAt_relocate h.positions.symm hupper (Finset.mem_range.mp hp))
  rw [hsolution, mul_comm]

/-- Solving with the matrix. -/
theorem sum_matrixAt_mul_ftran {i : Nat} (hi : i < lu.m) :
    ∑ p ∈ Finset.range lu.m, lu.matrixAt i p * (lu.ftran v).solution.valueAt p = v.valueAt i := by
  have hcolumn : ∀ p ∈ Finset.range lu.m, lu.matrixAt i p * (lu.ftran v).solution.valueAt p =
      (lu.ftran v).solution.valueAt p *
        lu.restore (fun i => lu.upperTriangle.entry i (lu.labels.apply p)) i := fun p hp => by
    rw [h.matrixAt_eq_restore (Finset.mem_range.mp hp) hi, mul_comm]
  rw [Finset.sum_congr rfl hcolumn, ← restore_sum, ← h.restore_spike hv hi]
  exact restore_congr h.within (h.sum_solution_mul_upper hv).2 i

/-- The solution with the transpose, as the stages leave it. -/
theorem btran_stages : (lu.btran v).Listed lu.m ∧
    (lu.btran v).valueAt = lu.lowerTriangle.solutionTransposed .ascending
      (lu.etas.foldr RowEta.pull (lu.upperTriangle.solutionTransposed .descending
        (relocate lu.labels.apply v).valueAt)) := by
  obtain ⟨hupper, hvalue⟩ := h.lawful_upper.solveTransposed (listed_relocate h.positions hv)
  obtain ⟨hmiddle, hvalue'⟩ := RowEta.foldr_applyEta_spec h.within hupper
  rw [hvalue] at hvalue'
  have hfold := List.foldl_reverse (l := lu.etas) (f := applyEta (α := Exact 0))
    (b := lu.upperTriangle.solveTransposed .ascending (relocate lu.labels.apply v))
  rw [show Direction.descending.opposite = .ascending from rfl, ← hfold] at hmiddle hvalue'
  obtain ⟨hlower, hvalue''⟩ := h.lawful_lower.solveTransposed hmiddle
  rw [hvalue'] at hvalue''
  exact ⟨hlower.dropTiny.addTicks _, funext fun i =>
    (SparseVector.valueAt_dropTiny _ i).trans (congrFun hvalue'' i)⟩

/-- Solving with the transpose of the matrix. -/
theorem sum_matrixAt_mul_btran {p : Nat} (hp : p < lu.m) :
    ∑ i ∈ Finset.range lu.m, lu.matrixAt i p * (lu.btran v).valueAt i = v.valueAt p := by
  have hlabel := (h.positions.left p hp).1
  rw [(h.btran_stages hv).2]
  generalize hu : lu.upperTriangle.solutionTransposed .descending
    (relocate lu.labels.apply v).valueAt = u
  calc ∑ i ∈ Finset.range lu.m, lu.matrixAt i p *
        lu.lowerTriangle.solutionTransposed .ascending (lu.etas.foldr RowEta.pull u) i
      = ∑ i ∈ Finset.range lu.m, (∑ j ∈ Finset.range lu.m, lu.lowerTriangle.entry i j *
          lu.etas.foldr RowEta.undo
            (fun i => lu.upperTriangle.entry i (lu.labels.apply p)) j) *
          lu.lowerTriangle.solutionTransposed .ascending (lu.etas.foldr RowEta.pull u) i := by
        refine Finset.sum_congr rfl fun i hi => ?_
        rw [h.matrixAt_eq_restore hp (Finset.mem_range.mp hi), restore]
    _ = ∑ j ∈ Finset.range lu.m, lu.etas.foldr RowEta.pull u j * lu.etas.foldr RowEta.undo
          (fun i => lu.upperTriangle.entry i (lu.labels.apply p)) j := by
        rw [← Triangle.sum_sum_mul_comm]
        refine Finset.sum_congr rfl fun j hj => ?_
        rw [h.lawful_lower.sum_entry_solutionTransposed _ (Finset.mem_range.mp hj)]
    _ = ∑ j ∈ Finset.range lu.m, u j * lu.upperTriangle.entry j (lu.labels.apply p) :=
        RowEta.sum_foldr_pull_mul_foldr_undo h.within _ _
    _ = (relocate lu.labels.apply v).valueAt (lu.labels.apply p) := by
        rw [← h.lawful_upper.sum_entry_solutionTransposed (relocate lu.labels.apply v).valueAt
          hlabel, hu]
        exact Finset.sum_congr rfl fun j _ => mul_comm _ _
    _ = v.valueAt p := by
        rw [valueAt_relocate h.positions hv hlabel, (h.positions.left p hp).2]

end Vectors

end Solvable
end LU
end DualSimplex
