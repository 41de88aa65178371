import DualSimplex.Proofs.Pricing

/-!
# Products by row and by column

The products of a vector with the columns of a matrix can be added up row by row or be computed
column by column.  Without rounding both ways give the same, but for the products below the
cutoff, which only the first way drops.  Each lists what it has found once.
-/

namespace DualSimplex

open Scalar Exact

theorem Exact.isTiny_eq_false_iff_le {cutoff : ℚ} (hcutoff : 0 < cutoff) (x : Exact cutoff) :
    isTiny x = false ↔ cutoff ≤ |x.value| := by
  rw [isTiny_eq_false_iff, abs_eq, not_lt]
  exact ⟨And.right, fun h => ⟨abs_pos.mp (hcutoff.trans_le h), h⟩⟩

namespace Matrix

variable {cutoff : ℚ} {a : Matrix (Exact cutoff)} {rho : SparseVector (Exact cutoff)}

/-- The inner product of a line with a vector. -/
def product (a : Matrix (Exact cutoff)) (rho : SparseVector (Exact cutoff)) (k : Nat) : ℚ :=
  ((a.line k).map fun u => u.2.value * rho.valueAt u.1).sum

theorem value_lineDot (a : Matrix (Exact cutoff)) (rho : SparseVector (Exact cutoff)) (k : Nat) :
    (a.lineDot k rho.values).value = a.product rho k := by
  rw [lineDot, value_sum, List.map_map, product]
  exact congrArg List.sum (List.map_congr_left fun u _ => value_mul _ _)

/-- A sum is never a mark. -/
theorem lineDot_beq_zero (a : Matrix (Exact cutoff)) (rho : SparseVector (Exact cutoff)) (k : Nat) :
    (a.lineDot k rho.values == 0) = false ↔ a.product rho k ≠ 0 := by
  have hunmarked : (a.lineDot k rho.values).marked = false :=
    List.foldlRecOn _ _ (motive := fun x : Exact cutoff => x.marked = false) rfl fun _ _ _ _ => rfl
  rw [beq_eq_false, ne_eq, eq_iff, value_lineDot, hunmarked]
  exact not_congr ⟨And.left, fun h => ⟨h, rfl⟩⟩

theorem Compressed.product_eq_zero {n : Nat} (h : a.Compressed n) {k : Nat} (hk : n ≤ k) :
    a.product rho k = 0 := by
  rw [product, h.line_eq_nil hk]
  rfl

/-- The inner products by the entries of the transpose. -/
theorem Compressed.sum_transpose (h : a.Compressed a.lineCount) (hlt : ∀ i ∈ a.index, i < a.width)
    (rho : SparseVector (Exact cutoff)) (j : Nat) :
    ∑ i ∈ Finset.range a.width, coefficient (a.transpose.line i) j * rho.valueAt i =
      a.product rho j := by
  have hlined := h.lined hlt
  by_cases hj : j < a.lineCount
  · have hline : ∀ u ∈ a.line j, u.1 < a.width := fun u hu =>
      (((h.forall_entries (· < a.width) fun _ => True).mp ⟨hlt, fun _ _ => trivial⟩) j hj u hu).1
    rw [product, ← sum_coefficient_mul hline]
    refine Finset.sum_congr rfl fun i hi => congrArg (· * _) ?_
    exact hlined.coefficient_transpose (Finset.mem_range.mp hi) hj
  · rw [h.product_eq_zero (not_lt.mp hj)]
    refine Finset.sum_eq_zero fun i _ => ?_
    have hout : ∀ u ∈ a.transpose.line i, u.1 ≠ j := fun u hu hc =>
      hj (hc ▸ hlined.transposed.lt_lineCount i hu)
    rw [coefficient_of_notMem hout, zero_mul]

end Matrix

namespace SparseVector

theorem Listed.mem_support_dropTiny {α : Type} [Scalar α] [LawfulScalar α] {v : SparseVector α}
    {m : Nat} (h : v.Listed m) (i : Nat) :
    i ∈ v.dropTiny.support ↔ isTiny (v.get i) = false := by
  show i ∈ v.support.filter _ ↔ _
  rw [List.mem_filter, Bool.not_eq_true', h.mem_support]
  exact ⟨And.right, fun htiny => ⟨beq_zero_of_isTiny htiny, htiny⟩⟩

variable {cutoff : ℚ} {columns : Matrix (Exact cutoff)} {rho v w : SparseVector (Exact cutoff)}

/-- What is below the cutoff is dropped. -/
theorem Listed.valueAt_dropTiny_eq {m : Nat} (h : v.Listed m) (hcutoff : 0 < cutoff) (i : Nat) :
    v.dropTiny.valueAt i = if cutoff ≤ |v.valueAt i| then v.valueAt i else 0 := by
  rw [valueAt, get_dropTiny]
  by_cases htiny : isTiny (v.get i) = false
  · have hle : cutoff ≤ |v.valueAt i| := (isTiny_eq_false_iff_le hcutoff _).mp htiny
    rw [htiny, if_neg fun hc => Bool.noConfusion hc.2, if_pos hle]
    rfl
  · have hle : ¬cutoff ≤ |v.valueAt i| := (isTiny_eq_false_iff_le hcutoff _).not.mp htiny
    rw [if_neg hle]
    by_cases hi : i ∈ v.support
    · rw [if_pos ⟨hi, (Bool.not_eq_false _).mp htiny⟩]
      rfl
    · rw [if_neg fun hc => hi hc.1]
      exact value_eq_zero_of_beq (h.beq_zero hi)

/-! ## By column -/

theorem Cleared.mem_support_priceByColumn (h : v.Cleared) (hdim : columns.lineCount ≤ v.dim)
    (rho : SparseVector (Exact cutoff)) (j : Nat) :
    j ∈ (columns.priceByColumn rho v).support ↔
      j < columns.lineCount ∧ columns.product rho j ≠ 0 := by
  obtain ⟨hlisted, hget⟩ := h.priceByColumn hdim rho
  rw [hlisted.mem_support, hget, ← Matrix.lineDot_beq_zero]
  split
  · rename_i hj
    exact ⟨fun _ => hj, And.right⟩
  · rename_i hj
    rw [h.beq_zero j]
    exact ⟨Bool.noConfusion, fun hc => absurd hc hj⟩

/-! ## By row -/

/-- The rows add up to the products with the columns. -/
theorem Cleared.valueAt_rowSums_transpose (hw : w.Cleared)
    (hwdim : columns.lineCount ≤ w.dim) (h : columns.Compressed columns.lineCount)
    (hlt : ∀ i ∈ columns.index, i < columns.width) (hrho : rho.Indexed)
    (hdim : rho.dim = columns.width) :
    (rowSums columns.transpose rho w).Listed w.dim ∧
      ∀ j, (rowSums columns.transpose rho w).valueAt j = columns.product rho j := by
  have hlisted : (rowSums columns.transpose rho w).Listed w.dim :=
    hw.listed.rowSums
      (fun i _ hu => ((h.lined hlt).transposed.lt_lineCount i hu).trans_le hwdim) rho
  refine ⟨hlisted, fun j => ?_⟩
  by_cases hj : j < w.dim
  · rw [hrho.valueAt_rowSums _ hj, hdim, h.sum_transpose hlt,
      show w.valueAt j = 0 from value_eq_zero_of_beq (hw.beq_zero j), zero_add]
  · rw [valueAt_of_dim_le (hlisted.dim_eq.trans_le (not_lt.mp hj)),
      h.product_eq_zero (hwdim.trans (not_lt.mp hj))]

/-- The products with all columns agree but for those below the cutoff, and are listed where
they are found. -/
theorem price_by_column_or_row (h : columns.Compressed columns.lineCount)
    (hlt : ∀ i ∈ columns.index, i < columns.width) (hrho : rho.Indexed)
    (hdim : rho.dim = columns.width) (hv : v.Cleared) (hvdim : columns.lineCount ≤ v.dim)
    (hw : w.Cleared) (hwdim : columns.lineCount ≤ w.dim) (hcutoff : 0 < cutoff) :
    (∀ j, (columns.priceByColumn rho v).valueAt j = columns.product rho j ∧
      (columns.transpose.priceByRow rho w).valueAt j =
        if cutoff ≤ |columns.product rho j| then columns.product rho j else 0) ∧
    (columns.priceByColumn rho v).support.Nodup ∧
    (∀ j, j ∈ (columns.priceByColumn rho v).support ↔
      j < columns.lineCount ∧ columns.product rho j ≠ 0) ∧
    (columns.transpose.priceByRow rho w).support.Nodup ∧
    ∀ j, j ∈ (columns.transpose.priceByRow rho w).support ↔
      j < columns.lineCount ∧ cutoff ≤ |columns.product rho j| := by
  obtain ⟨hsums, hvalue⟩ := hw.valueAt_rowSums_transpose hwdim h hlt hrho hdim
  obtain ⟨ticks, heq⟩ := priceByRow_eq columns.transpose rho w
  have hticked := hsums.addTicks ticks
  have hbelow : ∀ j, columns.product rho j ≠ 0 → j < columns.lineCount := fun j hj =>
    not_le.mp fun hle => hj (h.product_eq_zero hle)
  rw [heq]
  refine ⟨fun j => ⟨?_, ?_⟩, (hv.priceByColumn hvdim rho).1.nodup,
    hv.mem_support_priceByColumn hvdim rho, hticked.dropTiny.nodup, fun j => ?_⟩
  · rw [hv.valueAt_priceByColumn hvdim, Matrix.value_lineDot]
    split
    · rfl
    · rename_i hj
      exact (h.product_eq_zero (not_lt.mp hj)).symm
  · rw [hticked.valueAt_dropTiny_eq hcutoff, ← hvalue j]
    rfl
  · rw [hticked.mem_support_dropTiny, isTiny_eq_false_iff_le hcutoff, ← hvalue j]
    refine ⟨fun hle => ⟨hbelow j ?_, hle⟩, And.right⟩
    rw [← hvalue j]
    exact abs_pos.mp (hcutoff.trans_le hle)

/-- Four columns, of which one has no entry. -/
def slanted : Matrix (Exact (1 / 10 ^ 14)) where
  start := #[0, 2, 3, 5, 5]
  index := #[0, 1, 0, 0, 1]
  value := #[1, 1, 1, 1, ofRat (1 - 1 / 10 ^ 15)]
  width := 2

/-- The first column is worth nothing by this vector, and the third next to nothing. -/
def opposed : SparseVector (Exact (1 / 10 ^ 14)) :=
  ofTerms 2 [(0, 1), (1, -1)]

theorem price_slanted_by_column_or_row :
    2 ∈ (slanted.priceByColumn opposed (zero 4 defaultDensity)).support ∧
    0 ∉ (slanted.priceByColumn opposed (zero 4 defaultDensity)).support ∧
    1 ∈ (slanted.transpose.priceByRow opposed (zero 4 defaultDensity)).support ∧
    2 ∉ (slanted.transpose.priceByRow opposed (zero 4 defaultDensity)).support ∧
    (slanted.priceByColumn opposed (zero 4 defaultDensity)).valueAt 2 = 1 / 10 ^ 15 ∧
    (slanted.transpose.priceByRow opposed (zero 4 defaultDensity)).valueAt 2 = 0 := by
  have hcompressed : slanted.Compressed slanted.lineCount := ⟨rfl, rfl, rfl, rfl, by decide⟩
  have hopposed : opposed.Listed 2 := (listed_zero 2 defaultDensity).addAll (by simp)
  have hblank : (zero 4 defaultDensity : SparseVector (Exact (1 / 10 ^ 14))).Cleared :=
    cleared_zero 4 defaultDensity
  obtain ⟨hvalue, -, hbyColumn, -, hbyRow⟩ := price_by_column_or_row hcompressed (by decide)
    hopposed.indexed hopposed.dim_eq hblank le_rfl hblank le_rfl (by norm_num)
  have hlast : slanted.product opposed 2 = 1 / 10 ^ 15 := by decide +kernel
  refine ⟨(hbyColumn 2).mpr ⟨by decide, hlast ▸ by norm_num⟩, fun h => ?_,
    (hbyRow 1).mpr (by decide +kernel), fun h => ?_, (hvalue 2).1.trans hlast,
    (hvalue 2).2.trans (if_neg (by decide +kernel))⟩
  · exact ((hbyColumn 0).mp h).2 (by decide +kernel)
  · exact absurd ((hbyRow 2).mp h).2 (by decide +kernel)

end SparseVector
end DualSimplex
