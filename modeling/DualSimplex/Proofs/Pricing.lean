import DualSimplex.Proofs.Program
import DualSimplex.Proofs.Slots
import DualSimplex.Proofs.Sparse

/-!
# Products with all columns

Whether a vector is priced out by row or by column, its products with the columns are
listed once each.  By row this needs that the transpose of a matrix has positions for its
lines only.
-/

namespace DualSimplex

open Scalar

namespace LinearProgram.WellFormed

variable {α : Type} [Scalar α] {lp : LinearProgram α}

/-! ## The matrix of a program -/

theorem lineCount_columns (h : lp.WellFormed) : lp.columns.lineCount = lp.columnCount := by
  obtain ⟨lines, hlength, hcolumns, -⟩ := h.lines
  rw [hcolumns, (Matrix.stored_ofLines lp.rowCount lines).2, hlength]

theorem width_columns (h : lp.WellFormed) : lp.columns.width = lp.rowCount := by
  obtain ⟨lines, -, hcolumns, -⟩ := h.lines
  rw [hcolumns, Matrix.width_ofLines]

theorem lt_rowCount (h : lp.WellFormed) (k : Nat) {u : Nat × α} (hu : u ∈ lp.columns.line k) :
    u.1 < lp.rowCount := by
  by_cases hk : k < lp.columnCount
  · exact h.row_lt k hk u hu
  · obtain ⟨lines, hlength, hcolumns, -⟩ := h.lines
    rw [hcolumns, Matrix.line_ofLines, List.getD_eq_getElem?_getD,
      List.getElem?_eq_none (by omega)] at hu
    exact absurd hu List.not_mem_nil

theorem lined_columns (h : lp.WellFormed) : lp.columns.Lined := by
  obtain ⟨lines, -, hcolumns, -⟩ := h.lines
  rw [hcolumns]
  exact Matrix.lined_ofLines fun k u hu => h.lt_rowCount k (hcolumns ▸ hu)

theorem rows_eq (h : lp.WellFormed) : lp.rows = lp.columns.transpose := by
  obtain ⟨-, -, -, hrows⟩ := h.lines
  exact hrows

theorem lt_columnCount (h : lp.WellFormed) (i : Nat) {u : Nat × α} (hu : u ∈ lp.rows.line i) :
    u.1 < lp.columnCount := by
  rw [h.rows_eq] at hu
  exact (h.lined_columns.transposed.lt_lineCount i hu).trans_eq h.lineCount_columns

end LinearProgram.WellFormed

namespace SparseVector

variable {α : Type} [Scalar α] [LawfulScalar α] {n : Nat}

/-! ## Products -/

theorem Listed.addTerm {v : SparseVector α} (h : v.Listed n) {j : Nat} (hj : j < n) (term : α) :
    (Matrix.addTerm v j term).Listed n := by
  have hnew : ((if v.get j + term == 0 then cancelled else v.get j + term) == 0) = false := by
    split
    · exact cancelled_beq_zero
    · rename_i hne
      exact Bool.eq_false_iff.mpr hne
  exact h.enter hj hnew

/-- The products by row before the tiny ones are dropped. -/
def rowSums (rows : Matrix α) (rho v : SparseVector α) : SparseVector α :=
  (rho.support.filter fun i => !(rho.get i == 0)).foldl (fun r i =>
    (rows.line i).foldl (fun r u => Matrix.addTerm r u.1 (rho.get i * u.2)) r) v

omit [LawfulScalar α] in
theorem priceByRow_eq (rows : Matrix α) (rho v : SparseVector α) :
    ∃ ticks, rows.priceByRow rho v = ((rowSums rows rho v).addTicks ticks).dropTiny :=
  ⟨_, rfl⟩

variable {rows columns : Matrix α} {rho v : SparseVector α}

theorem Listed.rowSums (h : v.Listed n) (hrows : ∀ i, ∀ u ∈ rows.line i, u.1 < n)
    (rho : SparseVector α) : (rowSums rows rho v).Listed n := by
  refine List.foldlRecOn _ _ (motive := fun v : SparseVector α => v.Listed n) h fun v hv i _ => ?_
  refine List.foldlRecOn (rows.line i) _ (motive := fun v : SparseVector α => v.Listed n) hv
    fun v hv u hu => ?_
  exact hv.addTerm (hrows i u hu) _

theorem Listed.priceByRow (h : v.Listed n) (hrows : ∀ i, ∀ u ∈ rows.line i, u.1 < n)
    (rho : SparseVector α) : (rows.priceByRow rho v).Listed n := by
  obtain ⟨ticks, heq⟩ := priceByRow_eq rows rho v
  rw [heq]
  exact ((h.rowSums hrows rho).addTicks ticks).dropTiny

/-- The products with the first columns, in a vector that had no entries. -/
structure Computed (columns : Matrix α) (rho v : SparseVector α) (k : Nat) (r : SparseVector α) :
    Prop where
  listed : r.Listed v.dim
  get_eq : ∀ j, r.get j = if j < k ∧ (columns.lineDot j rho.values == 0) = false
    then columns.lineDot j rho.values else v.get j

omit [LawfulScalar α] in
theorem Computed.succ {k : Nat} {r : SparseVector α} (h : Computed columns rho v k r)
    (hv : v.Cleared) (hk : k < v.dim) : Computed columns rho v (k + 1)
      (if columns.lineDot k rho.values == 0 then r
        else r.setOnly k (columns.lineDot k rho.values)) := by
  by_cases hproduct : (columns.lineDot k rho.values == 0) = true
  · rw [if_pos hproduct]
    refine ⟨h.listed, fun j => (h.get_eq j).trans (if_congr ?_ rfl rfl)⟩
    refine and_congr_left fun hj => ⟨fun hlt => by omega, fun hlt => ?_⟩
    refine Nat.lt_of_le_of_ne (Nat.lt_succ_iff.mp hlt) ?_
    rintro rfl
    exact Bool.noConfusion (hproduct.symm.trans hj)
  · rw [if_neg hproduct]
    -- The column has no product yet.
    have hzero : (r.get k == 0) = true := by
      rw [h.get_eq, if_neg fun hc => absurd hc.1 (Nat.lt_irrefl k)]
      exact hv.beq_zero k
    refine ⟨h.listed.setOnly hk hzero (Bool.eq_false_iff.mpr hproduct), fun j => ?_⟩
    refine (get_put r k j _).trans ?_
    rw [h.listed.dim_eq, h.get_eq]
    by_cases hjk : k = j
    · subst hjk
      rw [if_pos ⟨rfl, hk⟩, if_pos ⟨Nat.lt_succ_self k, Bool.eq_false_iff.mpr hproduct⟩]
    · rw [if_neg fun hc => hjk hc.1]
      exact if_congr (and_congr_left fun _ => by omega) rfl rfl

omit [LawfulScalar α] in
theorem Cleared.computed (h : v.Cleared) (rho : SparseVector α) {k : Nat} (hk : k ≤ v.dim) :
    Computed columns rho v k ((List.range k).foldl (fun r j =>
      if columns.lineDot j rho.values == 0 then r
      else r.setOnly j (columns.lineDot j rho.values)) v) := by
  induction k with
  | zero => exact ⟨h.listed, fun j => (if_neg fun hc => Nat.not_lt_zero j hc.1).symm⟩
  | succ k ih =>
    rw [List.range_succ, List.foldl_append]
    exact (ih (Nat.le_of_succ_le hk)).succ h hk

omit [LawfulScalar α] in
/-- The products by column are listed where they are not zero. -/
theorem Cleared.priceByColumn (h : v.Cleared) (hcount : columns.lineCount ≤ v.dim)
    (rho : SparseVector α) : (columns.priceByColumn rho v).Listed v.dim ∧
      ∀ j, (columns.priceByColumn rho v).get j =
        if j < columns.lineCount ∧ (columns.lineDot j rho.values == 0) = false
        then columns.lineDot j rho.values else v.get j := by
  have hcomputed : Computed columns rho v columns.lineCount _ := h.computed rho hcount
  exact ⟨hcomputed.listed.addTicks _, hcomputed.get_eq⟩

theorem cleared_zero (n : Nat) (density : Float) : (zero n density : SparseVector α).Cleared :=
  ⟨rfl, fun i => by rw [get_zero]; exact zero_beq_zero⟩

/-- The products with the columns of a program, in whichever way they are computed. -/
theorem listed_price {lp : LinearProgram α} (hlp : lp.WellFormed) (rho : SparseVector α)
    (density : Float) :
    (lp.rows.priceByRow rho (zero lp.columnCount density)).Listed lp.columnCount ∧
    (lp.columns.priceByColumn rho (zero lp.columnCount density)).Listed lp.columnCount := by
  refine ⟨(listed_zero lp.columnCount density).priceByRow (fun i u => hlp.lt_columnCount i) rho, ?_⟩
  have hdim : (zero lp.columnCount density : SparseVector α).dim = lp.columnCount :=
    (listed_zero lp.columnCount density).dim_eq
  have hlisted := ((cleared_zero lp.columnCount density).priceByColumn
    (hlp.lineCount_columns.trans hdim.symm).le rho).1
  rw [hdim] at hlisted
  exact hlisted

/-! ## What the products are worth -/

section Worth

open Exact

variable {cutoff : ℚ} {v rho : SparseVector (Exact cutoff)}

omit [LawfulScalar α] in
@[simp] theorem dim_addTerm (v : SparseVector α) (i : Nat) (term : α) :
    (Matrix.addTerm v i term).dim = v.dim :=
  dim_enter ..

theorem valueAt_addTerm (v : SparseVector (Exact cutoff)) (i : Nat) (term : Exact cutoff) {j : Nat}
    (hj : j < v.dim) :
    (Matrix.addTerm v i term).valueAt j = v.valueAt j + if i = j then term.value else 0 := by
  have henter : Matrix.addTerm v i term =
      v.enter i (if v.get i + term == 0 then cancelled else v.get i + term) := rfl
  rw [henter, valueAt_enter, value_ite_beq _ _ rfl]
  by_cases hij : i = j
  · rw [if_pos ⟨hij, hj⟩, if_pos hij, hij]
    rfl
  · rw [if_neg fun hc => hij hc.1, if_neg hij, add_zero]

theorem valueAt_foldl_addTerm (line : List (Nat × Exact cutoff)) (multiplier : Exact cutoff)
    (v : SparseVector (Exact cutoff)) :
    (line.foldl (fun r u => Matrix.addTerm r u.1 (multiplier * u.2)) v).dim = v.dim ∧
    ∀ j, j < v.dim →
      (line.foldl (fun r u => Matrix.addTerm r u.1 (multiplier * u.2)) v).valueAt j =
        v.valueAt j + multiplier.value * coefficient line j := by
  induction line generalizing v with
  | nil =>
    refine ⟨rfl, fun j _ => ?_⟩
    rw [coefficient_nil, mul_zero, add_zero]
    rfl
  | cons u line ih =>
    obtain ⟨hdim, hvalue⟩ := ih (Matrix.addTerm v u.1 (multiplier * u.2))
    rw [dim_addTerm] at hdim hvalue
    refine ⟨hdim, fun j hj => ?_⟩
    rw [List.foldl_cons, hvalue j hj, valueAt_addTerm _ _ _ hj, coefficient_cons, value_mul]
    by_cases huj : u.1 = j
    · rw [if_pos huj, if_pos huj]
      ring
    · rw [if_neg huj, if_neg huj]
      ring

/-- What is listed with a zero adds nothing. -/
theorem sum_map_used (rho : SparseVector (Exact cutoff)) (f : Nat → ℚ) (l : List Nat) :
    ((l.filter fun i => !(rho.get i == 0)).map fun i => rho.valueAt i * f i).sum =
      (l.map fun i => rho.valueAt i * f i).sum := by
  induction l with
  | nil => rfl
  | cons i l ih =>
    rw [List.filter_cons, List.map_cons, List.sum_cons, ← ih]
    by_cases hi : (rho.get i == 0) = true
    · rw [hi, if_neg Bool.noConfusion, show rho.valueAt i = 0 from value_eq_zero_of_beq hi,
        zero_mul, zero_add]
    · rw [Bool.eq_false_iff.mpr hi, Bool.not_false, if_pos rfl, List.map_cons, List.sum_cons]

/-- The products by row add up the rows. -/
theorem Indexed.valueAt_rowSums (h : rho.Indexed) (rows : Matrix (Exact cutoff)) {j : Nat}
    (hj : j < v.dim) : (rowSums rows rho v).valueAt j = v.valueAt j +
      ∑ i ∈ Finset.range rho.dim, coefficient (rows.line i) j * rho.valueAt i := by
  rw [← h.sum_support fun i => coefficient (rows.line i) j, ← sum_map_used, rowSums]
  generalize rho.support.filter (fun i => !(rho.get i == 0)) = used
  induction used generalizing v with
  | nil => exact (add_zero _).symm
  | cons i used ih =>
    obtain ⟨hdim, hvalue⟩ := valueAt_foldl_addTerm (rows.line i) (rho.get i) v
    rw [List.foldl_cons, ih (hdim.symm ▸ hj), hvalue j hj, List.map_cons, List.sum_cons, add_assoc]
    rfl

/-- A product by row adds up the rows. -/
theorem valueAt_priceByRow {rho : SparseVector (Exact 0)} {m : Nat} (rows : Matrix (Exact 0))
    (hrho : rho.Listed m) (density : Float) {n j : Nat} (hj : j < n) :
    (rows.priceByRow rho (zero n density)).valueAt j =
      ∑ i ∈ Finset.range m, coefficient (rows.line i) j * rho.valueAt i := by
  have hdim : (zero n density : SparseVector (Exact 0)).dim = n := (listed_zero n density).dim_eq
  obtain ⟨ticks, heq⟩ := priceByRow_eq rows rho (zero n density)
  rw [heq, valueAt_dropTiny]
  refine (hrho.indexed.valueAt_rowSums rows (hdim.symm ▸ hj)).trans ?_
  rw [valueAt_zero, zero_add, hrho.dim_eq]

/-- A product by column is computed for each column by itself. -/
theorem Cleared.valueAt_priceByColumn {columns : Matrix (Exact cutoff)} (h : v.Cleared)
    (hcount : columns.lineCount ≤ v.dim) (rho : SparseVector (Exact cutoff)) (j : Nat) :
    (columns.priceByColumn rho v).valueAt j =
      if j < columns.lineCount then (columns.lineDot j rho.values).value else 0 := by
  have hzero : (v.get j).value = 0 := value_eq_zero_of_beq (h.beq_zero j)
  rw [valueAt, (h.priceByColumn hcount rho).2 j]
  by_cases hj : j < columns.lineCount
  · rw [if_pos hj]
    by_cases hproduct : (columns.lineDot j rho.values == 0) = false
    · rw [if_pos ⟨hj, hproduct⟩]
    · rw [if_neg fun hc => hproduct hc.2, hzero,
        value_eq_zero_of_beq ((Bool.not_eq_false _).mp hproduct)]
  · rw [if_neg fun hc => hj hc.1, if_neg hj, hzero]

/-- In whichever way the products are computed, they are what the rows make the columns
worth. -/
theorem valueAt_price {lp : LinearProgram (Exact 0)} (hlp : lp.WellFormed)
    {rho : SparseVector (Exact 0)} (hrho : rho.Listed lp.rowCount) (density : Float) {j : Nat}
    (hj : j < lp.columnCount) :
    (lp.rows.priceByRow rho (zero lp.columnCount density)).valueAt j =
      ∑ i ∈ Finset.range lp.rowCount, coefficient (lp.columns.line j) i * rho.valueAt i ∧
    (lp.columns.priceByColumn rho (zero lp.columnCount density)).valueAt j =
      ∑ i ∈ Finset.range lp.rowCount, coefficient (lp.columns.line j) i * rho.valueAt i := by
  have hcount := hlp.lineCount_columns
  have hdim : (zero lp.columnCount density : SparseVector (Exact 0)).dim = lp.columnCount :=
    (listed_zero lp.columnCount density).dim_eq
  constructor
  · rw [valueAt_priceByRow lp.rows hrho density hj, hlp.rows_eq]
    refine Finset.sum_congr rfl fun i hi => congrArg (· * _) ?_
    exact hlp.lined_columns.coefficient_transpose
      (hlp.width_columns.symm ▸ Finset.mem_range.mp hi) (hcount.symm ▸ hj)
  · rw [(cleared_zero lp.columnCount density).valueAt_priceByColumn (hcount.trans hdim.symm).le,
      if_pos (hcount.symm ▸ hj), sum_coefficient_mul (fun u => hlp.lt_rowCount j), Matrix.lineDot,
      value_sum, List.map_map]
    refine congrArg List.sum (List.map_congr_left fun u _ => ?_)
    exact value_mul _ _

end Worth

end SparseVector
end DualSimplex
