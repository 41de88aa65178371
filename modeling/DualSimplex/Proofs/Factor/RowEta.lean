import DualSimplex.Proofs.Factor.Substitution

/-!
# Row etas on vectors

What a row eta does to a column on its way down, what undoes it, and what it does
to a row from the left.  The last two are adjoint to each other, which is all
that solving with the transpose needs of them.
-/

namespace DualSimplex

open Scalar

namespace RowEta

section Listed

variable {α : Type} [Scalar α] [LawfulScalar α] {m : Nat} {v : SparseVector α}

theorem listed_mulVec {r : RowEta α} (hr : r.pivot < m) (hv : v.Listed m) :
    (r.mulVec v).Listed m := by
  rw [mulVec]
  split
  · exact hv
  · exact hv.collect hr _

theorem listed_foldl_mulVec {etas : List (RowEta α)} (hetas : ∀ r ∈ etas, r.pivot < m)
    (hv : v.Listed m) : (etas.foldl (fun v r => r.mulVec v) v).Listed m := by
  induction etas generalizing v with
  | nil => exact hv
  | cons r etas ih =>
    exact ih (fun s hs => hetas s (List.mem_cons_of_mem r hs))
      (listed_mulVec (hetas r List.mem_cons_self) hv)

theorem listed_vecMul {r : RowEta α} (hr : ∀ t ∈ r.values, t.1 < m) (hv : v.Listed m) :
    (r.vecMul v).1.Listed m := by
  rw [vecMul]
  split
  · exact hv
  · exact Triangle.listed_distribute hv _ hr

theorem listed_foldl_applyEta {etas : List (RowEta α)}
    (hetas : ∀ r ∈ etas, ∀ t ∈ r.values, t.1 < m) {s : Sweep α} (hs : s.vector.Listed m) :
    (etas.foldl LU.applyEta s).vector.Listed m := by
  induction etas generalizing s with
  | nil => exact hs
  | cons r etas ih =>
    exact ih (fun u hu => hetas u (List.mem_cons_of_mem r hu))
      (listed_vecMul (hetas r List.mem_cons_self) hs)

end Listed

/-! ## What etas do to values -/

/-- The inner product of the row with the values of a column. -/
def weigh (r : RowEta (Exact 0)) (f : Nat → ℚ) : ℚ :=
  (r.values.map fun t => t.2.value * f t.1).sum

/-- The column that the elimination makes of another. -/
def act (r : RowEta (Exact 0)) (f : Nat → ℚ) (i : Nat) : ℚ :=
  if i = r.pivot then f i - r.weigh f else f i

/-- The column from which the elimination makes another. -/
def undo (r : RowEta (Exact 0)) (f : Nat → ℚ) (i : Nat) : ℚ :=
  if i = r.pivot then f i + r.weigh f else f i

/-- The row that the elimination makes of another, from the left. -/
def pull (r : RowEta (Exact 0)) (f : Nat → ℚ) (i : Nat) : ℚ :=
  f i - Exact.coefficient r.values i * f r.pivot

/-- The row lies off the diagonal, at positions below `m`. -/
def Within (r : RowEta (Exact 0)) (m : Nat) : Prop :=
  r.pivot < m ∧ ∀ t ∈ r.values, t.1 < m ∧ t.1 ≠ r.pivot

variable {r : RowEta (Exact 0)} {m : Nat}

theorem weigh_congr {f g : Nat → ℚ} (h : ∀ t ∈ r.values, f t.1 = g t.1) :
    r.weigh f = r.weigh g :=
  congrArg List.sum (List.map_congr_left fun t ht => by rw [h t ht])

theorem weigh_concat (values : List (Nat × Exact 0)) (i : Nat) (x : Exact 0) (pivot : Nat)
    (f : Nat → ℚ) : (RowEta.mk (values ++ [(i, x)]) pivot).weigh f =
      (RowEta.mk values pivot).weigh f + x.value * f i := by
  simp [weigh]

theorem undo_act (hr : r.Within m) (f : Nat → ℚ) : r.undo (r.act f) = f := by
  have hweigh : r.weigh (r.act f) = r.weigh f :=
    weigh_congr fun t ht => if_neg (hr.2 t ht).2
  funext i
  rw [undo, hweigh, act]
  by_cases hi : i = r.pivot
  · rw [if_pos hi, if_pos hi, sub_add_cancel]
  · rw [if_neg hi, if_neg hi]

theorem weigh_sum (s : Finset Nat) (c : Nat → ℚ) (f : Nat → Nat → ℚ) :
    r.weigh (fun i => ∑ p ∈ s, c p * f p i) = ∑ p ∈ s, c p * r.weigh (f p) := by
  unfold weigh
  induction r.values with
  | nil => simp
  | cons t values ih =>
    simp only [List.map_cons, List.sum_cons] at ih ⊢
    rw [ih, Finset.mul_sum, ← Finset.sum_add_distrib]
    exact Finset.sum_congr rfl fun p _ => by ring

theorem undo_sum (s : Finset Nat) (c : Nat → ℚ) (f : Nat → Nat → ℚ) :
    r.undo (fun i => ∑ p ∈ s, c p * f p i) = fun i => ∑ p ∈ s, c p * r.undo (f p) i := by
  funext i
  simp only [undo]
  split
  · rw [weigh_sum, ← Finset.sum_add_distrib]
    exact Finset.sum_congr rfl fun p _ => (mul_add ..).symm
  · rfl

/-- What is done to a row makes up for what is undone to a column. -/
theorem sum_pull_mul_undo (hr : r.Within m) (y c : Nat → ℚ) :
    ∑ i ∈ Finset.range m, r.pull y i * r.undo c i = ∑ i ∈ Finset.range m, y i * c i := by
  have hweigh : ∑ i ∈ Finset.range m, Exact.coefficient r.values i * c i = r.weigh c :=
    Exact.sum_coefficient_mul (fun t ht => (hr.2 t ht).1) c
  have hpivot : Exact.coefficient r.values r.pivot = 0 :=
    Exact.coefficient_of_notMem fun t ht => (hr.2 t ht).2
  have hterm : ∀ i ∈ Finset.range m, r.pull y i * r.undo c i =
      y i * c i - y r.pivot * (Exact.coefficient r.values i * c i) +
        (if i = r.pivot then y r.pivot * r.weigh c else 0) := by
    intro i _
    rw [pull, undo]
    by_cases hi : i = r.pivot
    · rw [if_pos hi, if_pos hi, hi, hpivot]
      ring
    · rw [if_neg hi, if_neg hi]
      ring
  rw [Finset.sum_congr rfl hterm, Finset.sum_add_distrib, Finset.sum_sub_distrib,
    ← Finset.mul_sum, hweigh, Finset.sum_ite_eq', if_pos (Finset.mem_range.mpr hr.1)]
  ring

theorem foldr_undo_foldl_act {etas : List (RowEta (Exact 0))} (hetas : ∀ r ∈ etas, r.Within m)
    (f : Nat → ℚ) : etas.foldr undo (etas.foldl (fun f r => r.act f) f) = f := by
  induction etas generalizing f with
  | nil => rfl
  | cons r etas ih =>
    rw [List.foldl_cons, List.foldr_cons, ih fun s hs => hetas s (List.mem_cons_of_mem r hs),
      undo_act (hetas r List.mem_cons_self)]

theorem foldr_undo_sum (etas : List (RowEta (Exact 0))) (s : Finset Nat) (c : Nat → ℚ)
    (f : Nat → Nat → ℚ) : etas.foldr undo (fun i => ∑ p ∈ s, c p * f p i) =
      fun i => ∑ p ∈ s, c p * etas.foldr undo (f p) i := by
  induction etas with
  | nil => rfl
  | cons r etas ih => rw [List.foldr_cons, ih, undo_sum]; rfl

theorem foldr_undo_congr {etas : List (RowEta (Exact 0))} (hetas : ∀ r ∈ etas, r.Within m)
    {f g : Nat → ℚ} (h : ∀ i, i < m → f i = g i) {i : Nat} (hi : i < m) :
    etas.foldr undo f i = etas.foldr undo g i := by
  induction etas generalizing i with
  | nil => exact h i hi
  | cons r etas ih =>
    have hrest := fun {i} (hi : i < m) => ih (fun s hs => hetas s (List.mem_cons_of_mem r hs)) hi
    have hweigh := weigh_congr (r := r) (f := etas.foldr undo f) (g := etas.foldr undo g)
      fun t ht => hrest ((hetas r List.mem_cons_self).2 t ht).1
    rw [List.foldr_cons, List.foldr_cons, undo, undo, hweigh, hrest hi]

theorem sum_foldr_pull_mul_foldr_undo {etas : List (RowEta (Exact 0))}
    (hetas : ∀ r ∈ etas, r.Within m) (y c : Nat → ℚ) :
    ∑ i ∈ Finset.range m, etas.foldr pull y i * etas.foldr undo c i =
      ∑ i ∈ Finset.range m, y i * c i := by
  induction etas with
  | nil => rfl
  | cons r etas ih =>
    rw [List.foldr_cons, List.foldr_cons, sum_pull_mul_undo (hetas r List.mem_cons_self)]
    exact ih fun s hs => hetas s (List.mem_cons_of_mem r hs)

/-! ## Etas applied to vectors -/

section Vectors

variable {v : SparseVector (Exact 0)}

theorem value_dot (r : RowEta (Exact 0)) (v : SparseVector (Exact 0)) :
    (r.dot v.values).value = r.weigh v.valueAt := by
  rw [dot, Exact.value_sum, List.map_map]
  rfl

theorem valueAt_mulVec (hr : r.Within m) (hdim : v.dim = m) :
    (r.mulVec v).valueAt = r.act v.valueAt := by
  funext i
  rw [mulVec, act]
  by_cases hzero : (r.dot v.values == 0) = true
  · rw [if_pos hzero, ← value_dot, Exact.value_eq_zero_of_beq hzero, sub_zero, ite_self]
  · rw [if_neg hzero, SparseVector.valueAt_collect, Exact.value_neg, value_dot, ← sub_eq_add_neg]
    by_cases hi : i = r.pivot
    · rw [if_pos ⟨hi.symm, by rw [hdim, hi]; exact hr.1⟩, if_pos hi]
    · rw [if_neg fun h => hi h.1.symm, if_neg hi]

theorem valueAt_foldl_mulVec {etas : List (RowEta (Exact 0))} (hetas : ∀ r ∈ etas, r.Within m)
    (hv : v.Listed m) : (etas.foldl (fun v r => r.mulVec v) v).valueAt =
      etas.foldl (fun f r => r.act f) v.valueAt := by
  induction etas generalizing v with
  | nil => rfl
  | cons r etas ih =>
    have hr := hetas r List.mem_cons_self
    rw [List.foldl_cons, List.foldl_cons, ← valueAt_mulVec hr hv.dim_eq]
    exact ih (fun s hs => hetas s (List.mem_cons_of_mem r hs)) (listed_mulVec hr.1 hv)

theorem vecMul_spec (hr : r.Within m) (hv : v.Listed m) :
    (r.vecMul v).1.Listed m ∧ (r.vecMul v).1.valueAt = r.pull v.valueAt := by
  refine ⟨listed_vecMul (fun t ht => (hr.2 t ht).1) hv, funext fun i => ?_⟩
  rw [vecMul]
  by_cases hzero : (v.get r.pivot == 0) = true
  · have hvalue : v.valueAt r.pivot = 0 := Exact.value_eq_zero_of_beq hzero
    rw [if_pos hzero, pull, hvalue, mul_zero, sub_zero]
  · rw [if_neg hzero]
    exact Triangle.valueAt_distribute _ hv.dim_eq (fun t ht => (hr.2 t ht).1) i

theorem foldr_applyEta_spec {etas : List (RowEta (Exact 0))} (hetas : ∀ r ∈ etas, r.Within m)
    {s : Sweep (Exact 0)} (hs : s.vector.Listed m) :
    (etas.foldr (fun r s => LU.applyEta s r) s).vector.Listed m ∧
      (etas.foldr (fun r s => LU.applyEta s r) s).vector.valueAt =
        etas.foldr pull s.vector.valueAt := by
  induction etas with
  | nil => exact ⟨hs, rfl⟩
  | cons r etas ih =>
    obtain ⟨hl, hv⟩ := ih fun s hs => hetas s (List.mem_cons_of_mem r hs)
    rw [List.foldr_cons, List.foldr_cons, ← hv]
    exact vecMul_spec (hetas r List.mem_cons_self) hl

end Vectors

end RowEta

end DualSimplex
