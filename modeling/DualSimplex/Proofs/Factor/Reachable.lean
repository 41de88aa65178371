import DualSimplex.Factor.Replacement
import DualSimplex.Proofs.Factor.Reconstruction

/-!
# Factors that basis changes lead to

Replacing a column keeps the diagonal of the upper triangle away from zero, so
that factors can be solved with after any number of replacements.
-/

namespace DualSimplex

open Scalar Exact

namespace LU

/-! ## One replacement -/

variable {lu lu' : LU (Exact 0)}

/-- Replacing a column keeps factors solvable.  The spike may come from anywhere. -/
theorem Solvable.update (h : lu.Solvable) {position : Nat} {spike : SparseVector (Exact 0)}
    {pivot tolerance : Exact 0} (hposition : position < lu.m) (hnodup : spike.support.Nodup)
    (hlt : ∀ i ∈ spike.support, i < lu.m) (htolerance : 0 < tolerance.value)
    (hupdate : lu.update position spike pivot tolerance = .ok lu') : lu'.Solvable := by
  have hwell := h.toWellFormed.update hposition hnodup hlt hupdate
  obtain ⟨hlarge, rfl⟩ := eq_of_update_eq_ok hupdate
  refine { hwell with diagonal := fun s hs => ?_ }
  have hsize := h.upper.size_diagonal
  rw [UpperTriangle.isActive_replace h.upper] at hs
  rw [UpperTriangle.diagonalAt_replace h.upper]
  split
  · intro hzero
    have hmagnitude : (magnitude ((lu.eta (lu.labels.apply position)).pivotValue
        spike.values)).value = 0 := (Exact.abs_eq _).trans (by rw [hzero, abs_zero])
    have hsmall : (magnitude ((lu.eta (lu.labels.apply position)).pivotValue
        spike.values)).value < tolerance.value := hmagnitude.symm ▸ htolerance
    exact hlarge hsmall
  · rename_i hne
    rw [if_neg hne] at hs
    split at hs
    · exact absurd hs Bool.false_ne_true
    · exact h.diagonal s hs

theorem solvable_identity (m : Nat) : (identity m : LU (Exact 0)).Solvable := by
  refine solvable_ofSteps (completeElimination_identity m) fun s hs => ?_
  obtain ⟨i, -, rfl⟩ := List.mem_map.mp hs
  exact one_ne_zero

/-! ## Any number of replacements -/

/-- Factors of some matrix after some replacements. -/
inductive Reachable : LU (Exact 0) → Prop
  | identity (m : Nat) : Reachable (identity m)
  | factor {columns : List (List (Nat × Exact 0))} {threshold tolerance : Exact 0}
      {lu : LU (Exact 0)} {summary : FactorSummary (Exact 0)} (hcolumns : SquareColumns columns)
      (htolerance : 0 < tolerance.value)
      (h : LU.factor columns threshold tolerance = .ok (lu, summary)) : Reachable lu
  | update {lu lu' : LU (Exact 0)} {position : Nat} {spike : SparseVector (Exact 0)}
      {pivot tolerance : Exact 0} (hlu : Reachable lu) (hposition : position < lu.m)
      (hnodup : spike.support.Nodup) (hlt : ∀ i ∈ spike.support, i < lu.m)
      (htolerance : 0 < tolerance.value)
      (h : lu.update position spike pivot tolerance = .ok lu') : Reachable lu'

theorem Reachable.solvable (h : lu.Reachable) : lu.Solvable := by
  induction h with
  | identity m => exact solvable_identity m
  | factor hcolumns htolerance h =>
    obtain ⟨f, hf, rfl⟩ := exists_factored hcolumns htolerance h
    exact hf.solvable htolerance
  | update _ hposition hnodup hlt htolerance h ih =>
    exact ih.update hposition hnodup hlt htolerance h

namespace Solvable

/-- Nor is the transpose of such a matrix singular. -/
theorem eq_zero_of_sum_transposed_eq_zero (h : lu.Solvable) {y : Nat → ℚ}
    (hy : ∀ p, p < lu.m → ∑ i ∈ Finset.range lu.m, lu.matrixAt i p * y i = 0) {k : Nat}
    (hk : k < lu.m) : y k = 0 := by
  have hlisted := SparseVector.listed_single (m := lu.m) hk (x := (1 : Exact 0))
    (beq_zero_eq_false one_ne_zero)
  have hunit := fun i (hi : i < lu.m) => (h.sum_matrixAt_mul_ftran hlisted hi).trans
    (SparseVector.valueAt_single hk 1 i)
  rw [← Triangle.sum_ite_mul hk y hunit,
    Triangle.sum_sum_mul_comm (fun p i => lu.matrixAt i p) y]
  exact Finset.sum_eq_zero fun p hp => by rw [hy p (Finset.mem_range.mp hp), zero_mul]

variable (h : lu.Solvable) {v : SparseVector (Exact 0)} (hv : v.Listed lu.m)

include h hv

/-- There is no other solution. -/
theorem ftran_unique {x : Nat → ℚ} (hx : ∀ i, i < lu.m →
    ∑ p ∈ Finset.range lu.m, lu.matrixAt i p * x p = v.valueAt i) {p : Nat} (hp : p < lu.m) :
    x p = (lu.ftran v).solution.valueAt p := by
  refine sub_eq_zero.mp (h.eq_zero_of_sum_eq_zero
    (x := fun p => x p - (lu.ftran v).solution.valueAt p) (fun i hi => ?_) hp)
  simp only [mul_sub, Finset.sum_sub_distrib]
  rw [hx i hi, h.sum_matrixAt_mul_ftran hv hi, sub_self]

theorem btran_unique {y : Nat → ℚ} (hy : ∀ p, p < lu.m →
    ∑ i ∈ Finset.range lu.m, lu.matrixAt i p * y i = v.valueAt p) {i : Nat} (hi : i < lu.m) :
    y i = (lu.btran v).valueAt i := by
  refine sub_eq_zero.mp (h.eq_zero_of_sum_transposed_eq_zero
    (y := fun i => y i - (lu.btran v).valueAt i) (fun p hp => ?_) hi)
  simp only [mul_sub, Finset.sum_sub_distrib]
  rw [hy p hp, h.sum_matrixAt_mul_btran hv hp, sub_self]

/-- Inner products go from the one solve to the other. -/
theorem sum_mul_ftran {w : SparseVector (Exact 0)} (hw : w.Listed lu.m) :
    ∑ p ∈ Finset.range lu.m, w.valueAt p * (lu.ftran v).solution.valueAt p =
      ∑ i ∈ Finset.range lu.m, (lu.btran w).valueAt i * v.valueAt i := by
  calc ∑ p ∈ Finset.range lu.m, w.valueAt p * (lu.ftran v).solution.valueAt p
      = ∑ p ∈ Finset.range lu.m, (∑ i ∈ Finset.range lu.m,
          lu.matrixAt i p * (lu.btran w).valueAt i) * (lu.ftran v).solution.valueAt p := by
        refine Finset.sum_congr rfl fun p hp => ?_
        rw [h.sum_matrixAt_mul_btran hw (Finset.mem_range.mp hp)]
    _ = ∑ i ∈ Finset.range lu.m, (∑ p ∈ Finset.range lu.m,
          lu.matrixAt i p * (lu.ftran v).solution.valueAt p) * (lu.btran w).valueAt i :=
        Triangle.sum_sum_mul_comm ..
    _ = ∑ i ∈ Finset.range lu.m, (lu.btran w).valueAt i * v.valueAt i := by
        refine Finset.sum_congr rfl fun i hi => ?_
        rw [h.sum_matrixAt_mul_ftran hv (Finset.mem_range.mp hi), mul_comm]

end Solvable
end LU

/-- The sparse and the dense sweep come to the same vector, with the triangle and
with its transpose. -/
def Triangle.SweepsAgree (t : Triangle (Exact 0)) (d : Direction) (v : SparseVector (Exact 0)) :
    Prop :=
  (t.sparseSweep d t.column v).vector.valueAt = (t.denseSweep d t.pushRank v).vector.valueAt ∧
    (t.sparseSweep d.opposite t.row v).vector.valueAt =
      (t.denseSweep d.opposite t.pullRank v).vector.valueAt

theorem Triangle.Lawful.sweepsAgree {t : Triangle (Exact 0)} {d : Direction} {m : Nat}
    (h : t.Lawful d m) {v : SparseVector (Exact 0)} (hv : v.Listed m) : t.SweepsAgree d v := by
  constructor
  · rw [(h.sparseSweep_column hv).2, (h.denseSweep_pushRank hv).2]
  · rw [(h.sparseSweep_row hv).2, (h.denseSweep_pullRank hv).2]

namespace LU

/-- After any number of replacements, a vector solves the systems with the matrix
and with its transpose, it is the only one that does, it does not matter which way
any triangle is gone through, and the two solves are each other's transpose.  The
density of the right-hand side, by which the way is chosen, may be anything. -/
theorem Reachable.solves {lu : LU (Exact 0)} (h : lu.Reachable) {r : SparseVector (Exact 0)}
    (hr : r.Listed lu.m) :
    ((lu.ftran r).solution.Listed lu.m ∧ ∀ x : Nat → ℚ,
      (∀ i, i < lu.m →
        ∑ p ∈ Finset.range lu.m, rowsAt lu.toRows i p * x p = r.valueAt i) ↔
      ∀ p, p < lu.m → x p = (lu.ftran r).solution.valueAt p) ∧
    ((lu.btran r).Listed lu.m ∧ ∀ y : Nat → ℚ,
      (∀ p, p < lu.m →
        ∑ i ∈ Finset.range lu.m, rowsAt lu.toRows i p * y i = r.valueAt p) ↔
      ∀ i, i < lu.m → y i = (lu.btran r).valueAt i) ∧
    lu.lowerTriangle.SweepsAgree .ascending r ∧ lu.upperTriangle.SweepsAgree .descending r ∧
    ∀ a : SparseVector (Exact 0), a.Listed lu.m →
      ∑ p ∈ Finset.range lu.m, r.valueAt p * (lu.ftran a).solution.valueAt p =
        ∑ i ∈ Finset.range lu.m, (lu.btran r).valueAt i * a.valueAt i := by
  have hs := h.solvable
  have hrows : ∀ i p, i < lu.m → p < lu.m → rowsAt lu.toRows i p = lu.matrixAt i p :=
    fun i p hi hp => rowsAt_toRows lu hi hp
  refine ⟨⟨(hs.sum_solution_mul_upper hr).1, fun x => ⟨fun hx => ?_, fun hx i hi => ?_⟩⟩,
    ⟨(hs.btran_stages hr).1, fun y => ⟨fun hy => ?_, fun hy p hp => ?_⟩⟩,
    hs.lawful_lower.sweepsAgree hr, hs.lawful_upper.sweepsAgree hr,
    fun a ha => hs.sum_mul_ftran ha hr⟩
  · refine fun p hp => hs.ftran_unique hr (fun i hi => ?_) hp
    rw [← hx i hi]
    exact Finset.sum_congr rfl fun p hp => by rw [hrows i p hi (Finset.mem_range.mp hp)]
  · rw [← hs.sum_matrixAt_mul_ftran hr hi]
    refine Finset.sum_congr rfl fun p hp => ?_
    rw [hrows i p hi (Finset.mem_range.mp hp), hx p (Finset.mem_range.mp hp)]
  · refine fun i hi => hs.btran_unique hr (fun p hp => ?_) hi
    rw [← hy p hp]
    exact Finset.sum_congr rfl fun i hi => by rw [hrows i p (Finset.mem_range.mp hi) hp]
  · rw [← hs.sum_matrixAt_mul_btran hr hp]
    refine Finset.sum_congr rfl fun i hi => ?_
    rw [hrows i p (Finset.mem_range.mp hi) hp, hy i (Finset.mem_range.mp hi)]

/-- Replacing the first column of the identity matrix. -/
theorem reachable_solves_replacement : ∃ lu : LU (Exact 0), lu.Reachable ∧ lu.updateCount = 1 ∧
    ∀ i, i < 2 → ∑ p ∈ Finset.range 2, rowsAt lu.toRows i p *
      (lu.ftran (SparseVector.ofTerms 2 [(1, ofRat 3)])).solution.valueAt p =
        if i = 1 then 3 else 0 := by
  have hok : ((identity 2 : LU (Exact 0)).update 0
      (SparseVector.ofTerms 2 [(1, ofRat 1), (0, ofRat 2)]) (ofRat 2)
      (ofRat (1 / 1000))).toOption.isSome = true := by decide +kernel
  cases h : (identity 2 : LU (Exact 0)).update 0
      (SparseVector.ofTerms 2 [(1, ofRat 1), (0, ofRat 2)]) (ofRat 2) (ofRat (1 / 1000)) with
  | error e =>
    rw [h] at hok
    exact absurd hok Bool.false_ne_true
  | ok lu =>
    have hreachable : lu.Reachable :=
      .update (.identity 2) (by decide) (by decide +kernel) (by decide +kernel) (by norm_num) h
    obtain ⟨-, rfl⟩ := eq_of_update_eq_ok h
    have hlisted : (SparseVector.ofTerms 2 [(1, (ofRat 3 : Exact 0))]).Listed 2 :=
      (SparseVector.listed_zero 2 _).addAll (by simp)
    refine ⟨_, hreachable, rfl, fun i hi => ?_⟩
    refine Eq.trans (((hreachable.solves hlisted).1.2 _).mpr (fun p hp => rfl) i hi) ?_
    refine (SparseVector.valueAt_addAll (SparseVector.zero 2 _) _ (j := i) hi).trans ?_
    simp [coefficient, eq_comm]

end LU
end DualSimplex
