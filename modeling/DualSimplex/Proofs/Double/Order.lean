import Mathlib
import DualSimplex.Proofs.Double.Symmetry

/-!
# The order of doubles

The doubles of one sign are counted through from zero to infinity.  The code of a double
without its sign is that number, so the exponent counts in steps of all mantissas.  Two
numbers are compared as the numbers of their places are, and a place further on is never a
smaller number.
-/

namespace DualSimplex
namespace Double

open Float.Model (Format)
open Float.Model.UnpackedFloat

/-- The place of infinity. -/
def lastPlace : Int := 2047 * 2 ^ 52

/-- The place of a number in the order of all doubles, counted from zero. -/
def place : Float.Model.UnpackedFloat → Int
  | .finite s m e _ => s.apply ((e + 1074) * 2 ^ 52 + m)
  | .infinity s => s.apply lastPlace
  | .zero _ | .notANumber => 0

theorem place_neg (u : Float.Model.UnpackedFloat) : place u.neg = -place u := by
  cases u with
  | notANumber => rfl
  | infinity s => exact apply_neg s _
  | zero s => rfl
  | finite s m e h => exact apply_neg s _

/-- Only infinities are as far from zero as that. -/
theorem Stored.place_bounds {u : Float.Model.UnpackedFloat} (h : Stored u) :
    -lastPlace ≤ place u ∧ place u ≤ lastPlace ∧
      (u.isFinite = true → -lastPlace < place u ∧ place u < lastPlace) := by
  cases h with
  | notANumber => decide
  | infinity s => cases s <;> decide
  | zero s => cases s <;> decide
  | finite s hpos hlt hle hge hfull =>
    cases s <;> simp only [place, lastPlace, Sign.apply] <;> omega

theorem exists_eq_infinity {u : Float.Model.UnpackedFloat} (hnan : u.isNaN = false)
    (h : u.isFinite = false) : ∃ s, u = .infinity s := by
  cases u with
  | infinity s => exact ⟨s, rfl⟩
  | notANumber => exact absurd hnan Bool.noConfusion
  | zero s => exact absurd h Bool.noConfusion
  | finite s m e hpos => exact absurd h Bool.noConfusion

theorem place_of_not_isFinite {u : Float.Model.UnpackedFloat} (hnan : u.isNaN = false)
    (h : u.isFinite = false) : place u = -lastPlace ∨ place u = lastPlace := by
  obtain ⟨s, rfl⟩ := exists_eq_infinity hnan h
  cases s
  · exact .inl rfl
  · exact .inr rfl

theorem eq_notANumber {u : Float.Model.UnpackedFloat} (h : u.isNaN = true) : u = .notANumber := by
  cases u <;> first | rfl | exact absurd h Bool.noConfusion

theorem Stored.isZero_iff {u : Float.Model.UnpackedFloat} (h : Stored u) :
    IsZero u ↔ u.isNaN = false ∧ place u = 0 := by
  cases h with
  | notANumber => exact ⟨False.elim, fun hzero => absurd hzero.1 Bool.noConfusion⟩
  | infinity s =>
    refine ⟨False.elim, fun hzero => absurd hzero.2 ?_⟩
    cases s <;> decide
  | zero s => exact ⟨fun _ => ⟨rfl, rfl⟩, fun _ => trivial⟩
  | finite s hpos hlt hle hge hfull =>
    refine ⟨False.elim, fun hzero => absurd hzero.2 ?_⟩
    cases s <;> simp only [place, Sign.apply] <;> omega

/-! ## Comparisons -/

/-- Numbers of one sign are compared by their exponents first. -/
theorem compare_exponents {m m' : Nat} {e e' : Int} (hlt : m < 2 ^ 53) (hlt' : m' < 2 ^ 53)
    (hle : -1074 ≤ e) (hle' : -1074 ≤ e') (hfull : 2 ^ 52 ≤ m ∨ e = -1074)
    (hfull' : 2 ^ 52 ≤ m' ∨ e' = -1074) : (compare e e').then (compare m m') =
      compare ((e + 1074) * 2 ^ 52 + m) ((e' + 1074) * 2 ^ 52 + m') := by
  rcases lt_trichotomy e e' with he | rfl | he
  · rw [compare_lt_iff_lt.mpr he, Ordering.lt_then]
    exact (compare_lt_iff_lt.mpr (by omega)).symm
  · rw [compare_eq_iff_eq.mpr rfl, Ordering.eq_then]
    rcases lt_trichotomy m m' with hm | rfl | hm
    · rw [compare_lt_iff_lt.mpr hm]
      exact (compare_lt_iff_lt.mpr (by omega)).symm
    · rw [compare_eq_iff_eq.mpr rfl, compare_eq_iff_eq.mpr rfl]
    · rw [compare_gt_iff_gt.mpr hm]
      exact (compare_gt_iff_gt.mpr (by omega)).symm
  · rw [compare_gt_iff_gt.mpr he, Ordering.gt_then]
    exact (compare_gt_iff_gt.mpr (by omega)).symm

theorem swap_compare (a b : Int) : (compare a b).swap = compare (-a) (-b) := by
  rcases lt_trichotomy a b with h | rfl | h
  · rw [compare_lt_iff_lt.mpr h, compare_gt_iff_gt.mpr (show -b < -a by omega)]
    rfl
  · rw [compare_eq_iff_eq.mpr rfl, compare_eq_iff_eq.mpr rfl]
    rfl
  · rw [compare_gt_iff_gt.mpr h, compare_lt_iff_lt.mpr (show -a < -b by omega)]
    rfl

theorem lt_of_some_lt {a b : Int} (h : a < b) : some Ordering.lt = some (compare a b) :=
  congrArg some (compare_lt_iff_lt.mpr h).symm

theorem gt_of_some_gt {a b : Int} (h : b < a) : some Ordering.gt = some (compare a b) :=
  congrArg some (compare_gt_iff_gt.mpr h).symm

/-- Numbers are compared by their places. -/
theorem Stored.compare_eq {u v : Float.Model.UnpackedFloat} (hu : Stored u) (hv : Stored v)
    (hnan : u.isNaN = false) (hnan' : v.isNaN = false) :
    u.compare v = some (compare (place u) (place v)) := by
  have hbounds := hu.place_bounds.2.2
  have hbounds' := hv.place_bounds.2.2
  cases hu with
  | notANumber => exact absurd hnan Bool.noConfusion
  | infinity s =>
    cases hv with
    | notANumber => exact absurd hnan' Bool.noConfusion
    | infinity t => cases s <;> cases t <;> rfl
    | zero t => cases s <;> rfl
    | finite t => cases s with
      | negative => exact lt_of_some_lt (hbounds' rfl).1
      | positive => exact gt_of_some_gt (hbounds' rfl).2
  | zero s =>
    cases hv with
    | notANumber => exact absurd hnan' Bool.noConfusion
    | infinity t => cases t <;> rfl
    | zero t => rfl
    | finite t hpos hlt hle => cases t with
      | negative => exact gt_of_some_gt (by simp only [place, Sign.apply]; omega)
      | positive => exact lt_of_some_lt (by simp only [place, Sign.apply]; omega)
  | finite s hpos hlt hle hge hfull =>
    cases hv with
    | notANumber => exact absurd hnan' Bool.noConfusion
    | infinity t => cases t with
      | negative => cases s <;> exact gt_of_some_gt (hbounds rfl).1
      | positive => cases s <;> exact lt_of_some_lt (hbounds rfl).2
    | zero t => cases s with
      | negative => exact lt_of_some_lt (by simp only [place, Sign.apply]; omega)
      | positive => exact gt_of_some_gt (by simp only [place, Sign.apply]; omega)
    | finite t hpos' hlt' hle' hge' hfull' =>
      have hsame := compare_exponents hlt hlt' hle hle' hfull hfull'
      cases s <;> cases t
      · exact congrArg some ((congrArg Ordering.swap hsame).trans (swap_compare _ _))
      · exact lt_of_some_lt (by simp only [place, Sign.apply]; omega)
      · exact gt_of_some_gt (by simp only [place, Sign.apply]; omega)
      · exact congrArg some hsame

theorem compare_eq_none {u v : Float.Model.UnpackedFloat} (h : u.isNaN = true ∨ v.isNaN = true) :
    u.compare v = none := by
  rcases h with h | h
  · cases u <;> first | exact absurd h Bool.noConfusion | rfl
  · cases v <;> first | exact absurd h Bool.noConfusion | cases u <;> rfl

section Comparisons

variable {u v : Float.Model.UnpackedFloat} (hu : Stored u) (hv : Stored v)

include hu hv

theorem compare_of_stored : u.compare v =
    if u.isNaN = false ∧ v.isNaN = false then some (compare (place u) (place v)) else none := by
  split
  · rename_i h
    exact hu.compare_eq hv h.1 h.2
  · rename_i h
    rw [not_and_or, Bool.not_eq_false, Bool.not_eq_false] at h
    exact compare_eq_none h

theorem Stored.lt_iff : u.lt v = true ↔ u.isNaN = false ∧ v.isNaN = false ∧ place u < place v := by
  rw [Float.Model.UnpackedFloat.lt, compare_of_stored hu hv]
  split
  · rename_i h
    simp [h, compare_lt_iff_lt]
  · rename_i h
    simp only [reduceCtorEq, beq_iff_eq, false_iff]
    exact fun hlt => h ⟨hlt.1, hlt.2.1⟩

theorem Stored.le_iff : u.le v = true ↔ u.isNaN = false ∧ v.isNaN = false ∧ place u ≤ place v := by
  rw [Float.Model.UnpackedFloat.le, compare_of_stored hu hv]
  split
  · rename_i h
    simp [h, ← Ordering.ne_gt_iff_isLE, compare_le_iff_le]
  · rename_i h
    simp only [Option.any_none, Bool.false_eq_true, false_iff]
    exact fun hle => h ⟨hle.1, hle.2.1⟩

theorem Stored.beq_iff :
    u.beq v = true ↔ u.isNaN = false ∧ v.isNaN = false ∧ place u = place v := by
  rw [Float.Model.UnpackedFloat.beq, compare_of_stored hu hv]
  split
  · rename_i h
    simp [h]
  · rename_i h
    simp only [reduceCtorEq, beq_iff_eq, false_iff]
    exact fun heq => h ⟨heq.1, heq.2.1⟩

end Comparisons

end Double
end DualSimplex
