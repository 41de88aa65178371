import Mathlib
import DualSimplex.Proofs.Double

/-!
# The symmetry of doubles

The sign of a double is a bit of its own, and rounding does not look at it.  Sums and
products of negated doubles are therefore the negated sums and products, to the last bit.
Only a sum that cancels is plus zero on both sides.
-/

namespace DualSimplex
namespace Double

open Float.Model (Format)
open Float.Model.UnpackedFloat

/-! ## Negation -/

theorem Stored.neg {u : Float.Model.UnpackedFloat} (h : Stored u) : Stored u.neg := by
  cases h with
  | notANumber => exact .notANumber
  | infinity s => exact .infinity _
  | zero s => exact .zero _
  | finite s hpos hlt hle hge hfull => exact .finite _ hpos hlt hle hge hfull

theorem neg_neg_sign (s : Sign) : - -s = s := by
  cases s <;> rfl

theorem neg_neg_unpacked (u : Float.Model.UnpackedFloat) : u.neg.neg = u := by
  cases u with
  | notANumber => rfl
  | infinity s => rw [Float.Model.UnpackedFloat.neg, Float.Model.UnpackedFloat.neg, neg_neg_sign]
  | zero s => rw [Float.Model.UnpackedFloat.neg, Float.Model.UnpackedFloat.neg, neg_neg_sign]
  | finite s m e h =>
    rw [Float.Model.UnpackedFloat.neg, Float.Model.UnpackedFloat.neg, neg_neg_sign]

theorem isFinite_neg (u : Float.Model.UnpackedFloat) : u.neg.isFinite = u.isFinite := by
  cases u <;> rfl

theorem isNaN_neg (u : Float.Model.UnpackedFloat) : u.neg.isNaN = u.isNaN := by
  cases u <;> rfl

theorem unpack_packComponents_neg (s : Sign) (e : BitVec 11) (m : BitVec 52) :
    unpack .binary64 (packComponents .binary64 (-s) e m) =
      (unpack .binary64 (packComponents .binary64 s e m)).neg := by
  simp only [unpack, unpackMantissa_packComponents, unpackExponent_packComponents,
    unpackSign_packComponents, Sign.ofBitVec_toBitVec]
  split
  · split <;> rfl
  · split
    · split <;> rfl
    · rfl

/-- What a double keeps of a number. -/
def kept (u : Float.Model.UnpackedFloat) : Float.Model.UnpackedFloat :=
  unpack .binary64 (pack .binary64 u)

theorem Stored.kept_eq {u : Float.Model.UnpackedFloat} (h : Stored u) : kept u = u :=
  unpack_pack h

/-- Negating before the packing is negating after it. -/
theorem kept_neg (u : Float.Model.UnpackedFloat) : kept u.neg = (kept u).neg := by
  cases u with
  | notANumber => rfl
  | infinity s => exact unpack_packComponents_neg s _ _
  | zero s => exact unpack_packComponents_neg s _ _
  | finite s m e h =>
    simp only [kept, Float.Model.UnpackedFloat.neg, pack]
    split
    · exact unpack_packComponents_neg s _ _
    · split <;> exact unpack_packComponents_neg s _ _

theorem unpack_neg (x : Float) : (-x).toModel.unpack = x.toModel.unpack.neg :=
  unpack_pack (stored x).neg

/-- A double is determined by what it unpacks to. -/
theorem eq_of_unpack {x y : Float} (h : x.toModel.unpack = y.toModel.unpack) : x = y :=
  Float.toBits_inj.mp (UInt64.toBitVec_inj.mp
    ((unpack_inj_of_valid x.toModel.valid y.toModel.valid).mp h))

theorem neg_neg_double (x : Float) : - -x = x :=
  eq_of_unpack (by rw [unpack_neg, unpack_neg, neg_neg_unpacked])

/-! ## Sums and products -/

theorem roundWithAccuracy_neg (s : Sign) (m : Nat) (e : Int) (a : Accuracy) :
    roundWithAccuracy .binary64 (-s) m e a = (roundWithAccuracy .binary64 s m e a).neg := by
  simp only [roundWithAccuracy]
  split <;> rfl

/-- What is rounded is negated with its sign, and a zero gets the sign that is asked for. -/
theorem normalize_neg (m : Int) (e : Int) (t : Sign) :
    Float.Model.UnpackedFloat.normalize .binary64 (-m) e t =
        (Float.Model.UnpackedFloat.normalize .binary64 m e t).neg ∨
      IsZero (Float.Model.UnpackedFloat.normalize .binary64 m e t) ∧
        IsZero (Float.Model.UnpackedFloat.normalize .binary64 (-m) e t) := by
  unfold Float.Model.UnpackedFloat.normalize
  rcases lt_trichotomy m 0 with hm | rfl | hm
  · rw [compare_lt_iff_lt.mpr hm, compare_gt_iff_gt.mpr (show 0 < -m by omega)]
    exact .inl (roundWithAccuracy_neg .negative _ _ _)
  · exact .inr ⟨trivial, trivial⟩
  · rw [compare_gt_iff_gt.mpr hm, compare_lt_iff_lt.mpr (show -m < 0 by omega), Int.neg_neg]
    exact .inl (roundWithAccuracy_neg .positive _ _ _)

theorem apply_neg (s : Sign) (n : Int) : (-s).apply n = -s.apply n := by
  cases s
  · exact (Int.neg_neg n).symm
  · rfl

/-- A sum of negated numbers is the negated sum, but for the sign of a zero. -/
theorem add_neg_neg (u v : Float.Model.UnpackedFloat) :
    Float.Model.UnpackedFloat.add .binary64 u.neg v.neg =
        (Float.Model.UnpackedFloat.add .binary64 u v).neg ∨
      IsZero (Float.Model.UnpackedFloat.add .binary64 u v) ∧
        IsZero (Float.Model.UnpackedFloat.add .binary64 u.neg v.neg) := by
  rcases u with s | _ | s | ⟨s, m, e, h⟩ <;> rcases v with t | _ | t | ⟨t, m', e', h'⟩
  case infinity.infinity => exact .inl (by cases s <;> cases t <;> rfl)
  case zero.zero =>
    cases s <;> cases t
    · exact .inl rfl
    · exact .inr ⟨trivial, trivial⟩
    · exact .inr ⟨trivial, trivial⟩
    · exact .inl rfl
  case finite.finite =>
    simp only [Float.Model.UnpackedFloat.neg, Float.Model.UnpackedFloat.add, apply_neg,
      ← Int.neg_add]
    exact normalize_neg _ _ _
  all_goals exact .inl rfl

theorem neg_mul_sign (s t : Sign) : -s * t = -(s * t) := by
  cases s <;> cases t <;> rfl

theorem mul_neg_left (u v : Float.Model.UnpackedFloat) :
    Float.Model.UnpackedFloat.mul .binary64 u.neg v =
      (Float.Model.UnpackedFloat.mul .binary64 u v).neg := by
  cases u <;> cases v <;>
    simp only [Float.Model.UnpackedFloat.mul, Float.Model.UnpackedFloat.neg, neg_mul_sign]
  exact roundWithAccuracy_neg ..

end Double
end DualSimplex
