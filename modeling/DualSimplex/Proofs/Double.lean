import Mathlib
import DualSimplex.Proofs.Scalar

/-!
# Binary floating point

A double is unpacked for every operation, and the result is packed again.  What has the form
in which doubles are stored survives that, and only what is too small for the format turns
into zero.  No quotient of a value that is not tiny by a finite one is that small, so that
a triangular solve never stores a zero at a position that it has listed.
-/

namespace DualSimplex
namespace Double

open Scalar
open Float.Model (Format totalExponent)
open Float.Model.UnpackedFloat

/-- The numbers of which doubles are the codes.  All bits of the mantissa are in use unless the
exponent is the least. -/
inductive Stored : Float.Model.UnpackedFloat → Prop
  | notANumber : Stored .notANumber
  | infinity (s : Sign) : Stored (.infinity s)
  | zero (s : Sign) : Stored (.zero s)
  | finite (s : Sign) {m : Nat} {e : Int} (hpos : 0 < m) (hlt : m < 2 ^ 53) (hle : -1074 ≤ e)
      (hge : e ≤ 971) (hfull : 2 ^ 52 ≤ m ∨ e = -1074) : Stored (.finite s m e hpos)

theorem Stored.abs {u : Float.Model.UnpackedFloat} (h : Stored u) : Stored u.abs := by
  cases h with
  | notANumber => exact .notANumber
  | infinity s => exact .infinity _
  | zero s => exact .zero _
  | finite s hpos hlt hle hge hfull => exact .finite _ hpos hlt hle hge hfull

/-! ## Packing and unpacking -/

theorem toNat_append_one {w : Nat} (v : BitVec w) : (1#1 ++ v).toNat = 2 ^ w + v.toNat := by
  rw [BitVec.toNat_append, ← Nat.shiftLeft_add_eq_or_of_lt v.isLt]
  simp [Nat.shiftLeft_eq]

theorem stored_unpack (b : BitVec 64) : Stored (unpack .binary64 b) := by
  have hbits : Format.binary64.mantissaBitsWithoutImplicit = 52 := rfl
  have hbias : Format.binary64.exponentBias = 1023 := rfl
  have hmantissa : (@unpackMantissa .binary64 b).toNat < 2 ^ 52 := BitVec.isLt _
  have hexponent : (@unpackExponent .binary64 b).toNat < 2 ^ 11 := BitVec.isLt _
  -- The code of the exponent is all ones, zero, or one of those between.
  rw [unpack]
  split
  · split
    · exact .infinity _
    · exact .notANumber
  · rename_i hall
    split
    · rename_i hzero
      have he : (@unpackExponent .binary64 b).toNat = 0 := by rw [hzero]; rfl
      split
      · exact .zero _
      · refine .finite _ _ (by omega) ?_ ?_ (Or.inr ?_) <;>
          rw [he, hbias, hbits] <;> omega
    · rename_i hnone
      have he : (@unpackExponent .binary64 b).toNat ≠ 2047 :=
        fun e => hall (BitVec.eq_of_toNat_eq e)
      have he' : (@unpackExponent .binary64 b).toNat ≠ 0 :=
        fun e => hnone (BitVec.eq_of_toNat_eq e)
      have happend : (1#1 ++ @unpackMantissa .binary64 b).toNat =
          2 ^ 52 + (@unpackMantissa .binary64 b).toNat := toNat_append_one _
      refine .finite _ _ ?_ ?_ ?_ (Or.inl ?_)
      · omega
      · rw [hbias, hbits]
        omega
      · rw [hbias, hbits]
        omega
      · omega

theorem stored (x : Float) : Stored x.toModel.unpack :=
  stored_unpack _

theorem finite_congr {s : Sign} {m m' : Nat} {e e' : Int} (hpos : 0 < m) (hpos' : 0 < m')
    (hm : m = m') (he : e = e') :
    Float.Model.UnpackedFloat.finite s m e hpos = .finite s m' e' hpos' := by
  subst hm he
  rfl

/-- A code of zero for the exponent stands for zero and for subnormal numbers. -/
theorem unpack_packComponents_zero (s : Sign) (v : BitVec 52) :
    unpack .binary64 (packComponents .binary64 s 0#11 v) =
      if h : v = 0#52 then .zero s
      else .finite s v.toNat (-1074) (Nat.pos_of_ne_zero fun e => h (BitVec.eq_of_toNat_eq e)) := by
  rw [unpack]
  simp only [unpackMantissa_packComponents, unpackExponent_packComponents,
    unpackSign_packComponents, Sign.ofBitVec_toBitVec]
  rw [if_neg (by decide), if_pos trivial]
  rfl

/-- Any other but the greatest stands for numbers with a mantissa that is full. -/
theorem unpack_packComponents_of_pos (s : Sign) {k : Nat} (hpos : 0 < k) (hlt : k < 2047)
    (v : BitVec 52) : unpack .binary64 (packComponents .binary64 s (BitVec.ofNat 11 k) v) =
      .finite s (2 ^ 52 + v.toNat) (k - 1075) (Nat.add_pos_left (Nat.two_pow_pos 52) _) := by
  have hcode : (BitVec.ofNat 11 k).toNat = k := by
    rw [BitVec.toNat_ofNat]
    omega
  have hne : ∀ c : BitVec 11, c.toNat ≠ k → BitVec.ofNat 11 k ≠ c := by
    rintro c hc rfl
    exact hc hcode
  rw [unpack]
  simp only [unpackMantissa_packComponents, unpackExponent_packComponents,
    unpackSign_packComponents, Sign.ofBitVec_toBitVec]
  rw [if_neg (hne _ (by show 2047 ≠ k; omega)), if_neg (hne _ (by show 0 ≠ k; omega))]
  exact finite_congr _ _ (toNat_append_one v) (by rw [hcode]; rfl)

/-- How a finite number is packed. -/
theorem pack_finite (s : Sign) {m : Nat} {e : Int} (hpos : 0 < m) (hlt : m < 2 ^ 53)
    (hle : -1074 ≤ e) : pack .binary64 (.finite s m e hpos) =
      if 972 ≤ e then packedInfinity .binary64 s
      else if 2 ^ 52 ≤ m then
        packComponents .binary64 s (BitVec.ofNat 11 (e + 1075).toNat) (BitVec.ofNat 52 m)
      else packComponents .binary64 s 0#11 (BitVec.ofNat 52 m) := by
  have hbiased : (e + Format.binary64.exponentBias +
      Format.binary64.mantissaBitsWithoutImplicit).toNat = (e + 1075).toNat := by
    show (e + (1023 : Nat) + (52 : Nat)).toNat = _
    omega
  have hfull : m.log2 + 1 = 53 ↔ 2 ^ 52 ≤ m := by
    rw [← Nat.le_log2 hpos.ne']
    have := (Nat.log2_lt hpos.ne').mpr hlt
    omega
  rw [pack, hbiased]
  exact if_congr (by show 2 ^ 11 ≤ _ ↔ _; omega) rfl (if_congr hfull rfl rfl)

/-- What is stored comes out as it went in. -/
theorem unpack_pack {u : Float.Model.UnpackedFloat} (h : Stored u) :
    unpack .binary64 (pack .binary64 u) = u := by
  cases h with
  | notANumber => rfl
  | infinity s => cases s <;> rfl
  | zero s => cases s <;> rfl
  | @finite s m e hpos hlt hle hge hfull =>
    rw [pack_finite s hpos hlt hle, if_neg (by omega)]
    by_cases hnormal : 2 ^ 52 ≤ m
    · rw [if_pos hnormal, unpack_packComponents_of_pos s (by omega) (by omega)]
      exact finite_congr _ _ (by rw [BitVec.toNat_ofNat]; omega) (by omega)
    · have hm : (BitVec.ofNat 52 m).toNat = m := by
        rw [BitVec.toNat_ofNat]
        omega
      rw [if_neg hnormal, unpack_packComponents_zero, dif_neg]
      · exact finite_congr _ _ hm (hfull.resolve_left hnormal).symm
      · intro e
        rw [e] at hm
        exact hpos.ne hm

/-- Zeros of either sign. -/
def IsZero : Float.Model.UnpackedFloat → Prop
  | .zero _ => True
  | _ => False

/-- A finite number that is not too small does not turn into zero. -/
theorem not_isZero_pack (s : Sign) {m : Nat} {e : Int} (hpos : 0 < m) (hlt : m < 2 ^ 53)
    (hle : -1074 ≤ e) : ¬ IsZero (unpack .binary64 (pack .binary64 (.finite s m e hpos))) := by
  rw [pack_finite s hpos hlt hle]
  split
  · cases s <;> exact id
  · split
    · rw [unpack_packComponents_of_pos s (by omega) (by omega)]
      exact id
    · rw [unpack_packComponents_zero, dif_neg]
      · exact id
      · intro e
        have := congrArg BitVec.toNat e
        rw [BitVec.toNat_ofNat] at this
        have hzero : m % 2 ^ 52 = 0 := this
        omega

/-! ## Rounding -/

theorem mantissa_shiftRight (x : ExtendedMantissa) (k : Nat) :
    (x >>> k).mantissa = x.mantissa / 2 ^ k := by
  induction k with
  | zero => exact (Nat.div_one _).symm
  | succ k ih =>
    show (x >>> k).mantissa / 2 = _
    rw [ih, Nat.div_div_eq_div_mul, Nat.pow_succ]

theorem mantissa_le_roundedMantissa (x : ExtendedMantissa) : x.mantissa ≤ x.roundedMantissa := by
  obtain ⟨m, round, sticky⟩ := x
  show m ≤ Accuracy.roundToNearestEven m _
  cases round <;> cases sticky <;> simp [ExtendedMantissa.accuracy, Accuracy.roundToNearestEven]

theorem mantissa_shiftToTargetExponent (m : Nat) (e : Int) (a : Accuracy) :
    (shiftToTargetExponent .binary64 m e a).1.mantissa =
      m / 2 ^ (Format.binary64.targetExponent (totalExponent m e) - e).toNat := by
  have hstart : (ExtendedMantissa.ofMantissaAndAccuracy m a).mantissa = m := by
    obtain _ | (_ | _ | _) := a <;> rfl
  exact (mantissa_shiftRight ..).trans (by rw [hstart])

theorem targetExponent_binary64 (m : Nat) (e : Int) :
    Format.binary64.targetExponent (totalExponent m e) = max (m.log2 + e - 52) (-1074) := by
  show max ((m.log2 : Int) + 1 + e - (53 : Nat)) (-1074) = _
  omega

/-- The bits that a shift leaves of a mantissa. -/
theorem log2_div_two_pow (m k : Nat) : (m / 2 ^ k).log2 = m.log2 - k := by
  have hhalf : ∀ n : Nat, (n / 2).log2 = n.log2 - 1 := by
    intro n
    rw [Nat.log2_def n]
    split
    · rfl
    · have : n / 2 = 0 := by omega
      rw [this]
      rfl
  induction k with
  | zero => rw [Nat.pow_zero, Nat.div_one, Nat.sub_zero]
  | succ k ih => rw [Nat.pow_succ, ← Nat.div_div_eq_div_mul, hhalf, ih, Nat.sub_sub]

/-- A mantissa is shifted into the format, and no further than to its leading bit. -/
theorem shiftToTargetExponent_spec {m : Nat} {e : Int} (a : Accuracy) (hpos : 0 < m)
    (hlarge : -1074 ≤ m.log2 + e) : 0 < (shiftToTargetExponent .binary64 m e a).1.mantissa ∧
      (shiftToTargetExponent .binary64 m e a).1.mantissa < 2 ^ 53 ∧
      -1074 ≤ (shiftToTargetExponent .binary64 m e a).2 := by
  have hexponent : (shiftToTargetExponent .binary64 m e a).2 =
      e + ((Format.binary64.targetExponent (totalExponent m e) - e).toNat : Int) := rfl
  rw [mantissa_shiftToTargetExponent, hexponent, targetExponent_binary64]
  generalize hk : (max ((m.log2 : Int) + e - 52) (-1074) - e).toNat = k
  have hshifted : 0 < m / 2 ^ k :=
    Nat.div_pos ((Nat.le_log2 hpos.ne').mp (by omega)) (by positivity)
  refine ⟨hshifted, (Nat.log2_lt hshifted.ne').mp ?_, by omega⟩
  rw [log2_div_two_pow]
  omega

/-- Rounding makes no zero of a number that is at least the least one. -/
theorem exists_roundWithAccuracy (s : Sign) {m : Nat} {e : Int} (a : Accuracy) (hpos : 0 < m)
    (hlarge : -1074 ≤ m.log2 + e) : ∃ (m' : Nat) (e' : Int) (hpos' : 0 < m'),
      roundWithAccuracy .binary64 s m e a = .finite s m' e' hpos' ∧ m' < 2 ^ 53 ∧ -1074 ≤ e' := by
  obtain ⟨hpos₁, -, hle₁⟩ := shiftToTargetExponent_spec a hpos hlarge
  have hrounded := hpos₁.trans_le (mantissa_le_roundedMantissa _)
  -- Rounding may carry into one more bit, which is why there is a second shift.
  obtain ⟨hpos₂, hlt₂, hle₂⟩ :=
    @shiftToTargetExponent_spec _ (shiftToTargetExponent .binary64 m e a).2 .exact hrounded
      (by omega)
  exact ⟨_, _, hpos₂, dif_neg hpos₂.ne', hlt₂, hle₂⟩

/-! ## Quotients -/

/-- A quotient is computed to enough bits for it to keep its magnitude. -/
theorem divCore_spec {m₁ m₂ : Nat} {e₁ e₂ : Int} (hpos₁ : 0 < m₁) (hpos₂ : 0 < m₂)
    (hlarge : -1073 ≤ (m₁.log2 + e₁) - (m₂.log2 + e₂)) :
    0 < (divCore .binary64 m₁ e₁ m₂ e₂).1 ∧ -1074 ≤
      ((divCore .binary64 m₁ e₁ m₂ e₂).1.log2 : Int) + (divCore .binary64 m₁ e₁ m₂ e₂).2.1 := by
  have htarget : Format.binary64.targetExponent (totalExponent m₁ e₁ - totalExponent m₂ e₂) =
      max ((m₁.log2 + e₁) - (m₂.log2 + e₂) - 53) (-1074) := by
    show max (((m₁.log2 : Int) + 1 + e₁) - (m₂.log2 + 1 + e₂) - (53 : Nat)) (-1074) = _
    omega
  rw [divCore, htarget]
  generalize ht : min (e₁ - e₂) (max ((m₁.log2 + e₁) - (m₂.log2 + e₂) - 53) (-1074)) = t
  generalize hk : (e₁ - e₂ - t).toNat = k
  obtain ⟨b, hb⟩ : ∃ b, m₁.log2 + k = b + (m₂.log2 + 1) :=
    ⟨m₁.log2 + k - (m₂.log2 + 1), by omega⟩
  have hquotient : 2 ^ b ≤ m₁ <<< k / m₂ := by
    rw [Nat.le_div_iff_mul_le hpos₂, Nat.shiftLeft_eq]
    calc 2 ^ b * m₂ ≤ 2 ^ b * 2 ^ (m₂.log2 + 1) :=
          Nat.mul_le_mul_left _ Nat.lt_log2_self.le
      _ = 2 ^ m₁.log2 * 2 ^ k := by rw [← Nat.pow_add, ← hb, Nat.pow_add]
      _ ≤ m₁ * 2 ^ k := Nat.mul_le_mul_right _ (Nat.log2_self_le hpos₁.ne')
  have hpos : 0 < m₁ <<< k / m₂ := (Nat.two_pow_pos b).trans_le hquotient
  have hbits : b ≤ (m₁ <<< k / m₂).log2 := (Nat.le_log2 hpos.ne').mpr hquotient
  have hlower : -1074 ≤ ((m₁ <<< k / m₂).log2 : Int) + t := by omega
  exact ⟨hpos, hlower⟩

/-- A quotient of numbers does not turn into zero if the divisor is finite and the quotient is
not below the least number. -/
theorem not_isZero_div (s₁ s₂ : Sign) {m₁ m₂ : Nat} {e₁ e₂ : Int} (hpos₁ : 0 < m₁)
    (hpos₂ : 0 < m₂) (hlarge : -1073 ≤ (m₁.log2 + e₁) - (m₂.log2 + e₂)) :
    ¬ IsZero (unpack .binary64 (pack .binary64
      (Float.Model.UnpackedFloat.div .binary64 (.finite s₁ m₁ e₁ hpos₁)
        (.finite s₂ m₂ e₂ hpos₂)))) := by
  obtain ⟨hpos, hbits⟩ := divCore_spec hpos₁ hpos₂ hlarge
  obtain ⟨m, e, hm, heq, hlt, hle⟩ :=
    exists_roundWithAccuracy (s₁ / s₂) (divCore .binary64 m₁ e₁ m₂ e₂).2.2 hpos hbits
  have hdiv : Float.Model.UnpackedFloat.div .binary64 (.finite s₁ m₁ e₁ hpos₁)
      (.finite s₂ m₂ e₂ hpos₂) = .finite (s₁ / s₂) m e hm := heq
  rw [hdiv]
  exact not_isZero_pack _ hm hlt hle

/-! ## Comparisons -/

theorem beq_zero_iff (x : Float) : (x == 0) = true ↔ IsZero x.toModel.unpack := by
  show x.toModel.unpack.beq (.zero .positive) = true ↔ _
  rw [beq_iff_ne_notANumber_and_eq]
  rcases x.toModel.unpack with s | _ | s | ⟨s, m, e, h⟩
  · simp [IsZero]
  · simp [IsZero]
  · cases s <;> simp [IsZero]
  · simp [IsZero]

/-- Finite numbers of the same sign are compared by their exponents first. -/
theorem finite_lt_iff {m m' : Nat} {e e' : Int} {h : 0 < m} {h' : 0 < m'} :
    (Float.Model.UnpackedFloat.finite .positive m e h).lt (.finite .positive m' e' h') = true ↔
      e < e' ∨ e = e' ∧ m < m' := by
  simp [Float.Model.UnpackedFloat.lt, Float.Model.UnpackedFloat.compare, Ordering.then_eq_lt,
    compare_lt_iff_lt]

theorem finite_le_iff {m m' : Nat} {e e' : Int} {h : 0 < m} {h' : 0 < m'} :
    (Float.Model.UnpackedFloat.finite .positive m e h).le (.finite .positive m' e' h') = true ↔
      e < e' ∨ e = e' ∧ m ≤ m' := by
  have hmantissa : (compare m m').isLE = true ↔ m ≤ m' :=
    Ordering.ne_gt_iff_isLE.symm.trans compare_le_iff_le
  simp [Float.Model.UnpackedFloat.le, Float.Model.UnpackedFloat.compare,
    Ordering.isLE_then_iff_or, compare_lt_iff_lt, hmantissa]

/-- The magnitude below which values are not kept. -/
def tiny : Float.Model.UnpackedFloat :=
  .finite .positive 6338253001141147 (-99) (by decide)

/-- What is not tiny, as far as its leading bit tells. -/
inductive Sizable : Float.Model.UnpackedFloat → Prop
  | notANumber : Sizable .notANumber
  | infinity (s : Sign) : Sizable (.infinity s)
  | finite (s : Sign) {m : Nat} {e : Int} (hpos : 0 < m) (hlarge : -47 ≤ m.log2 + e) :
      Sizable (.finite s m e hpos)

theorem Stored.sizable {u : Float.Model.UnpackedFloat} (h : Stored u)
    (hlarge : u.abs.lt tiny = false) : Sizable u := by
  cases h with
  | notANumber => exact .notANumber
  | infinity s => exact .infinity s
  | zero s => exact absurd hlarge (by cases s <;> decide)
  | @finite s m e hpos hlt hle hge hfull =>
    have hnot := finite_lt_iff.not.mp (Bool.eq_false_iff.mp hlarge)
    have hbits : 52 ≤ m.log2 := (Nat.le_log2 hpos.ne').mpr (by omega)
    exact .finite s hpos (by omega)

/-- Nothing sizable is divided down to zero by a finite number. -/
theorem Sizable.not_isZero_div {u v : Float.Model.UnpackedFloat} (hu : Sizable u)
    (hv : Stored v) (hfinite : v.isFinite = true) :
    ¬ IsZero (unpack .binary64 (pack .binary64 (Float.Model.UnpackedFloat.div .binary64 u v))) := by
  have hnan : ¬ IsZero (unpack .binary64 (pack .binary64 .notANumber)) := id
  have hinfinity : ∀ s, ¬ IsZero (unpack .binary64 (pack .binary64 (.infinity s))) := by
    rintro (_ | _) <;> exact id
  cases hv with
  | notANumber => exact absurd hfinite Bool.noConfusion
  | infinity t => exact absurd hfinite Bool.noConfusion
  | zero t =>
    cases hu with
    | notANumber => exact hnan
    | infinity s => exact hinfinity (s / t)
    | finite s => exact hinfinity (s / t)
  | finite t hpos hlt hle hge =>
    cases hu with
    | notANumber => exact hnan
    | infinity s => exact hinfinity (s / t)
    | finite s hpos' hlarge =>
      have hbits := (Nat.log2_lt hpos.ne').mpr hlt
      exact Double.not_isZero_div s t hpos' hpos (by omega)

/-! ## Values that are kept -/

theorem unpack_abs (x : Float) : x.abs.toModel.unpack = x.toModel.unpack.abs :=
  unpack_pack (stored x).abs

theorem isTiny_eq (x : Float) : isTiny x = x.toModel.unpack.abs.lt tiny := by
  have htiny : isTiny x = x.abs.toModel.unpack.lt (1e-14 : Float).toModel.unpack := by
    show decide (decide (_ = true) = true) = _
    rw [Bool.decide_eq_true, Bool.decide_eq_true]
    rfl
  rw [htiny, unpack_abs]
  rfl

/-- The quotient of a value that is not tiny by one that is finite differs from zero. -/
theorem div_beq_zero {x d : Float} (hx : isTiny x = false) (hd : isFinite d = true) :
    (x / d == 0) = false := by
  rw [← Bool.not_eq_true, beq_zero_iff]
  exact ((stored x).sizable ((isTiny_eq x).symm.trans hx)).not_isZero_div (stored d) hd

theorem tiny_le_abs {u : Float.Model.UnpackedFloat} (hnan : u.isNaN = false)
    (h : u.abs.lt tiny = false) : tiny.le u.abs = true := by
  rcases u with s | _ | s | ⟨s, m, e, hpos⟩
  · rfl
  · exact absurd hnan Bool.noConfusion
  · exact absurd h (by cases s <;> decide)
  · have hnot := finite_lt_iff.not.mp (Bool.eq_false_iff.mp h)
    exact finite_le_iff.mpr (by omega)

/-- A value that is not tiny has the least magnitude of an entry unless it is not a number. -/
theorem le_abs_of_isTiny {x : Float} (hx : isTiny x = false) (hnan : isNaN x = false) :
    1e-14 ≤ x.abs := by
  have hle : (1e-14 : Float).toModel.unpack.le x.abs.toModel.unpack = true := by
    rw [unpack_abs]
    exact tiny_le_abs hnan ((isTiny_eq x).symm.trans hx)
  show decide (_ = true) = true
  exact decide_eq_true hle

end Double

instance : LawfulScalar Float where
  zero_beq_zero := by decide +kernel
  cancelled_beq_zero := by decide +kernel
  vanished_beq_zero := by decide +kernel
  isTiny_of_beq_zero := by
    intro x hx
    have hzero := (Double.beq_zero_iff x).mp hx
    rw [Double.isTiny_eq]
    revert hzero
    rcases x.toModel.unpack with s | _ | s | ⟨s, m, e, hpos⟩
    · exact False.elim
    · exact False.elim
    · exact fun _ => rfl
    · exact False.elim
  div_one_beq_zero h := Double.div_beq_zero h (by decide +kernel)

end DualSimplex
