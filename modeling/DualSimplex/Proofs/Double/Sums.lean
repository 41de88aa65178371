import Mathlib
import DualSimplex.Proofs.Double.Rounding

/-!
# Sums of doubles

A sum is not on the wrong side of a summand, because rounding does not pass that, and a
difference is not rounded to zero, because it is at least the least double.  Infinities
remain unless they cancel.
-/

namespace DualSimplex
namespace Double

open Float.Model (Format)
open Float.Model.UnpackedFloat

theorem add_comm_unpacked (u v : Float.Model.UnpackedFloat) :
    Float.Model.UnpackedFloat.add .binary64 u v = Float.Model.UnpackedFloat.add .binary64 v u := by
  rcases u with s | _ | s | ⟨s, m, e, h⟩ <;> rcases v with t | _ | t | ⟨t, m', e', h'⟩
  case infinity.infinity => cases s <;> cases t <;> rfl
  case zero.zero => cases s <;> cases t <;> rfl
  case finite.finite =>
    simp only [Float.Model.UnpackedFloat.add]
    rw [Int.add_comm, Int.min_comm]
  all_goals rfl

/-- To subtract is to add the negative. -/
theorem sub_unpacked (u v : Float.Model.UnpackedFloat) :
    Float.Model.UnpackedFloat.sub .binary64 u v =
      Float.Model.UnpackedFloat.add .binary64 u v.neg := by
  rcases u with s | _ | s | ⟨s, m, e, h⟩ <;> rcases v with t | _ | t | ⟨t, m', e', h'⟩
  case finite.finite =>
    simp only [Float.Model.UnpackedFloat.sub, Float.Model.UnpackedFloat.add,
      Float.Model.UnpackedFloat.neg, apply_neg, Int.sub_eq_add_neg]
  all_goals rfl

/-- The sum of two numbers, as it is stored. -/
def sum (u v : Float.Model.UnpackedFloat) : Float.Model.UnpackedFloat :=
  kept (Float.Model.UnpackedFloat.add .binary64 u v)

theorem sum_comm (u v : Float.Model.UnpackedFloat) : sum u v = sum v u :=
  congrArg kept (add_comm_unpacked u v)

theorem sum_notANumber (v : Float.Model.UnpackedFloat) : sum .notANumber v = .notANumber := by
  cases v <;> exact Stored.notANumber.kept_eq

theorem sum_infinity (s : Sign) {v : Float.Model.UnpackedFloat} (h : v.isFinite = true) :
    sum (.infinity s) v = .infinity s := by
  cases v with
  | notANumber => exact absurd h Bool.noConfusion
  | infinity t => exact absurd h Bool.noConfusion
  | zero t => exact (Stored.infinity s).kept_eq
  | finite t m e hpos => exact (Stored.infinity s).kept_eq

/-- What is not finite remains when something finite is added. -/
theorem sum_of_isFinite_right {u v : Float.Model.UnpackedFloat} (h : u.isFinite = false)
    (hfinite : v.isFinite = true) : sum u v = u := by
  cases u with
  | notANumber => exact sum_notANumber v
  | infinity s => exact sum_infinity s hfinite
  | zero s => exact absurd h Bool.noConfusion
  | finite s m e hpos => exact absurd h Bool.noConfusion

/-- What is not finite remains unless the sum is not a number. -/
theorem sum_of_not_isFinite {u v : Float.Model.UnpackedFloat} (hu : u.isFinite = false)
    (hnan : (sum u v).isNaN = false) : sum u v = u := by
  cases u with
  | notANumber => exact sum_notANumber v
  | infinity s =>
    cases v with
    | notANumber =>
      rw [sum_comm, sum_notANumber] at hnan
      exact absurd hnan Bool.noConfusion
    | infinity t =>
      cases s <;> cases t
      · rfl
      · exact absurd hnan (by decide)
      · exact absurd hnan (by decide)
      · rfl
    | zero t => exact sum_infinity s rfl
    | finite t m e hpos => exact sum_infinity s rfl
  | zero s => exact absurd hu Bool.noConfusion
  | finite s m e hpos => exact absurd hu Bool.noConfusion

/-- Zero leaves what it is added to, or both are zeros. -/
theorem sum_zero (s : Sign) {v : Float.Model.UnpackedFloat} (hv : Stored v) :
    sum (.zero s) v = v ∨ IsZero v ∧ IsZero (sum (.zero s) v) := by
  have hkept := hv.kept_eq
  cases v with
  | zero t => exact .inr ⟨trivial, by cases s <;> cases t <;> trivial⟩
  | notANumber => exact .inl hkept
  | infinity t => exact .inl hkept
  | finite t m e hpos => exact .inl hkept

theorem sum_neg_neg (u v : Float.Model.UnpackedFloat) :
    sum u.neg v.neg = (sum u v).neg ∨ IsZero (sum u v) ∧ IsZero (sum u.neg v.neg) := by
  have hzero : ∀ {u}, IsZero u → IsZero (kept u) := by
    intro u hu
    cases u with
    | zero s => rw [(Stored.zero s).kept_eq]; trivial
    | notANumber => exact hu.elim
    | infinity s => exact hu.elim
    | finite s m e hpos => exact hu.elim
  rcases add_neg_neg u v with hneg | hzeros
  · exact .inl ((congrArg kept hneg).trans (kept_neg _))
  · exact .inr ⟨hzero hzeros.1, hzero hzeros.2⟩

/-! ## Order -/

/-- No sum is below the number to which something positive has been added. -/
theorem Stored.place_le_sum {u v : Float.Model.UnpackedFloat} (hu : Stored u) (hv : Stored v)
    (hpos : 0 < place v) (hnan : (sum u v).isNaN = false) :
    u.isNaN = false ∧ place u ≤ place (sum u v) := by
  cases hfinite : u.isFinite with
  | true =>
    refine ⟨(hu.rounds hfinite).isNaN, ?_⟩
    cases hfinite' : v.isFinite with
    | true =>
      have hunits : 0 < units v := (Stored.zero .positive).units_lt hv rfl hfinite' hpos
      exact (rounds_add hu hv hfinite hfinite').le_place hu hfinite (by omega)
    | false =>
      rw [sum_comm, sum_of_isFinite_right hfinite' hfinite] at hnan ⊢
      have hlast := place_of_not_isFinite hnan hfinite'
      have hbounds := hu.place_bounds
      unfold lastPlace at *
      omega
  | false =>
    have heq := sum_of_not_isFinite hfinite hnan
    exact ⟨heq ▸ hnan, le_of_eq (congrArg place heq).symm⟩

/-- A difference of numbers is at least the least double, so it is not rounded to zero. -/
theorem Stored.place_sum_neg {u v : Float.Model.UnpackedFloat} (hu : Stored u) (hv : Stored v)
    (hnan : u.isNaN = false) (hnan' : v.isNaN = false) (h : place u < place v) :
    (sum u v.neg).isNaN = false ∧ place (sum u v.neg) < 0 := by
  have hbounds := hu.place_bounds
  have hbounds' := hv.place_bounds
  have hneg : v.neg.isFinite = v.isFinite := isFinite_neg v
  cases hfinite : u.isFinite with
  | true =>
    cases hfinite' : v.isFinite with
    | true =>
      have hrounds := rounds_add hu hv.neg hfinite (hneg.trans hfinite')
      refine ⟨hrounds.isNaN, ?_⟩
      have hunits := hu.units_lt hv hfinite hfinite' h
      rw [units_neg] at hrounds
      have hle := hrounds.place_le (f := .finite .negative 1 (-1074) Nat.one_pos)
        (.finite _ _ (by decide) (by decide) (by decide) (.inr rfl)) rfl
        (show _ ≤ (-1 : Int) by omega)
      exact lt_of_le_of_lt hle (by decide)
    | false =>
      rw [sum_comm, sum_of_isFinite_right (hneg.trans hfinite') hfinite, isNaN_neg, place_neg]
      refine ⟨hnan', ?_⟩
      have hlast := place_of_not_isFinite hnan' hfinite'
      unfold lastPlace at *
      omega
  | false =>
    have hfirst : place u = -lastPlace := by
      have := place_of_not_isFinite hnan hfinite
      omega
    cases hfinite' : v.isFinite with
    | true =>
      rw [sum_of_isFinite_right hfinite (hneg.trans hfinite'), hfirst]
      exact ⟨hnan, by decide⟩
    | false =>
      obtain ⟨s, rfl⟩ := exists_eq_infinity hnan hfinite
      obtain ⟨t, rfl⟩ := exists_eq_infinity hnan' hfinite'
      cases s <;> cases t
      · exact absurd h (by decide)
      · exact ⟨rfl, by decide⟩
      · exact absurd h (by decide)
      · exact absurd h (by decide)

/-! ## Finite numbers -/

/-- The largest double. -/
def largest : Float.Model.UnpackedFloat :=
  .finite .positive (2 ^ 53 - 1) 971 (by decide)

theorem stored_largest : Stored largest :=
  .finite _ _ (by decide) (by decide) (by decide) (.inl (by decide))

theorem place_largest : place largest = 2045 * 2 ^ 52 + (2 ^ 53 - 1) :=
  rfl

theorem Stored.eq_largest {u : Float.Model.UnpackedFloat} (h : Stored u)
    (hplace : place u = place largest) : u = largest := by
  cases h with
  | notANumber => exact absurd hplace (by decide)
  | infinity s => cases s <;> exact absurd hplace (by decide)
  | zero s => cases s <;> exact absurd hplace (by decide)
  | @finite s m e hpos hlt hle hge hfull =>
    rw [place_largest] at hplace
    cases s with
    | negative => simp only [place, Sign.apply] at hplace; omega
    | positive =>
      simp only [place, Sign.apply] at hplace
      exact finite_congr _ _ (by omega) (by omega)

/-- Adding a smaller power of two to a number below the one with a full mantissa does not lead
past that. -/
theorem Magnitude.add_two_pow_le {k m j l : Nat} (h : Magnitude k m) (hj : j < l)
    (hlt : k * 2 ^ 52 + m < l * 2 ^ 52 + (2 ^ 53 - 1)) :
    m * 2 ^ k + 2 ^ j ≤ (2 ^ 53 - 1) * 2 ^ l := by
  rcases Nat.le_total k j with hk | hk
  · have hmantissa : m * 2 ^ k ≤ (2 ^ 53 - 1) * 2 ^ j :=
      Nat.mul_le_mul (Nat.le_pred_of_lt h.lt) (Nat.pow_le_pow_right Nat.two_pos hk)
    calc m * 2 ^ k + 2 ^ j ≤ (2 ^ 53 - 1) * 2 ^ j + 2 ^ j := Nat.add_le_add_right hmantissa _
      _ = 2 ^ 52 * 2 ^ (j + 1) := by ring
      _ ≤ (2 ^ 53 - 1) * 2 ^ l :=
        Nat.mul_le_mul (by decide) (Nat.pow_le_pow_right Nat.two_pos hj)
  · calc m * 2 ^ k + 2 ^ j ≤ m * 2 ^ k + 2 ^ k :=
          Nat.add_le_add_left (Nat.pow_le_pow_right Nat.two_pos hk) _
      _ = (m + 1) * 2 ^ k := (Nat.succ_mul _ _).symm
      _ ≤ (2 ^ 53 - 1) * 2 ^ l := scaled_le h.lt (by decide)
        (h.full.imp_left Nat.le_succ_of_le) (.inl (by decide)) hlt

theorem units_one : units (1 : Float).toModel.unpack = (2 ^ 1074 : Nat) := by
  decide +kernel

theorem units_largest : units largest = ((2 ^ 53 - 1) * 2 ^ 2045 : Nat) := by
  decide +kernel

theorem Stored.units_add_one_le {u : Float.Model.UnpackedFloat} (h : Stored u)
    (hfinite : u.isFinite = true) (hlt : place u < place largest) :
    units (1 : Float).toModel.unpack + units u ≤ units largest := by
  rcases h.magnitude hfinite with ⟨hp, hu⟩ | ⟨k, m, hm, ⟨hp, hu⟩ | ⟨hp, hu⟩⟩
  case inr.inl =>
    rw [hp, place_largest] at hlt
    have hplace : k * 2 ^ 52 + m < 2045 * 2 ^ 52 + (2 ^ 53 - 1) := by omega
    rw [hu, units_one, units_largest, Int.add_comm]
    exact Int.ofNat_le.mpr (hm.add_two_pow_le (by decide) hplace)
  all_goals
    have hone : units (1 : Float).toModel.unpack < units largest :=
      (stored 1).units_lt stored_largest rfl rfl (by decide +kernel)
  case inl => omega
  case inr.inr => have := hm.units_pos; omega

/-- Adding one does not leave the finite numbers. -/
theorem Stored.isFinite_add_one {u : Float.Model.UnpackedFloat} (h : Stored u)
    (hfinite : u.isFinite = true) : (sum (1 : Float).toModel.unpack u).isFinite = true := by
  have hbounds := h.place_bounds.2.2 hfinite
  have hlargest := place_largest
  by_cases hplace : place u = place largest
  · rw [h.eq_largest hplace]
    decide +kernel
  · have hlt : place u < place largest := by
      unfold lastPlace at hbounds
      omega
    have hpos : 0 < units (1 : Float).toModel.unpack :=
      (Stored.zero .positive).units_lt (stored 1) rfl rfl (by decide +kernel)
    have hrounds := rounds_add (stored 1) h rfl hfinite
    have hlower := hrounds.le_place h hfinite (by omega)
    have hupper := hrounds.place_le stored_largest rfl (h.units_add_one_le hfinite hlt)
    by_contra hnot
    have hlast := place_of_not_isFinite hrounds.isNaN (Bool.eq_false_iff.mpr hnot)
    unfold lastPlace at *
    omega

theorem isNaN_packComponents (s : Sign) {e : BitVec 11} (he : e ≠ -1#11) (v : BitVec 52) :
    (unpack .binary64 (packComponents .binary64 s e v)).isNaN = false := by
  rw [unpack]
  simp only [unpackMantissa_packComponents, unpackExponent_packComponents]
  rw [if_neg he]
  split_ifs <;> rfl

/-- Packing makes nothing of a number that is none. -/
theorem isNaN_kept {u : Float.Model.UnpackedFloat} (h : u.isNaN = false) :
    (kept u).isNaN = false := by
  cases u with
  | notANumber => exact absurd h Bool.noConfusion
  | infinity s => rw [(Stored.infinity s).kept_eq]; rfl
  | zero s => rw [(Stored.zero s).kept_eq]; rfl
  | finite s m e hpos =>
    rw [kept, pack]
    generalize (e + Format.binary64.exponentBias +
      Format.binary64.mantissaBitsWithoutImplicit).toNat = k
    split
    · show (kept (.infinity s)).isNaN = false
      rw [(Stored.infinity s).kept_eq]
      rfl
    · rename_i hk
      have hk : k + 1 < 2048 := not_le.mp hk
      split
      · refine isNaN_packComponents s (fun heq => ?_) _
        have hcode : k % 2048 = 2047 := congrArg BitVec.toNat heq
        omega
      · exact isNaN_packComponents s (by decide) _

theorem isNaN_mul {u v : Float.Model.UnpackedFloat} (hu : u.isFinite = true)
    (hv : v.isFinite = true) : (Float.Model.UnpackedFloat.mul .binary64 u v).isNaN = false := by
  rcases u with s | _ | s | ⟨s, m, e, h⟩ <;> rcases v with t | _ | t | ⟨t, m', e', h'⟩
  case finite.finite =>
    simp only [Float.Model.UnpackedFloat.mul, roundWithAccuracy]
    split <;> rfl
  all_goals first | rfl | exact absurd hu Bool.noConfusion | exact absurd hv Bool.noConfusion

end Double
end DualSimplex
