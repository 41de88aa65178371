import Mathlib
import DualSimplex.Proofs.Double.Order

/-!
# Rounding of doubles

All doubles are multiples of the least one, and so are their sums.  A number of units of
that size is rounded to one of the two doubles next to it, and to itself if it is a
double.  So rounding does not pass any double, and a sum is on the same side of a double as the
number that it is rounded from.
-/

namespace DualSimplex
namespace Double

open Float.Model (Format totalExponent)
open Float.Model.UnpackedFloat

/-- A finite number as a multiple of the least double. -/
def units : Float.Model.UnpackedFloat → Int
  | .finite s m e _ => s.apply (m * 2 ^ (e + 1074).toNat : Nat)
  | _ => 0

theorem units_neg (u : Float.Model.UnpackedFloat) : units u.neg = -units u := by
  cases u with
  | notANumber => rfl
  | infinity s => rfl
  | zero s => rfl
  | finite s m e h => exact apply_neg s _

/-- A place that is not further on belongs to a number that is not larger.  The mantissa may
have carried into one more bit. -/
theorem scaled_le {k k' m m' : Nat} (hm : m ≤ 2 ^ 53) (hm' : m' ≤ 2 ^ 53)
    (hfull : 2 ^ 52 ≤ m ∨ k = 0) (hfull' : 2 ^ 52 ≤ m' ∨ k' = 0)
    (h : k * 2 ^ 52 + m ≤ k' * 2 ^ 52 + m') : m * 2 ^ k ≤ m' * 2 ^ k' := by
  rcases lt_trichotomy k k' with hk | rfl | hk
  · obtain ⟨d, rfl⟩ : ∃ d, k' = k + 1 + d := ⟨k' - (k + 1), by omega⟩
    calc m * 2 ^ k ≤ 2 ^ 53 * 2 ^ k := Nat.mul_le_mul_right _ hm
      _ = 2 ^ 52 * 2 ^ (k + 1) := by ring
      _ ≤ m' * 2 ^ (k + 1 + d) :=
        Nat.mul_le_mul (by omega) (Nat.pow_le_pow_right Nat.two_pos (by omega))
  · exact Nat.mul_le_mul_right _ (by omega)
  · -- Only a mantissa that has carried can be at the place of one with a larger exponent.
    obtain ⟨rfl, rfl, rfl⟩ : m = 2 ^ 52 ∧ m' = 2 ^ 53 ∧ k = k' + 1 := by omega
    exact le_of_eq (by ring)

/-! ## From the mantissa to the place -/

theorem log2_mul_two_pow {m : Nat} (hm : 0 < m) (k : Nat) : (m * 2 ^ k).log2 = m.log2 + k := by
  refine (Nat.log2_eq_iff (by positivity)).mpr ⟨?_, ?_⟩
  · rw [Nat.pow_add]
    exact Nat.mul_le_mul_right _ (Nat.log2_self_le hm.ne')
  · rw [show m.log2 + k + 1 = m.log2 + 1 + k by omega, Nat.pow_add]
    exact Nat.mul_lt_mul_of_pos_right Nat.lt_log2_self (Nat.two_pow_pos k)

/-- Shifting off zeros alone loses nothing. -/
theorem shiftRight_exact (m k : Nat) :
    ExtendedMantissa.ofMantissaAndAccuracy (m * 2 ^ k) .exact >>> k =
      ExtendedMantissa.ofMantissaAndAccuracy m .exact := by
  induction k generalizing m with
  | zero => rw [Nat.pow_zero, Nat.mul_one]; rfl
  | succ k ih =>
    show ExtendedMantissa.shiftRightOne
      (ExtendedMantissa.ofMantissaAndAccuracy (m * 2 ^ (k + 1)) .exact >>> k) = _
    rw [Nat.pow_succ', ← Nat.mul_assoc, ih (m * 2)]
    simp [ExtendedMantissa.shiftRightOne, ExtendedMantissa.ofMantissaAndAccuracy]

theorem roundedMantissa_le (x : ExtendedMantissa) : x.roundedMantissa ≤ x.mantissa + 1 := by
  obtain ⟨m, round, sticky⟩ := x
  show Accuracy.roundToNearestEven m _ ≤ m + 1
  cases round <;> cases sticky <;>
    simp only [ExtendedMantissa.accuracy, Accuracy.roundToNearestEven] <;> omega

/-- A finite number whose mantissa fills the format is at its place or is infinite. -/
theorem place_kept {m : Nat} {e : Int} (hpos : 0 < m) (hlt : m < 2 ^ 53) (hle : -1074 ≤ e)
    (hfull : 2 ^ 52 ≤ m ∨ e = -1074) :
    (kept (.finite .positive m e hpos)).isNaN = false ∧
      place (kept (.finite .positive m e hpos)) = min ((e + 1074) * 2 ^ 52 + m) lastPlace := by
  by_cases hge : e ≤ 971
  · rw [(Stored.finite .positive hpos hlt hle hge hfull).kept_eq]
    refine ⟨rfl, ?_⟩
    simp only [place, Sign.apply, lastPlace]
    omega
  · rw [kept, pack_finite .positive hpos hlt hle, if_pos (by omega)]
    refine ⟨rfl, ?_⟩
    show lastPlace = _
    simp only [lastPlace]
    omega

/-- The exponent to which a number is rounded. -/
def roundingExponent (m : Nat) (e : Int) : Int :=
  max (m.log2 + e - 52) (-1074)

theorem mantissa_shift_le {m : Nat} {e : Int} (hpos : 0 < m) (hle : -1074 ≤ e)
    (hshift : e ≤ roundingExponent m e) {b : Nat} (hb : e + b = roundingExponent m e) :
    m / 2 ^ b < 2 ^ 53 ∧ (2 ^ 52 ≤ m / 2 ^ b ∨ roundingExponent m e = -1074) := by
  unfold roundingExponent at *
  have hquotient : 0 < m / 2 ^ b :=
    Nat.div_pos ((Nat.le_log2 hpos.ne').mp (by omega)) (by positivity)
  have hlog := log2_div_two_pow m b
  constructor
  · exact (Nat.log2_lt hquotient.ne').mp (by omega)
  · rw [← Nat.le_log2 hquotient.ne']
    omega

/-- A mantissa that has carried is shifted once more, which leaves it at its place. -/
theorem shift_carried {r : Nat} {e : Int} (hpos : 0 < r) (hr : r ≤ 2 ^ 53) (hle : -1074 ≤ e)
    (hfull : 2 ^ 52 ≤ r ∨ e = -1074) :
    let s := shiftToTargetExponent .binary64 r e .exact
    0 < s.1.mantissa ∧ s.1.mantissa < 2 ^ 53 ∧ -1074 ≤ s.2 ∧
      (2 ^ 52 ≤ s.1.mantissa ∨ s.2 = -1074) ∧
      (s.2 + 1074) * 2 ^ 52 + s.1.mantissa = (e + 1074) * 2 ^ 52 + r := by
  have hexponent : (shiftToTargetExponent .binary64 r e .exact).2 =
      e + ((Format.binary64.targetExponent (totalExponent r e) - e).toNat : Int) := rfl
  intro s
  rw [hexponent, mantissa_shiftToTargetExponent, targetExponent_binary64]
  rcases Nat.lt_or_eq_of_le hr with hlt | rfl
  · have hlog := (Nat.log2_lt hpos.ne').mpr hlt
    have hshift : (max ((r.log2 : Int) + e - 52) (-1074) - e).toNat = 0 := by omega
    rw [hshift, Nat.pow_zero, Nat.div_one]
    omega
  · have hshift : (max (((2 ^ 53 : Nat).log2 : Int) + e - 52) (-1074) - e).toNat = 1 := by
      rw [Nat.log2_two_pow]
      omega
    rw [hshift]
    omega

/-- The mantissa `r` is one of the two next to `n` units at the exponent `k`.  It is the exact
one if there is one. -/
structure Adjacent (n k r : Nat) : Prop where
  le : n / 2 ^ k ≤ r
  ge : r ≤ n / 2 ^ k + 1
  eq : 2 ^ k ∣ n → r = n / 2 ^ k
  lt : n / 2 ^ k < 2 ^ 53
  full : 2 ^ 52 ≤ n / 2 ^ k ∨ k = 0

theorem Adjacent.scale {n k r : Nat} (h : Adjacent n k r) {d : Nat}
    (hfull : 2 ^ 52 ≤ n / 2 ^ k ∨ k + d = 0) : Adjacent (n * 2 ^ d) (k + d) r := by
  have hdiv : n * 2 ^ d / 2 ^ (k + d) = n / 2 ^ k := by
    rw [Nat.pow_add]
    exact Nat.mul_div_mul_right _ _ (Nat.two_pow_pos d)
  refine ⟨hdiv ▸ h.le, hdiv ▸ h.ge, fun hdvd => ?_, hdiv ▸ h.lt, hdiv ▸ hfull⟩
  rw [Nat.pow_add, Nat.mul_dvd_mul_iff_right (Nat.two_pow_pos d)] at hdvd
  exact hdiv ▸ h.eq hdvd

/-- A number is rounded to a place next to it. -/
theorem place_roundWithAccuracy {m : Nat} {e : Int} (hpos : 0 < m) (hle : -1074 ≤ e)
    {b : Nat} (hb : e + b = roundingExponent m e) :
    ∃ r, Adjacent (m * 2 ^ (e + 1074).toNat) (b + (e + 1074).toNat) r ∧
      (kept (roundWithAccuracy .binary64 .positive m e .exact)).isNaN = false ∧
      place (kept (roundWithAccuracy .binary64 .positive m e .exact)) =
        min ((e + b + 1074) * 2 ^ 52 + r) lastPlace := by
  obtain ⟨hlt, hfull⟩ := mantissa_shift_le hpos hle (by omega) hb
  have hfirst : shiftToTargetExponent .binary64 m e .exact =
      (ExtendedMantissa.ofMantissaAndAccuracy m .exact >>> b, e + b) := by
    have hshift : (Format.binary64.targetExponent (totalExponent m e) - e).toNat = b := by
      rw [targetExponent_binary64]
      unfold roundingExponent at hb
      omega
    rw [shiftToTargetExponent, shiftToExponent, hshift]
  generalize hx : ExtendedMantissa.ofMantissaAndAccuracy m .exact >>> b = x at hfirst
  have hmantissa : x.mantissa = m / 2 ^ b := by
    rw [← hx, mantissa_shiftRight]
    rfl
  have hlower := mantissa_le_roundedMantissa x
  have hupper := roundedMantissa_le x
  rw [hmantissa] at hlower hupper
  have hexact : 2 ^ b ∣ m → x.roundedMantissa = m / 2 ^ b := by
    rintro ⟨q, rfl⟩
    rw [Nat.mul_comm, shiftRight_exact] at hx
    rw [Nat.mul_div_cancel_left q (Nat.two_pow_pos b), ← hx]
    rfl
  have hround : 0 < x.roundedMantissa := by
    refine lt_of_lt_of_le (Nat.div_pos ((Nat.le_log2 hpos.ne').mp ?_) (by positivity)) hlower
    unfold roundingExponent at hb
    omega
  refine ⟨x.roundedMantissa, ?_, ?_⟩
  · exact Adjacent.scale ⟨hlower, hupper, hexact, hlt, hfull.imp_right (by omega)⟩
      (hfull.imp_right (by omega))
  · obtain ⟨hpos', hlt', hle', hfull', hplace⟩ :=
      @shift_carried x.roundedMantissa (e + b) hround (by omega) (by omega) (by omega)
    have heq : roundWithAccuracy .binary64 .positive m e .exact = .finite .positive _
        (shiftToTargetExponent .binary64 x.roundedMantissa (e + b) .exact).2 hpos' := by
      rw [roundWithAccuracy, hfirst]
      exact dif_neg hpos'.ne'
    rw [heq, ← hplace]
    exact place_kept hpos' hlt' hle' hfull'

/-- So is a number whose mantissa has to be extended first. -/
theorem place_round {m : Nat} {e : Int} (hpos : 0 < m) (hle : -1074 ≤ e) :
    ∃ k r : Nat, Adjacent (m * 2 ^ (e + 1074).toNat) k r ∧
      (kept (Float.Model.UnpackedFloat.round .binary64 .positive m e)).isNaN = false ∧
      place (kept (Float.Model.UnpackedFloat.round .binary64 .positive m e)) =
        min (k * 2 ^ 52 + r : Int) lastPlace := by
  generalize ha : (e - roundingExponent m e).toNat = a
  have hround : Float.Model.UnpackedFloat.round .binary64 .positive m e =
      roundWithAccuracy .binary64 .positive (m * 2 ^ a) (e - a) .exact := by
    have hshift : (e - Format.binary64.targetExponent (totalExponent m e)).toNat = a := by
      rw [targetExponent_binary64]
      exact ha
    simp only [Float.Model.UnpackedFloat.round, decreaseExponent, hshift, Nat.shiftLeft_eq]
  have hexponent : roundingExponent (m * 2 ^ a) (e - a) = roundingExponent m e := by
    rw [roundingExponent, roundingExponent, log2_mul_two_pow hpos]
    omega
  have hlower : -1074 ≤ roundingExponent m e := le_max_right _ _
  obtain ⟨b, hb⟩ : ∃ b : Nat, e - a + b = roundingExponent m e :=
    ⟨(roundingExponent m e - (e - a)).toNat, by omega⟩
  have hunits : m * 2 ^ a * 2 ^ (e - a + 1074).toNat = m * 2 ^ (e + 1074).toNat := by
    rw [Nat.mul_assoc, ← Nat.pow_add, show a + (e - a + 1074).toNat = (e + 1074).toNat by omega]
  obtain ⟨r, hadjacent, hnan, hplace⟩ := place_roundWithAccuracy
    (Nat.mul_pos hpos (Nat.two_pow_pos a)) (by omega) (hb.trans hexponent.symm)
  rw [hunits] at hadjacent
  refine ⟨_, r, hadjacent, hround ▸ hnan, ?_⟩
  rw [hround, hplace]
  congr 2
  omega

/-! ## What rounding does not pass -/

theorem scaled_lt {k k' m m' : Nat} (hm : m < 2 ^ 53) (hm' : m' ≤ 2 ^ 53)
    (hfull : 2 ^ 52 ≤ m ∨ k = 0) (hfull' : 2 ^ 52 ≤ m' ∨ k' = 0)
    (h : k * 2 ^ 52 + m < k' * 2 ^ 52 + m') : m * 2 ^ k < m' * 2 ^ k' :=
  calc m * 2 ^ k < (m + 1) * 2 ^ k := Nat.mul_lt_mul_of_pos_right m.lt_succ_self (by positivity)
    _ ≤ m' * 2 ^ k' := scaled_le hm hm' (by omega) hfull' (by omega)

/-- A finite number without its sign. -/
structure Magnitude (k m : Nat) : Prop where
  pos : 0 < m
  lt : m < 2 ^ 53
  full : 2 ^ 52 ≤ m ∨ k = 0

theorem Magnitude.units_pos {k m : Nat} (h : Magnitude k m) : (0 : Int) < (m * 2 ^ k : Nat) :=
  Int.natCast_pos.mpr (Nat.mul_pos h.pos (Nat.two_pow_pos k))

theorem Magnitude.units_lt {k k' m m' : Nat} (h : Magnitude k m) (h' : Magnitude k' m')
    (hplace : k * 2 ^ 52 + m < k' * 2 ^ 52 + m') :
    ((m * 2 ^ k : Nat) : Int) < (m' * 2 ^ k' : Nat) :=
  Int.ofNat_lt.mpr (scaled_lt h.lt h'.lt.le h.full h'.full hplace)

theorem Stored.magnitude {u : Float.Model.UnpackedFloat} (h : Stored u)
    (hfinite : u.isFinite = true) : place u = 0 ∧ units u = 0 ∨ ∃ k m, Magnitude k m ∧
      (place u = (k * 2 ^ 52 + m : Nat) ∧ units u = (m * 2 ^ k : Nat) ∨
        place u = -(k * 2 ^ 52 + m : Nat) ∧ units u = -(m * 2 ^ k : Nat)) := by
  cases h with
  | notANumber => exact absurd hfinite Bool.noConfusion
  | infinity s => exact absurd hfinite Bool.noConfusion
  | zero s => exact .inl ⟨rfl, rfl⟩
  | @finite s m e hpos hlt hle hge hfull =>
    have hplace : (e + 1074) * 2 ^ 52 + m = ((e + 1074).toNat * 2 ^ 52 + m : Nat) := by omega
    refine .inr ⟨(e + 1074).toNat, m, ⟨hpos, hlt, by omega⟩, ?_⟩
    cases s with
    | negative => exact .inr ⟨congrArg Neg.neg hplace, rfl⟩
    | positive => exact .inl ⟨hplace, rfl⟩

/-- A number further on is larger. -/
theorem Stored.units_lt {f g : Float.Model.UnpackedFloat} (hf : Stored f) (hg : Stored g)
    (hfinite : f.isFinite = true) (hfinite' : g.isFinite = true) (h : place f < place g) :
    units f < units g := by
  rcases hf.magnitude hfinite with ⟨hp, hu⟩ | ⟨k, m, hm, ⟨hp, hu⟩ | ⟨hp, hu⟩⟩ <;>
    rcases hg.magnitude hfinite' with ⟨hp', hu'⟩ | ⟨k', m', hm', ⟨hp', hu'⟩ | ⟨hp', hu'⟩⟩ <;>
    rw [hp, hp'] at h <;> rw [hu, hu']
  case inl.inr.inl => exact hm'.units_pos
  case inr.inl.inr.inl => exact hm.units_lt hm' (by omega)
  case inr.inr.inl => exact Int.neg_neg_of_pos hm.units_pos
  case inr.inr.inr.inl => exact (Int.neg_neg_of_pos hm.units_pos).trans hm'.units_pos
  case inr.inr.inr.inr => exact Int.neg_lt_neg (hm'.units_lt hm (by omega))
  all_goals exact absurd h (by omega)

/-- A double that `n` units can be rounded to: no other is between the two. -/
structure Rounds (n : Int) (u : Float.Model.UnpackedFloat) : Prop where
  isNaN : u.isNaN = false
  le_place : ∀ {f}, Stored f → f.isFinite = true → units f ≤ n → place f ≤ place u
  place_le : ∀ {f}, Stored f → f.isFinite = true → n ≤ units f → place u ≤ place f

/-- A double is rounded to itself. -/
theorem Stored.rounds {u : Float.Model.UnpackedFloat} (h : Stored u) (hfinite : u.isFinite = true) :
    Rounds (units u) u where
  isNaN := by cases u <;> first | rfl | exact absurd hfinite Bool.noConfusion
  le_place hf hfinite' hle :=
    not_lt.mp fun hlt => not_lt.mpr hle (h.units_lt hf hfinite hfinite' hlt)
  place_le hf hfinite' hle :=
    not_lt.mp fun hlt => not_lt.mpr hle (hf.units_lt h hfinite' hfinite hlt)

theorem Rounds.neg {n : Int} {u : Float.Model.UnpackedFloat} (h : Rounds n u) :
    Rounds (-n) u.neg where
  isNaN := (isNaN_neg u).trans h.isNaN
  le_place {f} hf hfinite hle := by
    have := h.place_le hf.neg ((isFinite_neg f).trans hfinite) (by rw [units_neg]; omega)
    rw [place_neg] at this ⊢
    omega
  place_le {f} hf hfinite hle := by
    have := h.le_place hf.neg ((isFinite_neg f).trans hfinite) (by rw [units_neg]; omega)
    rw [place_neg] at this ⊢
    omega

/-- No double is between a number and those next to it. -/
theorem Adjacent.rounds {n k r : Nat} (h : Adjacent n k r) (hpos : 0 < n)
    {u : Float.Model.UnpackedFloat} (hnan : u.isNaN = false)
    (hplace : place u = min (k * 2 ^ 52 + r : Int) lastPlace) : Rounds n u where
  isNaN := hnan
  le_place {f} hf hfinite hle := by
    by_contra hlt
    have hlast := (hf.place_bounds.2.2 hfinite).2
    have hlower := h.le
    rcases hf.magnitude hfinite with ⟨hp, hu⟩ | ⟨k', m', hm, ⟨hp, hu⟩ | ⟨hp, hu⟩⟩
    case inr.inl =>
      have hscaled : (n / 2 ^ k + 1) * 2 ^ k ≤ m' * 2 ^ k' :=
        scaled_le h.lt hm.lt.le (h.full.imp_left Nat.le_succ_of_le) hm.full (by omega)
      have hnext : n < 2 ^ k * (n / 2 ^ k + 1) := Nat.lt_mul_div_succ n (Nat.two_pow_pos k)
      rw [Nat.mul_comm] at hnext
      omega
    all_goals omega
  place_le {f} hf hfinite hle := by
    by_contra hlt
    have hupper := h.ge
    rcases hf.magnitude hfinite with ⟨hp, hu⟩ | ⟨k', m', hm, ⟨hp, hu⟩ | ⟨hp, hu⟩⟩
    case inr.inl =>
      have hdiv : n / 2 ^ k * 2 ^ k ≤ n := Nat.div_mul_le_self n (2 ^ k)
      by_cases hdvd : 2 ^ k ∣ n
      · have hexact := h.eq hdvd
        have hscaled : m' * 2 ^ k' < n / 2 ^ k * 2 ^ k :=
          scaled_lt hm.lt h.lt.le hm.full h.full (by omega)
        omega
      · have hscaled : m' * 2 ^ k' ≤ n / 2 ^ k * 2 ^ k :=
          scaled_le hm.lt.le h.lt.le hm.full h.full (by omega)
        have hne : n / 2 ^ k * 2 ^ k ≠ n := fun heq => hdvd (Dvd.intro_left _ heq)
        omega
    case inr.inr => have := hm.units_pos; omega
    all_goals omega

/-! ## Sums -/

theorem Stored.rounds_kept {u : Float.Model.UnpackedFloat} (h : Stored u)
    (hfinite : u.isFinite = true) : Rounds (units u) (kept u) :=
  h.kept_eq.symm ▸ h.rounds hfinite

theorem rounds_round {m : Nat} {e : Int} (hpos : 0 < m) (hle : -1074 ≤ e) :
    Rounds (m * 2 ^ (e + 1074).toNat : Nat)
      (kept (Float.Model.UnpackedFloat.round .binary64 .positive m e)) := by
  obtain ⟨k, r, hadjacent, hnan, hplace⟩ := place_round hpos hle
  exact hadjacent.rounds (Nat.mul_pos hpos (Nat.two_pow_pos _)) hnan hplace

theorem rounds_normalize (m : Int) {e : Int} (hle : -1074 ≤ e) (t : Sign) :
    Rounds (m * 2 ^ (e + 1074).toNat)
      (kept (Float.Model.UnpackedFloat.normalize .binary64 m e t)) := by
  unfold Float.Model.UnpackedFloat.normalize
  rcases lt_trichotomy m 0 with hm | rfl | hm
  · rw [compare_lt_iff_lt.mpr hm]
    have hround := rounds_round (m := (-m).toNat) (by omega) hle
    rw [Nat.cast_mul, Int.toNat_of_nonneg (by omega)] at hround
    have hneg : Float.Model.UnpackedFloat.round .binary64 .negative (-m).toNat e =
        (Float.Model.UnpackedFloat.round .binary64 .positive (-m).toNat e).neg :=
      roundWithAccuracy_neg .positive _ _ _
    have := hround.neg
    simp only [hneg, kept_neg]
    convert this using 1
    push_cast
    ring
  · rw [compare_eq_iff_eq.mpr rfl, Int.zero_mul]
    exact (Stored.zero t).rounds_kept rfl
  · rw [compare_gt_iff_gt.mpr hm]
    have hround := rounds_round (m := m.toNat) (by omega) hle
    rw [Nat.cast_mul, Int.toNat_of_nonneg hm.le] at hround
    exact_mod_cast hround

/-- A mantissa is extended by zeros for a smaller exponent. -/
theorem units_decreaseExponent (s : Sign) (m : Nat) {e t : Int} (hle : -1074 ≤ t) (hte : t ≤ e) :
    s.apply (decreaseExponent m e t).1 * 2 ^ (t + 1074).toNat =
      s.apply (m * 2 ^ (e + 1074).toNat : Nat) := by
  have hshift : (e - t).toNat + (t + 1074).toNat = (e + 1074).toNat := by omega
  have hunits : (((decreaseExponent m e t).1 : Nat) : Int) * 2 ^ (t + 1074).toNat =
      (m * 2 ^ (e + 1074).toNat : Nat) := by
    rw [decreaseExponent, Nat.shiftLeft_eq, ← hshift, Nat.pow_add, ← Nat.mul_assoc]
    push_cast
    rfl
  cases s
  · exact (Int.neg_mul ..).trans (congrArg Neg.neg hunits)
  · exact hunits

/-- A sum of finite numbers is rounded from the sum of their units. -/
theorem rounds_add {u v : Float.Model.UnpackedFloat} (hu : Stored u) (hv : Stored v)
    (hfinite : u.isFinite = true) (hfinite' : v.isFinite = true) :
    Rounds (units u + units v) (kept (Float.Model.UnpackedFloat.add .binary64 u v)) := by
  cases hu with
  | notANumber => exact absurd hfinite Bool.noConfusion
  | infinity s => exact absurd hfinite Bool.noConfusion
  | zero s =>
    cases hv with
    | notANumber => exact absurd hfinite' Bool.noConfusion
    | infinity t => exact absurd hfinite' Bool.noConfusion
    | zero t =>
      simp only [Float.Model.UnpackedFloat.add]
      split <;> exact (Stored.zero _).rounds_kept rfl
    | finite t hpos hlt hle hge hfull =>
      rw [show units (.zero s) = 0 from rfl, Int.zero_add]
      exact (Stored.finite t hpos hlt hle hge hfull).rounds_kept rfl
  | @finite s m e hpos hlt hle hge hfull =>
    cases hv with
    | notANumber => exact absurd hfinite' Bool.noConfusion
    | infinity t => exact absurd hfinite' Bool.noConfusion
    | zero t =>
      rw [show units (.zero t) = 0 from rfl, Int.add_zero]
      exact (Stored.finite s hpos hlt hle hge hfull).rounds_kept rfl
    | @finite t m' e' hpos' hlt' hle' =>
      have hmin : -1074 ≤ min e e' := le_min hle hle'
      rw [units, units, ← units_decreaseExponent s m hmin (min_le_left e e'),
        ← units_decreaseExponent t m' hmin (min_le_right e e'), ← Int.add_mul]
      exact rounds_normalize _ hmin _

end Double
end DualSimplex
