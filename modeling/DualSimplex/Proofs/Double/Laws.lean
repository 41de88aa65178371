import Mathlib
import DualSimplex.Proofs.Double.Sums
import DualSimplex.Proofs.Senses

/-!
# The laws of doubles

Doubles are scalars in every sense that the solver relies on.  They are ordered by their
places.  A sum is not on the wrong side of a summand, because rounding does not pass that, and
a difference is not rounded to zero, because it is at least the least double.
-/

namespace DualSimplex

open Scalar

namespace Double

open Float.Model (Format)
open Float.Model.UnpackedFloat

/-! ## Order -/

/-- The place of a double in the order of all. -/
def rank (x : Float) : Int :=
  place x.toModel.unpack

theorem rank_neg (x : Float) : rank (-x) = -rank x := by
  rw [rank, unpack_neg, place_neg]
  rfl

theorem isNaN_neg_double (x : Float) : isNaN (-x) = isNaN x :=
  (congrArg Float.Model.UnpackedFloat.isNaN (unpack_neg x)).trans (isNaN_neg _)

theorem isFinite_neg_double (x : Float) : isFinite (-x) = isFinite x :=
  (congrArg Float.Model.UnpackedFloat.isFinite (unpack_neg x)).trans (isFinite_neg _)

theorem lt_iff {x y : Float} : x < y ↔ isNaN x = false ∧ isNaN y = false ∧ rank x < rank y :=
  decide_eq_true_iff.trans ((stored x).lt_iff (stored y))

theorem le_iff {x y : Float} : x ≤ y ↔ isNaN x = false ∧ isNaN y = false ∧ rank x ≤ rank y :=
  decide_eq_true_iff.trans ((stored x).le_iff (stored y))

theorem beq_iff {x y : Float} :
    (x == y) = true ↔ isNaN x = false ∧ isNaN y = false ∧ rank x = rank y :=
  (stored x).beq_iff (stored y)

theorem isNaN_of_isFinite {x : Float} (h : isFinite x = true) : isNaN x = false :=
  ((stored x).rounds h).isNaN

/-! ## Sums -/

theorem add_comm_double (x y : Float) : x + y = y + x :=
  eq_of_unpack (congrArg kept (add_comm_unpacked _ _))

theorem sub_eq_add_neg_double (x y : Float) : x - y = x + -y := by
  refine eq_of_unpack (congrArg kept ?_)
  rw [unpack_neg]
  exact sub_unpacked _ _

theorem unpack_add (x y : Float) :
    (x + y).toModel.unpack = sum x.toModel.unpack y.toModel.unpack :=
  rfl

/-! ## Differences -/

theorem le_add {x y : Float} (hy : 0 < y) (h : isNaN (x + y) = false) : x ≤ x + y := by
  obtain ⟨-, -, hpos⟩ := lt_iff.mp hy
  obtain ⟨hnan, hle⟩ := (stored x).place_le_sum (stored y) hpos h
  exact le_iff.mpr ⟨hnan, h, hle⟩

theorem negates_add_neg (x y : Float) : Negates (x + y) (-x + -y) := by
  have hsum : (-x + -y).toModel.unpack = sum x.toModel.unpack.neg y.toModel.unpack.neg := by
    rw [unpack_add, unpack_neg, unpack_neg]
  rcases sum_neg_neg x.toModel.unpack y.toModel.unpack with hneg | ⟨hzero, hzero'⟩
  · refine .inl (eq_of_unpack ?_)
    rw [hsum, hneg, unpack_neg (x + y), unpack_add]
  · rw [← unpack_add] at hzero
    rw [← hsum] at hzero'
    exact .inr (.inl ⟨(beq_zero_iff _).mpr hzero, (beq_zero_iff _).mpr hzero'⟩)

theorem negates_neg_mul (x y : Float) : Negates (x * y) (-x * y) := by
  refine .inl (eq_of_unpack ?_)
  rw [unpack_neg]
  show kept (Float.Model.UnpackedFloat.mul .binary64 (-x).toModel.unpack y.toModel.unpack) = _
  rw [unpack_neg, mul_neg_left]
  exact kept_neg _

/-- The number that is minus another has the opposite place. -/
theorem rank_of_negates {x y : Float} (h : Negates x y) :
    isNaN y = isNaN x ∧ rank y = -rank x := by
  rcases h with rfl | ⟨hx, hy⟩ | ⟨hx, hy⟩
  · exact ⟨isNaN_neg_double x, rank_neg x⟩
  · obtain ⟨hnan, hrank⟩ := (stored x).isZero_iff.mp ((beq_zero_iff x).mp hx)
    obtain ⟨hnan', hrank'⟩ := (stored y).isZero_iff.mp ((beq_zero_iff y).mp hy)
    refine ⟨hnan'.trans hnan.symm, ?_⟩
    rw [rank, rank, hrank, hrank']
    rfl
  · refine ⟨hy.trans hx.symm, ?_⟩
    rw [rank, rank, eq_notANumber hx, eq_notANumber hy]
    rfl

theorem sub_le {x y : Float} (hy : 0 < y) (h : isNaN (x - y) = false) : x - y ≤ x := by
  -- The difference is minus the sum of the mirror images of both numbers.
  have hmirror := rank_of_negates (negates_add_neg (-x) y)
  rw [neg_neg_double, ← sub_eq_add_neg_double] at hmirror
  obtain ⟨hnan, -, hle⟩ := le_iff.mp (le_add (x := -x) hy (hmirror.1.symm.trans h))
  rw [rank_neg] at hle
  exact le_iff.mpr ⟨h, (isNaN_neg_double x).symm.trans hnan, by omega⟩

theorem rank_sub {x y : Float} (h : x < y) : isNaN (x - y) = false ∧ rank (x - y) < 0 := by
  obtain ⟨hx, hy, hlt⟩ := lt_iff.mp h
  rw [sub_eq_add_neg_double, rank]
  show (x + -y).toModel.unpack.isNaN = false ∧ _
  rw [unpack_add, unpack_neg]
  exact (stored x).place_sum_neg (stored y) hx hy hlt

theorem sub_lt_zero {x y : Float} (h : x < y) : x - y < 0 :=
  lt_iff.mpr ⟨(rank_sub h).1, rfl, (rank_sub h).2⟩

theorem not_sub_lt_zero {x y : Float} (h : y < x) : ¬ x - y < 0 := by
  intro hlt
  obtain ⟨-, hback⟩ := rank_sub h
  obtain ⟨-, -, hrank⟩ := lt_iff.mp hlt
  have hmirror := (rank_of_negates (negates_add_neg y (-x))).2
  rw [neg_neg_double, add_comm_double (-y), ← sub_eq_add_neg_double, ← sub_eq_add_neg_double]
    at hmirror
  have hzero : rank 0 = 0 := rfl
  omega

/-! ## Finite numbers -/

/-- What a tolerance takes from a finite number leaves a number. -/
theorem isNaN_sub_mul {x y : Float} (hx : Scalar.isFinite x = true)
    (hy : Scalar.isFinite y = true) : Scalar.isNaN (x - y * (1 + x)) = false := by
  have hone : Scalar.isFinite (1 + x) = true := (stored x).isFinite_add_one hx
  have hmul : Scalar.isNaN (y * (1 + x)) = false := isNaN_kept (isNaN_mul hy hone)
  generalize y * (1 + x) = z at hmul
  rw [sub_eq_add_neg_double]
  show (x + -z).toModel.unpack.isNaN = false
  rw [unpack_add, unpack_neg]
  cases hz : z.toModel.unpack.isFinite with
  | true =>
    exact (rounds_add (stored x) (stored z).neg hx ((isFinite_neg _).trans hz)).isNaN
  | false =>
    rw [sum_comm, sum_of_isFinite_right ((isFinite_neg _).trans hz) hx, isNaN_neg]
    exact hmul

theorem isNaN_add {x : Float} (hx : Scalar.isNaN x = true) (y : Float) :
    Scalar.isNaN (x + y) = true := by
  show (x + y).toModel.unpack.isNaN = true
  rw [unpack_add, eq_notANumber hx, sum_notANumber]
  rfl

/-- Nothing that is not finite leaves a number when it is taken from itself. -/
theorem isNaN_sub_self {x : Float} (hx : Scalar.isFinite x = false) :
    Scalar.isNaN (x - x) = true := by
  rw [sub_eq_add_neg_double]
  cases hnan : Scalar.isNaN x with
  | true => exact isNaN_add hnan _
  | false =>
    obtain ⟨s, heq⟩ := exists_eq_infinity hnan hx
    show (x + -x).toModel.unpack.isNaN = true
    rw [unpack_add, unpack_neg, heq]
    cases s <;> rfl

/-! ## Negatives of sums -/

theorem zero_add_double {x : Float} (hx : (x == 0) = true) (y : Float) :
    x + y = y ∨ (y == 0) = true ∧ (x + y == 0) = true := by
  simp only [beq_zero_iff] at hx ⊢
  rcases hu : x.toModel.unpack with s | _ | s | ⟨s, m, e, h⟩ <;> rw [hu] at hx
  case zero =>
    rw [unpack_add, hu]
    refine (sum_zero s (stored y)).imp_left fun hsum => eq_of_unpack ?_
    rw [unpack_add, hu, hsum]
  all_goals exact hx.elim

theorem beq_zero_of_negates {x y : Float} (h : Negates x y) : (x == 0) = (y == 0) := by
  obtain ⟨hnan, hrank⟩ := rank_of_negates h
  have hzero : rank 0 = 0 := rfl
  rw [Bool.eq_iff_iff, beq_iff, beq_iff, hnan, hrank, hzero, neg_eq_zero]

theorem negates_zero_add {x y x' y' : Float} (hx : (x == 0) = true) (hy : (y == 0) = true)
    (h : Negates x' y') : Negates (x + x') (y + y') := by
  have hsame := beq_zero_of_negates h
  rcases zero_add_double hx x' with hsum | ⟨hzero, hsum⟩ <;>
    rcases zero_add_double hy y' with hsum' | ⟨hzero', hsum'⟩
  · rw [hsum, hsum']
    exact h
  · exact .inr (.inl ⟨by rw [hsum, hsame, hzero'], hsum'⟩)
  · exact .inr (.inl ⟨hsum, by rw [hsum', ← hsame, hzero]⟩)
  · exact .inr (.inl ⟨hsum, hsum'⟩)

/-- Sums of negatives are negatives of sums. -/
theorem negates_add {x y x' y' : Float} (h : Negates x y) (h' : Negates x' y') :
    Negates (x + x') (y + y') := by
  have hcomm := add_comm_double
  rcases h with rfl | ⟨hx, hy⟩ | ⟨hx, hy⟩
  · rcases h' with rfl | ⟨hx', hy'⟩ | ⟨hx', hy'⟩
    · exact negates_add_neg x x'
    · rw [hcomm x, hcomm (-x)]
      exact negates_zero_add hx' hy' (.inl rfl)
    · rw [hcomm x, hcomm (-x)]
      exact .inr (.inr ⟨isNaN_add hx' x, isNaN_add hy' (-x)⟩)
  · exact negates_zero_add hx hy h'
  · exact .inr (.inr ⟨isNaN_add hx x', isNaN_add hy y'⟩)

/-! ## Infinities -/

theorem rank_bounds (x : Float) : -lastPlace ≤ rank x ∧ rank x ≤ lastPlace :=
  ⟨(stored x).place_bounds.1, (stored x).place_bounds.2.1⟩

theorem rank_of_not_isFinite {x : Float} (hnan : Scalar.isNaN x = false)
    (h : Scalar.isFinite x = false) : rank x = -lastPlace ∨ rank x = lastPlace :=
  place_of_not_isFinite hnan h

end Double

open Double in
instance : OrderedScalar Float where
  beq_symm h := by
    obtain ⟨hx, hy, hrank⟩ := beq_iff.mp h
    exact beq_iff.mpr ⟨hy, hx, hrank.symm⟩
  beq_trans h h' := by
    obtain ⟨hx, -, hrank⟩ := beq_iff.mp h
    obtain ⟨-, hz, hrank'⟩ := beq_iff.mp h'
    exact beq_iff.mpr ⟨hx, hz, hrank.trans hrank'⟩
  beq_neg {x y} h := by
    obtain ⟨hx, hy, hrank⟩ := beq_iff.mp h
    rw [beq_iff, isNaN_neg_double, isNaN_neg_double, rank_neg, rank_neg, hrank]
    exact ⟨hx, hy, rfl⟩
  beq_self h := beq_iff.mpr ⟨isNaN_of_isFinite h, isNaN_of_isFinite h, rfl⟩
  isFinite_zero := by decide +kernel
  isFinite_one := by decide +kernel
  isFinite_thousand := by decide +kernel
  isFinite_neg := isFinite_neg_double
  isNaN_of_isFinite := isNaN_of_isFinite
  least {x y} h hx z hz := by
    obtain ⟨hnan, -, hlt⟩ := lt_iff.mp h
    obtain ⟨-, -, hlt'⟩ := lt_iff.mp hz
    have hrank := rank_of_not_isFinite hnan hx
    have hbound := rank_bounds y
    have hbound' := rank_bounds z
    omega
  greatest {x y} h hx z hz := by
    obtain ⟨-, hnan, hlt⟩ := lt_iff.mp h
    obtain ⟨-, -, hlt'⟩ := lt_iff.mp hz
    have hrank := rank_of_not_isFinite hnan hx
    have hbound := rank_bounds y
    have hbound' := rank_bounds z
    omega
  isNaN_of_le h := ⟨(le_iff.mp h).1, (le_iff.mp h).2.1⟩
  le_total {x y} hx hy := by
    rw [le_iff, le_iff]
    exact (Int.le_total (rank x) (rank y)).imp (⟨hx, hy, ·⟩) (⟨hy, hx, ·⟩)
  le_trans h h' := by
    obtain ⟨hx, -, hrank⟩ := le_iff.mp h
    obtain ⟨-, hz, hrank'⟩ := le_iff.mp h'
    exact le_iff.mpr ⟨hx, hz, hrank.trans hrank'⟩
  le_of_lt h := by
    obtain ⟨hx, hy, hrank⟩ := lt_iff.mp h
    exact le_iff.mpr ⟨hx, hy, hrank.le⟩
  le_of_not_lt hx hy h :=
    le_iff.mpr ⟨hy, hx, not_lt.mp fun hrank => h (lt_iff.mpr ⟨hx, hy, hrank⟩)⟩
  zero_lt_one := by decide +kernel
  not_zero_lt_neg_one := by decide +kernel
  one_le_ten_million := by decide +kernel
  lt_of_add_lt hy h := by
    obtain ⟨hnan, hz, hlt⟩ := lt_iff.mp h
    obtain ⟨hx, -, hle⟩ := le_iff.mp (le_add hy hnan)
    exact lt_iff.mpr ⟨hx, hz, hle.trans_lt hlt⟩
  lt_of_lt_sub hy h := by
    obtain ⟨hx, hnan, hlt⟩ := lt_iff.mp h
    obtain ⟨-, hz, hle⟩ := le_iff.mp (sub_le hy hnan)
    exact lt_iff.mpr ⟨hx, hz, hlt.trans_le hle⟩
  sub_lt_zero := sub_lt_zero
  not_sub_lt_zero := not_sub_lt_zero
  isNaN_sub y h := by
    rw [sub_eq_add_neg_double]
    exact isNaN_add h _
  isNaN_sub_self {x y} hy h := by
    cases hx : isFinite x with
    | true => exact absurd h (by rw [isNaN_sub_mul hx hy]; decide)
    | false => exact isNaN_sub_self hx

instance : MirroredScalar Float where
  neg_zero_beq_zero := by decide +kernel

instance : SymmetricScalar Float where
  neg_zero_beq_zero := MirroredScalar.neg_zero_beq_zero
  negates_add := Double.negates_add
  negates_neg_mul := Double.negates_neg_mul

theorem Bound.neg_neg_double (b : Bound Float) : b.neg.neg = b := by
  cases b with
  | negInf => rfl
  | posInf => rfl
  | finite x => exact congrArg Bound.finite (Double.neg_neg_double x)

/-- No bound of doubles is lost when it is negated twice. -/
theorem Draft.reflexive_double (d : Draft Float) : d.Reflexive where
  rowLower b _ := b.neg_neg_double
  rowUpper b _ := b.neg_neg_double

end DualSimplex
