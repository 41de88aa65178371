import DualSimplex.Scalar

/-!
# Exact scalars

Rational numbers as scalars.  With them the solver computes without rounding,
and what it reports can be held against the equations and inequalities that it
should satisfy.

Two things remain of floating point.  Vectors lose the entries whose magnitude
is below a cutoff, which are only the zeros if the cutoff is zero.  And an
entry that cancels while it is listed is replaced by a mark: it is worth zero
but is not `0`.
-/

namespace DualSimplex

/-- A rational number, or the mark for an entry that has cancelled. -/
structure Exact (cutoff : Rat) where
  value : Rat
  marked : Bool
  deriving DecidableEq

namespace Exact

variable {cutoff : Rat}

def ofRat (x : Rat) : Exact cutoff :=
  { value := x, marked := false }

def mark : Exact cutoff :=
  { value := 0, marked := true }

instance : Scalar (Exact cutoff) where
  add x y := ofRat (x.value + y.value)
  sub x y := ofRat (x.value - y.value)
  mul x y := ofRat (x.value * y.value)
  div x y := ofRat (x.value / y.value)
  neg x := ofRat (-x.value)
  zero := ofRat 0
  one := ofRat 1
  natCast n := ofRat n
  ofScientific m s e := ofRat (OfScientific.ofScientific m s e)
  lt x y := x.value < y.value
  le x y := x.value ≤ y.value
  beq x y := x = y
  decLT x y := inferInstanceAs (Decidable (x.value < y.value))
  decLE x y := inferInstanceAs (Decidable (x.value ≤ y.value))
  magnitude x := ofRat x.value.abs
  isNaN _ := false
  isFinite _ := true
  isTiny x := x.value == 0 || x.value.abs < cutoff
  cancelled := mark
  vanished := mark

/-! ## Values -/

@[simp] theorem value_ofRat (x : Rat) : (ofRat x : Exact cutoff).value = x := rfl

@[simp] theorem value_mark : (mark : Exact cutoff).value = 0 := rfl

@[simp] theorem value_zero : (0 : Exact cutoff).value = 0 := rfl

@[simp] theorem value_one : (1 : Exact cutoff).value = 1 := rfl

@[simp] theorem value_add (x y : Exact cutoff) : (x + y).value = x.value + y.value := rfl

@[simp] theorem value_sub (x y : Exact cutoff) : (x - y).value = x.value - y.value := rfl

@[simp] theorem value_mul (x y : Exact cutoff) : (x * y).value = x.value * y.value := rfl

@[simp] theorem value_div (x y : Exact cutoff) : (x / y).value = x.value / y.value := rfl

@[simp] theorem value_neg (x : Exact cutoff) : (-x).value = -x.value := rfl

@[simp] theorem value_magnitude (x : Exact cutoff) :
    (Scalar.magnitude x).value = x.value.abs := rfl

theorem lt_iff {x y : Exact cutoff} : x < y ↔ x.value < y.value := Iff.rfl

theorem le_iff {x y : Exact cutoff} : x ≤ y ↔ x.value ≤ y.value := Iff.rfl

/-! ## Marks -/

/-- A marked entry is told from one that is not listed. -/
theorem mark_ne_zero : (mark : Exact cutoff) ≠ 0 :=
  fun h => Bool.noConfusion (congrArg marked h)

theorem isTiny_eq_true_iff {x : Exact cutoff} :
    Scalar.isTiny x = true ↔ x.value = 0 ∨ x.value.abs < cutoff := by
  simp only [Scalar.isTiny, Bool.or_eq_true, beq_iff_eq, decide_eq_true_eq]

/-- With a cutoff of zero only zeros are tiny, marked or not. -/
theorem isTiny_zero_cutoff_iff {x : Exact 0} : Scalar.isTiny x = true ↔ x.value = 0 := by
  rw [isTiny_eq_true_iff]
  refine ⟨fun h => h.elim id fun h => ?_, Or.inl⟩
  exact absurd h (Rat.not_lt.mpr Rat.abs_nonneg)

end Exact
end DualSimplex
