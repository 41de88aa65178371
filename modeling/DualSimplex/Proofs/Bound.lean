import DualSimplex.Bound
import DualSimplex.Proofs.Scalar

/-!
# Bounds and statuses

Where a variable may rest, and what a violated bound says about it.  Bounds that
are relaxed along the way may become infinite as numbers, but only on the side on
which nothing can violate them.
-/

namespace DualSimplex

open Scalar

variable {α : Type} [Scalar α] [OrderedScalar α]

theorem Bound.beq_value {b c : Bound α} (h : (b == c) = true) : (b.value == c.value) = true := by
  have hzero : ((0 : α) == 0) = true := zero_beq_zero
  cases b <;> cases c <;> first | exact hzero | exact h | exact absurd h Bool.false_ne_true

theorem Bound.beq_symm {b c : Bound α} (h : (b == c) = true) : (c == b) = true := by
  cases b <;> cases c <;> first
    | rfl
    | exact OrderedScalar.beq_symm h
    | exact absurd h Bool.false_ne_true

theorem Bound.beq_neg {b c : Bound α} (h : (b == c) = true) : (b.neg == c.neg) = true := by
  cases b <;> cases c <;> first
    | rfl
    | exact OrderedScalar.beq_neg h
    | exact absurd h Bool.false_ne_true

theorem Bound.isFinite_neg (b : Bound α) : b.neg.isFinite = b.isFinite := by
  cases b with
  | negInf => rfl
  | finite x => exact OrderedScalar.isFinite_neg x
  | posInf => rfl

theorem Bound.beq_value_self {b : Bound α} (h : b.isFinite = true) :
    (b.value == b.value) = true := by
  cases b with
  | negInf => exact absurd h Bool.false_ne_true
  | finite x => exact OrderedScalar.beq_self h
  | posInf => exact absurd h Bool.false_ne_true

namespace Interval

variable {b : Interval α} {s : VariableStatus}

omit [OrderedScalar α] in
theorem isFinite_of_isBoxed (h : b.kind.isBoxed = true) :
    b.lower.isFinite = true ∧ b.upper.isFinite = true := by
  unfold kind at h
  cases hl : b.lower.isFinite <;> cases hu : b.upper.isFinite <;> rw [hl, hu] at h <;>
    simp_all [BoundKind.isBoxed]

omit [OrderedScalar α] in
theorem restingStatus_ne_basic (b : Interval α) : b.restingStatus ≠ .basic := by
  unfold restingStatus
  cases b.kind <;> nofun

omit [OrderedScalar α] in
theorem allows_opposite (hboxed : b.kind.isBoxed = true) (h : b.allows s = true) :
    b.allows s.opposite = true := by
  obtain ⟨hl, hu⟩ := isFinite_of_isBoxed hboxed
  cases s with
  | atLower => exact hu
  | atUpper => exact hl
  | basic => exact h
  | fixed => exact h
  | free => exact h

/-- A row rests where its logical variable rests at the other end. -/
theorem allows_neg (h : b.allows s = true) : b.neg.allows s.opposite = true := by
  cases s with
  | basic => rfl
  | atLower => exact (Bound.isFinite_neg _).trans h
  | atUpper => exact (Bound.isFinite_neg _).trans h
  | fixed => exact Bound.beq_neg (Bound.beq_symm h)
  | free =>
    show (!b.upper.neg.isFinite && !b.lower.neg.isFinite) = true
    rw [Bound.isFinite_neg, Bound.isFinite_neg, Bool.and_comm]
    exact h

theorem beq_restingValue (h : b.allows s = true) :
    (b.restingValue s == b.restingValue s) = true := by
  have hzero : ((0 : α) == 0) = true := zero_beq_zero
  cases s with
  | basic => exact hzero
  | atLower => exact Bound.beq_value_self h
  | atUpper => exact Bound.beq_value_self h
  | fixed =>
    have hvalue := Bound.beq_value h
    exact OrderedScalar.beq_trans hvalue (OrderedScalar.beq_symm hvalue)
  | free => exact hzero

/-- Bounds with the infinities where they belong and finite numbers. -/
structure Canonical (b : Interval α) : Prop where
  lower_ne : b.lower ≠ .posInf
  upper_ne : b.upper ≠ .negInf
  lower : ∀ x, b.lower = .finite x → isFinite x = true
  upper : ∀ x, b.upper = .finite x → isFinite x = true

/-- Canonical bounds, or such as relaxing leads to: a number that is infinite is
beyond all others. -/
structure Proper (b : Interval α) : Prop where
  lower_ne : b.lower ≠ .posInf
  upper_ne : b.upper ≠ .negInf
  lower : ∀ x, b.lower = .finite x → isFinite x = true ∨ ∀ z, ¬ z < x
  upper : ∀ x, b.upper = .finite x → isFinite x = true ∨ ∀ z, ¬ x < z

omit [OrderedScalar α] in
theorem Canonical.proper (h : b.Canonical) : b.Proper where
  lower_ne := h.lower_ne
  upper_ne := h.upper_ne
  lower x hx := Or.inl (h.lower x hx)
  upper x hx := Or.inl (h.upper x hx)

omit [OrderedScalar α] in
theorem canonical_between {x y : α} (hx : isFinite x = true) (hy : isFinite y = true) :
    (between x y).Canonical where
  lower_ne := nofun
  upper_ne := nofun
  lower _ hz := Bound.finite.inj hz ▸ hx
  upper _ hz := Bound.finite.inj hz ▸ hy

omit [OrderedScalar α] in
theorem canonical_unbounded : (Interval.mk .negInf .posInf : Interval α).Canonical where
  lower_ne := nofun
  upper_ne := nofun
  lower := nofun
  upper := nofun

theorem Canonical.neg (h : b.Canonical) : b.neg.Canonical := by
  obtain ⟨lower, upper⟩ := b
  obtain ⟨hl, hu, hlower, hupper⟩ := h
  refine ⟨?_, ?_, ?_, ?_⟩
  · cases upper with
    | negInf => exact absurd rfl hu
    | finite x => exact nofun
    | posInf => exact nofun
  · cases lower with
    | negInf => exact nofun
    | finite x => exact nofun
    | posInf => exact absurd rfl hl
  · intro x hx
    cases upper with
    | negInf => exact absurd hx nofun
    | finite y =>
      rw [← Bound.finite.inj hx, OrderedScalar.isFinite_neg]
      exact hupper y rfl
    | posInf => exact absurd hx nofun
  · intro x hx
    cases lower with
    | negInf => exact absurd hx nofun
    | finite y =>
      rw [← Bound.finite.inj hx, OrderedScalar.isFinite_neg]
      exact hlower y rfl
    | posInf => exact absurd hx nofun

theorem Proper.relax_lower (h : b.Proper) {x : α} (hx : b.lower.exceeds x = true) :
    (Interval.mk (.finite x) b.upper).Proper := by
  refine { h with lower_ne := nofun, lower := fun y hy => ?_ }
  obtain rfl := Bound.finite.inj hy
  cases hl : b.lower with
  | negInf => rw [hl] at hx; exact absurd hx Bool.false_ne_true
  | posInf => exact absurd hl h.lower_ne
  | finite l =>
    rw [hl] at hx
    cases hfinite : isFinite x with
    | true => exact Or.inl rfl
    | false => exact Or.inr (OrderedScalar.least (of_decide_eq_true hx) hfinite)

theorem Proper.relax_upper (h : b.Proper) {x : α} (hx : b.upper.isBelow x = true) :
    (Interval.mk b.lower (.finite x)).Proper := by
  refine { h with upper_ne := nofun, upper := fun y hy => ?_ }
  obtain rfl := Bound.finite.inj hy
  cases hu : b.upper with
  | negInf => exact absurd hu h.upper_ne
  | posInf => rw [hu] at hx; exact absurd hx Bool.false_ne_true
  | finite u =>
    rw [hu] at hx
    cases hfinite : isFinite x with
    | true => exact Or.inl rfl
    | false => exact Or.inr (OrderedScalar.greatest (of_decide_eq_true hx) hfinite)

theorem sign_of_lt {x : α} (hx : x < 0) : ¬ 0 < sign x := by
  rw [sign, if_pos hx]
  exact OrderedScalar.not_zero_lt_neg_one

theorem sign_of_not_lt {x : α} (hx : ¬ x < 0) : 0 < sign x := by
  rw [sign, if_neg hx]
  exact OrderedScalar.zero_lt_one

omit [OrderedScalar α] in
theorem violation_cases (b : Interval α) (tolerance x : α) :
    (∃ u, b.upper = .finite u ∧ u + tolerance < x ∧ b.violation tolerance x = x - u) ∨
    (∃ l, b.lower = .finite l ∧ x < l - tolerance ∧ b.violation tolerance x = x - l) ∨
    b.violation tolerance x = 0 := by
  obtain ⟨lower, upper⟩ := b
  by_cases hu : ∃ u, upper = .finite u ∧ u + tolerance < x
  · obtain ⟨u, rfl, hu⟩ := hu
    exact Or.inl ⟨u, rfl, hu, if_pos hu⟩
  · have hviolation : (Interval.mk lower upper).violation tolerance x =
        (Interval.mk lower .posInf).violation tolerance x := by
      cases upper with
      | negInf => rfl
      | posInf => rfl
      | finite u => exact if_neg fun h => hu ⟨u, rfl, h⟩
    rw [hviolation]
    cases lower with
    | negInf => exact Or.inr (Or.inr rfl)
    | posInf => exact Or.inr (Or.inr rfl)
    | finite l =>
      by_cases hl : x < l - tolerance
      · exact Or.inr (Or.inl ⟨l, rfl, hl, if_pos hl⟩)
      · exact Or.inr (Or.inr (if_neg hl))

/-- The sign of a violation tells which bound is violated. -/
theorem violated_of_sign (b : Interval α) {tolerance x : α} (htolerance : 0 < tolerance)
    (hx : (b.violation tolerance x == 0) = false) :
    (0 < sign (b.violation tolerance x) ∧ ∃ u, b.upper = .finite u ∧ u + tolerance < x) ∨
    (¬0 < sign (b.violation tolerance x) ∧ ∃ l, b.lower = .finite l ∧ x < l - tolerance) := by
  rcases b.violation_cases tolerance x with ⟨u, hu, hlt, he⟩ | ⟨l, hl, hlt, he⟩ | he
  · have hbeyond := OrderedScalar.lt_of_add_lt htolerance hlt
    rw [he]
    exact Or.inl ⟨sign_of_not_lt (OrderedScalar.not_sub_lt_zero hbeyond), u, hu, hlt⟩
  · have hbeyond := OrderedScalar.lt_of_lt_sub htolerance hlt
    rw [he]
    exact Or.inr ⟨sign_of_lt (OrderedScalar.sub_lt_zero hbeyond), l, hl, hlt⟩
  · rw [he, zero_beq_zero] at hx
    exact absurd hx nofun

/-- A bound that is violated is finite. -/
theorem Proper.isFinite_of_violation (h : b.Proper) {tolerance x : α} (htolerance : 0 < tolerance)
    (hx : (b.violation tolerance x == 0) = false) :
    (if 0 < sign (b.violation tolerance x) then b.upper else b.lower).isFinite = true := by
  rcases b.violated_of_sign htolerance hx with ⟨hsign, u, hu, hlt⟩ | ⟨hsign, l, hl, hlt⟩
  · rw [if_pos hsign, hu]
    have hlt := OrderedScalar.lt_of_add_lt htolerance hlt
    exact (h.upper u hu).resolve_right fun hgreatest => hgreatest x hlt
  · rw [if_neg hsign, hl]
    have hlt := OrderedScalar.lt_of_lt_sub htolerance hlt
    exact (h.lower l hl).resolve_right fun hleast => hleast x hlt

end Interval

/-! ## Mirror images -/

section Mirror

omit [OrderedScalar α]

variable [MirroredScalar α]

end Mirror
end DualSimplex
