import DualSimplex.EdgeWeights
import DualSimplex.Proofs.Lines
import DualSimplex.Proofs.Scalar

/-!
# Bounds of the edge weights

No weight is ever less than one, and those of a reference framework stay below
the limit from which on it is reset.
-/

namespace DualSimplex

open Scalar

variable {α : Type} [Scalar α] [OrderedScalar α]

open OrderedScalar

namespace EdgeWeights

/-- What holds of weights under way through an update that started with weights
of which `p` holds. -/
structure Tally.Sound (p : α → Prop) (t : Tally α) : Prop where
  isNaN_largest : isNaN t.largest = false
  one_le : ∀ x ∈ t.weights, 1 ≤ x
  le_largest : ∀ x ∈ t.weights, p x ∨ x ≤ t.largest

variable {p : α → Prop}

theorem Tally.Sound.put {t : Tally α} (h : t.Sound p) (i : Nat) {x : α} (hx : 1 ≤ x) :
    (t.put i x).Sound p := by
  have hnumber : isNaN x = false := (isNaN_of_le hx).2
  refine ⟨isNaN_larger h.isNaN_largest x, fun y hy => ?_, fun y hy => ?_⟩
  · rcases Array.mem_or_eq_of_mem_setIfInBounds hy with hy | hy
    · exact h.one_le y hy
    · rw [hy]
      exact hx
  · rcases Array.mem_or_eq_of_mem_setIfInBounds hy with hy | hy
    · rcases h.le_largest y hy with hp | hle
      · exact Or.inl hp
      · exact Or.inr (le_trans hle (le_larger_left h.isNaN_largest x))
    · rw [hy]
      exact Or.inr (le_larger_right hnumber)

theorem one_le_getD {weights : Array α} (h : ∀ x ∈ weights, 1 ≤ x) (i : Nat) :
    1 ≤ weights.getD i 1 := by
  by_cases hi : i < weights.size
  · rw [getD_eq_getElem hi]
    exact h _ (Array.getElem_mem hi)
  · rw [getD_of_size_le (Nat.le_of_not_lt hi)]
    exact one_le_one

theorem sound_pivotWeights (renew : Nat → α → α → α → α)
    (hrenew : ∀ i old ratio weight, 1 ≤ old → 1 ≤ renew i old ratio weight) {weights : Array α}
    (hone : ∀ x ∈ weights, 1 ≤ x) (hp : ∀ x ∈ weights, p x) (position : Nat)
    (column : SparseVector α) : (pivotWeights renew weights position column).Sound p := by
  have hnumber : isNaN (1 : α) = false := isNaN_of_isFinite isFinite_one
  refine Tally.Sound.put ?_ position (le_larger_right hnumber)
  have hfold : ∀ (others : List (Nat × α)) (t : Tally α), t.Sound p →
      (others.foldl (fun t u => t.put u.1 (renew u.1 (t.weights.getD u.1 1)
        (u.2 / column.get position) (weights.getD position 1))) t).Sound p := by
    intro others
    induction others with
    | nil => exact fun t ht => ht
    | cons o others ih =>
      intro t ht
      exact ih _ (ht.put o.1 (hrenew _ _ _ _ (one_le_getD ht.one_le o.1)))
  refine hfold _ _ ⟨isNaN_of_isFinite isFinite_zero, hone, fun x hx => Or.inl (hp x hx)⟩

/-- Every weight is one at least, and those of a reference framework are not
beyond its limit. -/
structure Bounded (w : EdgeWeights α) : Prop where
  one_le : ∀ weights, w.weights? = some weights → ∀ x ∈ weights, 1 ≤ x
  le_limit : ∀ weights resets, w = .devex weights resets → ∀ x ∈ weights, x ≤ devexLimit

omit [OrderedScalar α] in
theorem bounded_dantzig : (dantzig : EdgeWeights α).Bounded where
  one_le := nofun
  le_limit := nofun

omit [OrderedScalar α] in
theorem bounded_devex {weights : Array α} (hone : ∀ x ∈ weights, 1 ≤ x)
    (hlimit : ∀ x ∈ weights, x ≤ devexLimit) (resets : Nat) :
    (devex weights resets).Bounded where
  one_le := by
    intro ws hws
    rw [← Option.some.inj hws]
    exact hone
  le_limit := by
    intro ws k hws
    rw [← (devex.inj hws).1]
    exact hlimit

omit [OrderedScalar α] in
theorem bounded_steepestEdge {weights : Array α} (hone : ∀ x ∈ weights, 1 ≤ x) :
    (steepestEdge weights).Bounded where
  one_le := by
    intro ws hws
    rw [← Option.some.inj hws]
    exact hone
  le_limit := nofun

theorem bounded_devex_replicate (m resets : Nat) :
    (devex (Array.replicate m (1 : α)) resets).Bounded := by
  have hunit : ∀ x ∈ Array.replicate m (1 : α), x = 1 := fun x hx => Array.eq_of_mem_replicate hx
  refine bounded_devex (fun x hx => ?_) (fun x hx => ?_) resets
  · rw [hunit x hx]
    exact one_le_one
  · rw [hunit x hx]
    exact one_le_ten_million

theorem bounded_steepestEdge_replicate (m : Nat) :
    (steepestEdge (Array.replicate m (1 : α))).Bounded := by
  refine bounded_steepestEdge fun x hx => ?_
  rw [Array.eq_of_mem_replicate hx]
  exact one_le_one

theorem bounded_ofRule (rule : PricingRule) (m : Nat) :
    (ofRule rule m : EdgeWeights α).Bounded := by
  cases rule with
  | dantzig => exact bounded_dantzig
  | devex => exact bounded_devex_replicate m 0
  | steepestEdge => exact bounded_steepestEdge_replicate m

theorem bounded_reset (w : EdgeWeights α) (m : Nat) : (w.reset m).Bounded := by
  cases w with
  | dantzig => exact bounded_dantzig
  | devex weights resets => exact bounded_devex_replicate m resets
  | steepestEdge weights => exact bounded_steepestEdge_replicate m

omit [OrderedScalar α] in
theorem Bounded.withNorms {w : EdgeWeights α} (h : w.Bounded) {norms : Array α}
    (hnorms : ∀ x ∈ norms, 1 ≤ x) : (w.withNorms norms).Bounded := by
  cases w with
  | dantzig => exact h
  | devex weights resets => exact h
  | steepestEdge weights => exact bounded_steepestEdge hnorms

theorem Bounded.update {w : EdgeWeights α} (h : w.Bounded) (position : Nat)
    (column : SparseVector α) (tau : Option (SparseVector α)) :
    (w.update position column tau).1.Bounded := by
  cases w with
  | dantzig => exact bounded_dantzig
  | devex weights resets =>
    have hone := h.one_le weights rfl
    have hlimit := h.le_limit weights resets rfl
    have hsound := sound_pivotWeights (p := fun x => x ≤ devexLimit)
      (fun _ old ratio weight => larger old (ratio * ratio * weight))
      (fun _ old _ _ hold => le_trans hold (le_larger_left (isNaN_of_le hold).2 _))
      hone hlimit position column
    rw [EdgeWeights.update]
    split
    · exact bounded_devex_replicate _ _
    · rename_i hsmall
      refine bounded_devex hsound.one_le (fun x hx => ?_) resets
      rcases hsound.le_largest x hx with hle | hle
      · exact hle
      · have hnumber := (isNaN_of_le (one_le_ten_million (α := α))).2
        exact le_trans hle (le_of_not_lt hnumber hsound.isNaN_largest hsmall)
  | steepestEdge weights =>
    have hnumber : isNaN (1 : α) = false := isNaN_of_isFinite isFinite_one
    refine bounded_steepestEdge (Tally.Sound.one_le (p := fun _ => True) ?_)
    exact sound_pivotWeights _ (fun _ _ _ _ _ => le_larger_right hnumber) (h.one_le weights rfl)
      (fun _ _ => trivial) position column

end EdgeWeights
end DualSimplex
