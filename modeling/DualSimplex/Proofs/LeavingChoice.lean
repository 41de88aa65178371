import Mathlib.Data.List.MinMax
import Mathlib.Data.Prod.Lex
import Mathlib.Data.List.OfFn
import Mathlib.Order.OrderDual
import DualSimplex.EdgeWeights
import DualSimplex.Proofs.Exact

/-!
# The choice of the leaving variable

The search for the variable that leaves keeps the best contender so far: a higher score wins,
and of equal scores the lower variable.  With exact numbers that is a linear order, so the
outcome is the greatest of all violated positions.  Since no two positions hold one variable
there is a single such position, and the order in which the basis lists its variables has no
say in the choice.
-/

namespace DualSimplex

open Scalar Exact

namespace EdgeWeights

variable {cutoff : Rat}

/-- The squared infeasibility over the weight. -/
def priority (w : EdgeWeights (Exact cutoff)) (infeasibilities : Array ℚ) (p : Nat) : ℚ :=
  infeasibilities.getD p 0 ^ 2 / (w.weight p).value

/-- The position that should leave: violated, with the highest priority among the violated ones
and the lowest variable among those with this priority. -/
structure Leads (w : EdgeWeights (Exact cutoff)) (infeasibilities : Array ℚ)
    (basicIndex : Array Nat) (p : Nat) : Prop where
  lt : p < infeasibilities.size
  violated : infeasibilities.getD p 0 ≠ 0
  highest : ∀ q < infeasibilities.size, infeasibilities.getD q 0 ≠ 0 →
    w.priority infeasibilities q ≤ w.priority infeasibilities p
  lowest : ∀ q < infeasibilities.size, infeasibilities.getD q 0 ≠ 0 →
    w.priority infeasibilities q = w.priority infeasibilities p →
      basicIndex.getD p 0 ≤ basicIndex.getD q 0

variable {w : EdgeWeights (Exact cutoff)} {infeasibilities : Array ℚ} {basicIndex : Array Nat}

/-- Distinct variables rule out a second position. -/
theorem Leads.unique (hsize : basicIndex.size = infeasibilities.size)
    (hnodup : basicIndex.toList.Nodup) {p q : Nat} (hp : w.Leads infeasibilities basicIndex p)
    (hq : w.Leads infeasibilities basicIndex q) : p = q := by
  have hpriority : w.priority infeasibilities q = w.priority infeasibilities p :=
    le_antisymm (hp.highest q hq.lt hq.violated) (hq.highest p hp.lt hp.violated)
  have hvariable : basicIndex.getD p 0 = basicIndex.getD q 0 :=
    le_antisymm (hp.lowest q hq.lt hq.violated hpriority)
      (hq.lowest p hp.lt hp.violated hpriority.symm)
  have hplt : p < basicIndex.size := hsize ▸ hp.lt
  have hqlt : q < basicIndex.size := hsize ▸ hq.lt
  rw [getD_eq_getElem hplt, getD_eq_getElem hqlt] at hvariable
  exact hnodup.getElem_inj_iff.mp hvariable

/-! ## The search as a greatest element -/

/-- An infeasibility with its position, in the order of the search. -/
def standing (w : EdgeWeights (Exact cutoff)) (basicIndex : Array Nat) (t : ℚ × Nat) :
    ℚ ×ₗ ℕᵒᵈ :=
  toLex (t.1 ^ 2 / (w.weight t.2).value, OrderDual.toDual (basicIndex.getD t.2 0))

def contender (w : EdgeWeights (Exact cutoff)) (basicIndex : Array Nat) (t : ℚ × Nat) :
    Contender (Exact cutoff) :=
  { score := ofRat t.1 * ofRat t.1 / w.weight t.2
    variableIndex := basicIndex.getD t.2 0
    position := t.2 }

theorem beats_contender (w : EdgeWeights (Exact cutoff)) (basicIndex : Array Nat)
    (t s : ℚ × Nat) : (w.contender basicIndex t).beats (w.contender basicIndex s) = true ↔
      w.standing basicIndex s < w.standing basicIndex t := by
  have hscore : ∀ t : ℚ × Nat, (w.contender basicIndex t).score =
      ofRat (t.1 ^ 2 / (w.weight t.2).value) := fun t => by
    rw [sq]
    rfl
  have hequal : ∀ x y : ℚ, ((ofRat x : Exact cutoff) == ofRat y) = true ↔ y = x := fun x y => by
    rw [beq_iff, eq_comm]
    exact ⟨congrArg value, congrArg ofRat⟩
  unfold Contender.beats
  rw [Bool.or_eq_true, Bool.and_eq_true, decide_eq_true_iff, decide_eq_true_iff, hscore, hscore,
    hequal, Prod.Lex.lt_iff]
  rfl

/-- One entry of the search. -/
def consider (w : EdgeWeights (Exact cutoff)) (basicIndex : Array Nat)
    (best : Option (Contender (Exact cutoff))) (t : Exact cutoff × Nat) :
    Option (Contender (Exact cutoff)) :=
  if t.1 == 0 then best
  else
    let c : Contender (Exact cutoff) := {
      score := t.1 * t.1 / w.weight t.2
      variableIndex := basicIndex.getD t.2 0
      position := t.2 }
    match best with
    | none => some c
    | some b => if c.beats b then some c else best

theorem choosePosition_eq_foldl (w : EdgeWeights (Exact cutoff)) (xs : Array (Exact cutoff))
    (basicIndex : Array Nat) : w.choosePosition xs basicIndex =
      (xs.toList.zipIdx.foldl (w.consider basicIndex) none).map Contender.position := by
  refine congrArg (fun step => (xs.toList.zipIdx.foldl step none).map Contender.position) ?_
  funext best t
  cases best <;> rfl

theorem consider_zero (best : Option (Contender (Exact cutoff))) {t : ℚ × Nat} (ht : t.1 = 0) :
    w.consider basicIndex best (t.map ofRat id) = best :=
  if_pos (beq_iff.mpr (congrArg ofRat ht))

/-- A violated position takes over if there is no other yet or if it stands higher. -/
theorem consider_violated (best : Option (ℚ × Nat)) {t : ℚ × Nat} (ht : t.1 ≠ 0) :
    w.consider basicIndex (best.map (w.contender basicIndex)) (t.map ofRat id) =
      (List.argAux (fun t s => w.standing basicIndex s < w.standing basicIndex t) best t).map
        (w.contender basicIndex) := by
  refine (if_neg (Bool.eq_false_iff.mp (beq_zero_eq_false ht))).trans ?_
  cases best with
  | none => rfl
  | some s =>
    show (if (w.contender basicIndex t).beats (w.contender basicIndex s) = true then
      some (w.contender basicIndex t) else some (w.contender basicIndex s)) =
      (if w.standing basicIndex s < w.standing basicIndex t then some t else some s).map _
    rw [apply_ite (Option.map _)]
    exact if_congr (beats_contender w basicIndex t s) rfl rfl

/-- What the search has found after some entries is the greatest of them by `standing`. -/
theorem foldl_consider (w : EdgeWeights (Exact cutoff)) (basicIndex : Array Nat)
    (ts : List (ℚ × Nat)) (best : Option (ℚ × Nat)) :
    (ts.map (Prod.map ofRat id)).foldl (w.consider basicIndex)
        (best.map (w.contender basicIndex)) =
      ((ts.filter fun t => t.1 ≠ 0).foldl (List.argAux fun t s =>
        w.standing basicIndex s < w.standing basicIndex t) best).map (w.contender basicIndex) := by
  induction ts generalizing best with
  | nil => rfl
  | cons t ts ih =>
    rw [List.map_cons, List.foldl_cons]
    by_cases ht : t.1 = 0
    · rw [consider_zero _ ht, List.filter_cons_of_neg (by simpa using ht), ih]
    · rw [consider_violated _ ht, List.filter_cons_of_pos (by simpa using ht), List.foldl_cons, ih]

/-- The infeasibilities that are not zero, each with its position. -/
def violations (infeasibilities : Array ℚ) : List (ℚ × Nat) :=
  infeasibilities.toList.zipIdx.filter fun t => t.1 ≠ 0

theorem mem_violations {t : ℚ × Nat} : t ∈ violations infeasibilities ↔
    t.2 < infeasibilities.size ∧ infeasibilities.getD t.2 0 = t.1 ∧ t.1 ≠ 0 := by
  rw [violations, List.mem_filter, List.mem_zipIdx_iff_getElem?, Array.getElem?_toList,
    Array.getElem?_eq_some_iff, decide_eq_true_iff]
  constructor
  · rintro ⟨⟨hlt, ht⟩, hne⟩
    exact ⟨hlt, (getD_eq_getElem hlt 0).trans ht, hne⟩
  · rintro ⟨hlt, ht, hne⟩
    exact ⟨⟨hlt, (getD_eq_getElem hlt 0).symm.trans ht⟩, hne⟩

theorem choosePosition_eq_argmax (w : EdgeWeights (Exact cutoff)) (infeasibilities : Array ℚ)
    (basicIndex : Array Nat) : w.choosePosition (infeasibilities.map ofRat) basicIndex =
      ((violations infeasibilities).argmax (w.standing basicIndex)).map Prod.snd := by
  have hfold := foldl_consider w basicIndex infeasibilities.toList.zipIdx none
  rw [Option.map_none] at hfold
  rw [choosePosition_eq_foldl, Array.toList_map, List.zipIdx_map, hfold, Option.map_map]
  rfl

/-- The greatest violated position is the one that leads. -/
theorem leads_of_mem_argmax {t : ℚ × Nat}
    (h : t ∈ (violations infeasibilities).argmax (w.standing basicIndex)) :
    w.Leads infeasibilities basicIndex t.2 := by
  obtain ⟨hlt, ht, hne⟩ := mem_violations.mp (List.argmax_mem h)
  have hstanding : ∀ q < infeasibilities.size, infeasibilities.getD q 0 ≠ 0 →
      w.priority infeasibilities q < w.priority infeasibilities t.2 ∨
        w.priority infeasibilities q = w.priority infeasibilities t.2 ∧
          basicIndex.getD t.2 0 ≤ basicIndex.getD q 0 := by
    intro q hq hviolated
    have hle := List.le_of_mem_argmax
      (mem_violations.mpr ⟨hq, rfl, hviolated⟩ :
        (infeasibilities.getD q 0, q) ∈ violations infeasibilities) h
    rw [priority, priority, ht]
    exact Prod.Lex.le_iff.mp hle
  exact {
    lt := hlt
    violated := ht ▸ hne
    highest := fun q hq hviolated => (hstanding q hq hviolated).elim le_of_lt fun h => h.1.le
    lowest := fun q hq hviolated hequal =>
      (hstanding q hq hviolated).elim (fun h => absurd hequal h.ne) fun h => h.2 }

/-- The position that leads is found, and there is none only if nothing is violated. -/
theorem choosePosition_eq_some_iff (hsize : basicIndex.size = infeasibilities.size)
    (hnodup : basicIndex.toList.Nodup) {p : Nat} :
    w.choosePosition (infeasibilities.map ofRat) basicIndex = some p ↔
      w.Leads infeasibilities basicIndex p := by
  rw [choosePosition_eq_argmax]
  cases hbest : (violations infeasibilities).argmax (w.standing basicIndex) with
  | none =>
    have hnone := List.argmax_eq_none.mp hbest
    refine ⟨fun h => absurd h (Option.some_ne_none p).symm, fun h => ?_⟩
    have hmem : (infeasibilities.getD p 0, p) ∈ violations infeasibilities :=
      mem_violations.mpr ⟨h.lt, rfl, h.violated⟩
    rw [hnone] at hmem
    exact absurd hmem List.not_mem_nil
  | some t =>
    have hleads := leads_of_mem_argmax (Option.mem_def.mpr hbest)
    rw [Option.map_some, Option.some_inj]
    exact ⟨fun h => h ▸ hleads, fun h => hleads.unique hsize hnodup h⟩

theorem choosePosition_eq_none_iff (w : EdgeWeights (Exact cutoff)) :
    w.choosePosition (infeasibilities.map ofRat) basicIndex = none ↔
      ∀ x ∈ infeasibilities, x = 0 := by
  rw [choosePosition_eq_argmax, Option.map_eq_none_iff, List.argmax_eq_none]
  refine ⟨fun h x hx => ?_, fun h => List.eq_nil_iff_forall_not_mem.mpr fun t ht => ?_⟩
  · by_contra hne
    obtain ⟨p, hp, rfl⟩ := Array.mem_iff_getElem.mp hx
    have hmem : (infeasibilities[p], p) ∈ violations infeasibilities :=
      mem_violations.mpr ⟨hp, getD_eq_getElem hp 0, hne⟩
    rw [h] at hmem
    exact List.not_mem_nil hmem
  · obtain ⟨hlt, ht, hne⟩ := mem_violations.mp ht
    exact hne (h t.1 (ht ▸ getD_eq_getElem hlt (0 : ℚ) ▸ Array.getElem_mem hlt))

/-! ## Basis positions in another order -/

section Permuted

variable {n : Nat}

/-- Per basis position what another position had. -/
def permuted {β : Type} (σ : Equiv.Perm (Fin n)) (xs : Array β) (d : β) : Array β :=
  Array.ofFn fun i => xs.getD (σ i) d

/-- The same weights with the basis positions in another order. -/
def permutedWeights (σ : Equiv.Perm (Fin n)) : EdgeWeights (Exact cutoff) →
    EdgeWeights (Exact cutoff)
  | .dantzig => .dantzig
  | .devex weights resets => .devex (permuted σ weights 1) resets
  | .steepestEdge weights => .steepestEdge (permuted σ weights 1)

@[simp]
theorem size_permuted {β : Type} (σ : Equiv.Perm (Fin n)) (xs : Array β) (d : β) :
    (permuted σ xs d).size = n :=
  Array.size_ofFn

theorem getD_permuted {β : Type} (σ : Equiv.Perm (Fin n)) (xs : Array β) (d : β) (i : Fin n) :
    (permuted σ xs d).getD i d = xs.getD (σ i) d := by
  rw [getD_eq_getElem (by rw [size_permuted]; exact i.2)]
  exact Array.getElem_ofFn _

theorem weight_permutedWeights (σ : Equiv.Perm (Fin n)) (w : EdgeWeights (Exact cutoff))
    (i : Fin n) : (permutedWeights σ w).weight i = w.weight (σ i) := by
  cases w with
  | dantzig => rfl
  | devex weights resets => exact getD_permuted σ weights 1 i
  | steepestEdge weights => exact getD_permuted σ weights 1 i

theorem nodup_permuted (σ : Equiv.Perm (Fin n)) (hsize : basicIndex.size = n)
    (hnodup : basicIndex.toList.Nodup) : (permuted σ basicIndex 0).toList.Nodup := by
  rw [permuted, Array.toList_ofFn, List.nodup_ofFn]
  intro i j hij
  have hi : (σ i : Nat) < basicIndex.size := hsize ▸ (σ i).2
  have hj : (σ j : Nat) < basicIndex.size := hsize ▸ (σ j).2
  simp only [getD_eq_getElem hi, getD_eq_getElem hj] at hij
  exact σ.injective (Fin.ext (hnodup.getElem_inj_iff.mp hij))

/-- The places of a permutation are all there are. -/
theorem leads_iff_forall_place (hsize : infeasibilities.size = n) (σ : Equiv.Perm (Fin n))
    {p : Nat} : w.Leads infeasibilities basicIndex p ↔
      p < n ∧ infeasibilities.getD p 0 ≠ 0 ∧
        ∀ j : Fin n, infeasibilities.getD (σ j) 0 ≠ 0 →
          w.priority infeasibilities (σ j) ≤ w.priority infeasibilities p ∧
            (w.priority infeasibilities (σ j) = w.priority infeasibilities p →
              basicIndex.getD p 0 ≤ basicIndex.getD (σ j) 0) := by
  subst hsize
  constructor
  · intro h
    exact ⟨h.lt, h.violated, fun j hj => ⟨h.highest _ (σ j).2 hj, h.lowest _ (σ j).2 hj⟩⟩
  · rintro ⟨hlt, hviolated, hall⟩
    have hplace : ∀ q < infeasibilities.size, infeasibilities.getD q 0 ≠ 0 →
        w.priority infeasibilities q ≤ w.priority infeasibilities p ∧
          (w.priority infeasibilities q = w.priority infeasibilities p →
            basicIndex.getD p 0 ≤ basicIndex.getD q 0) := fun q hq => by
      simpa using hall (σ.symm ⟨q, hq⟩)
    exact ⟨hlt, hviolated, fun q hq hne => (hplace q hq hne).1,
      fun q hq hne => (hplace q hq hne).2⟩

/-- A place leads exactly if the position that has moved to it did. -/
theorem leads_permuted (σ : Equiv.Perm (Fin infeasibilities.size))
    (i : Fin infeasibilities.size) :
    (permutedWeights σ w).Leads (permuted σ infeasibilities 0) (permuted σ basicIndex 0) i ↔
      w.Leads infeasibilities basicIndex (σ i) := by
  have hpriority : ∀ j : Fin infeasibilities.size,
      (permutedWeights σ w).priority (permuted σ infeasibilities 0) j =
        w.priority infeasibilities (σ j) := fun j => by
    rw [priority, priority, weight_permutedWeights, getD_permuted]
  rw [leads_iff_forall_place (size_permuted σ infeasibilities 0) (Equiv.refl _),
    leads_iff_forall_place rfl σ]
  simp only [Equiv.refl_apply, getD_permuted, hpriority, Fin.is_lt]

end Permuted

/-- With exact numbers no position leaves exactly if nothing is violated.  Otherwise one position
leads, and it is chosen.  The same variable leaves however the basis positions are ordered.  None
of this depends on the rule, and it holds for weights of any sign. -/
theorem choosePosition_exact (w : EdgeWeights (Exact cutoff)) (infeasibilities : Array ℚ)
    (basicIndex : Array Nat) (hsize : basicIndex.size = infeasibilities.size)
    (hnodup : basicIndex.toList.Nodup) :
    let chosen := w.choosePosition (infeasibilities.map ofRat) basicIndex
    (chosen = none ↔ ∀ x ∈ infeasibilities, x = 0) ∧
      (∀ p, chosen = some p ↔ w.Leads infeasibilities basicIndex p) ∧
      ((∃ x ∈ infeasibilities, x ≠ 0) → ∃! p, w.Leads infeasibilities basicIndex p) ∧
      ∀ σ : Equiv.Perm (Fin infeasibilities.size),
        ((permutedWeights σ w).choosePosition ((permuted σ infeasibilities 0).map ofRat)
            (permuted σ basicIndex 0)).map ((permuted σ basicIndex 0).getD · 0) =
          chosen.map (basicIndex.getD · 0) := by
  intro chosen
  have hnone : chosen = none ↔ ∀ x ∈ infeasibilities, x = 0 := choosePosition_eq_none_iff w
  have hsome : ∀ p, chosen = some p ↔ w.Leads infeasibilities basicIndex p :=
    fun p => choosePosition_eq_some_iff hsize hnodup
  refine ⟨hnone, hsome, ?_, fun σ => ?_⟩
  · rintro ⟨x, hx, hne⟩
    obtain ⟨p, hp⟩ := Option.ne_none_iff_exists'.mp fun h => hne (hnone.mp h x hx)
    exact ⟨p, (hsome p).mp hp, fun q hq => hq.unique hsize hnodup ((hsome p).mp hp)⟩
  · have hplace : ∀ i : Fin infeasibilities.size,
        (permutedWeights σ w).choosePosition ((permuted σ infeasibilities 0).map ofRat)
          (permuted σ basicIndex 0) = some ↑i ↔ chosen = some ↑(σ i) := fun i => by
      rw [choosePosition_eq_some_iff (by rw [size_permuted, size_permuted])
        (nodup_permuted σ hsize hnodup), leads_permuted, hsome]
    cases hchosen : chosen with
    | none =>
      rw [Option.map_none, Option.map_eq_none_iff, Option.eq_none_iff_forall_ne_some]
      intro q hq
      have hlt : q < (permuted σ infeasibilities 0).size :=
        ((choosePosition_eq_some_iff (by rw [size_permuted, size_permuted])
          (nodup_permuted σ hsize hnodup)).mp hq).lt
      rw [size_permuted] at hlt
      have h := (hplace ⟨q, hlt⟩).mp hq
      rw [hchosen] at h
      exact Option.some_ne_none _ h.symm
    | some p =>
      have hp := ((hsome p).mp hchosen).lt
      have hback := (hplace (σ.symm ⟨p, hp⟩)).mpr (by rw [hchosen, Equiv.apply_symm_apply])
      rw [hback, Option.map_some, Option.map_some, getD_permuted, Equiv.apply_symm_apply]

/-- Three positions are equally good, and the lowest variable leaves from wherever it stands. -/
theorem choosePosition_exact_tied :
    let w : EdgeWeights (Exact 0) := .devex #[1, 4, 1, 4] 0
    let infeasibilities : Array ℚ := #[1, -2, 0, 2]
    let basicIndex := #[7, 3, 0, 5]
    basicIndex.size = infeasibilities.size ∧ basicIndex.toList.Nodup ∧
      w.Leads infeasibilities basicIndex 1 ∧ ∀ σ : Equiv.Perm (Fin infeasibilities.size),
        ((permutedWeights σ w).choosePosition ((permuted σ infeasibilities 0).map ofRat)
          (permuted σ basicIndex 0)).map ((permuted σ basicIndex 0).getD · 0) = some 3 := by
  intro w infeasibilities basicIndex
  have hchosen : w.choosePosition (infeasibilities.map ofRat) basicIndex = some 1 := by
    decide +kernel
  obtain ⟨-, hleads, -, hperm⟩ :=
    choosePosition_exact w infeasibilities basicIndex (by decide) (by decide)
  refine ⟨by decide, by decide, (hleads 1).mp hchosen, fun σ => ?_⟩
  rw [hperm σ, hchosen]
  rfl

end EdgeWeights
end DualSimplex
