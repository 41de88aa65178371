import DualSimplex.Proofs.Engine.Iteration
import DualSimplex.Proofs.Exact

/-!
# Relaxed bounds

A bound is relaxed by moving it outwards, to the value of a basic variable that violates
it.  A status that relaxed bounds allow was allowed before as well, so that bounds can be
brought back without moving a variable to another status.
-/

namespace DualSimplex

open Scalar Exact

namespace Interval

/-- Bounds that have been moved outwards from `b`.  Every status that they allow was
allowed before. -/
structure Widens (b' b : Interval (Exact 0)) : Prop where
  ordered : b'.lower.above b'.upper = false
  allows : ∀ s, b'.allows s = true → b.allows s = true

variable {b : Interval (Exact 0)} {x : Exact 0}

theorem widens_lower (h : b.Proper) (hordered : b.lower.above b.upper = false)
    (hx : b.lower.exceeds x = true) : (Interval.mk (.finite x) b.upper).Widens b := by
  obtain ⟨lower, upper⟩ := b
  cases lower with
  | negInf => exact absurd hx nofun
  | posInf => exact absurd rfl h.lower_ne
  | finite l =>
    have hlt : x.value < l.value := of_decide_eq_true hx
    cases upper with
    | negInf => exact absurd rfl h.upper_ne
    | posInf =>
      refine ⟨rfl, fun s hs => ?_⟩
      cases s with
      | basic | atLower => rfl
      | atUpper | free | fixed => exact absurd hs nofun
    | finite u =>
      have hordered : l.value ≤ u.value := not_lt.mp (of_decide_eq_false hordered)
      refine ⟨decide_eq_false (not_lt.mpr (hlt.le.trans hordered)), fun s hs => ?_⟩
      cases s with
      | basic | atLower | atUpper => rfl
      | free => exact absurd hs nofun
      | fixed =>
        have hsame : x = u := beq_iff.mp hs
        rw [hsame] at hlt
        exact absurd (hlt.trans_le hordered) (lt_irrefl _)

theorem widens_upper (h : b.Proper) (hordered : b.lower.above b.upper = false)
    (hx : b.upper.isBelow x = true) : (Interval.mk b.lower (.finite x)).Widens b := by
  obtain ⟨lower, upper⟩ := b
  cases upper with
  | negInf => exact absurd rfl h.upper_ne
  | posInf => exact absurd hx nofun
  | finite u =>
    have hlt : u.value < x.value := of_decide_eq_true hx
    cases lower with
    | posInf => exact absurd rfl h.lower_ne
    | negInf =>
      refine ⟨rfl, fun s hs => ?_⟩
      cases s with
      | basic | atUpper => rfl
      | atLower | free | fixed => exact absurd hs nofun
    | finite l =>
      have hordered : l.value ≤ u.value := not_lt.mp (of_decide_eq_false hordered)
      refine ⟨decide_eq_false (not_lt.mpr (hordered.trans hlt.le)), fun s hs => ?_⟩
      cases s with
      | basic | atLower | atUpper => rfl
      | free => exact absurd hs nofun
      | fixed =>
        have hsame : l = x := beq_iff.mp hs
        rw [← hsame] at hlt
        exact absurd (hordered.trans_lt hlt) (lt_irrefl _)

theorem not_above_auxiliary (b : Interval (Exact 0)) :
    b.auxiliary.lower.above b.auxiliary.upper = false := by
  unfold auxiliary
  cases b.kind with
  | free | lower | upper | boxed | fixed => decide +kernel

end Interval

namespace Engine

variable {t : Job (Exact 0)} {e e' : Engine (Exact 0)}

/-- No bounds contradict each other, now or before they were relaxed, and relaxing has
not allowed any status. -/
structure Widened (e : Engine (Exact 0)) : Prop where
  ordered : ∀ j, (e.boundsOf j).lower.above (e.boundsOf j).upper = false
  relaxed : ∀ r ∈ e.relaxed, r.2.lower.above r.2.upper = false ∧
    ∀ s, (e.boundsOf r.1).allows s = true → r.2.allows s = true

theorem Widened.congr (h : e.Widened) (hbounds : e'.bounds = e.bounds)
    (hrelaxed : e'.relaxed = e.relaxed) : e'.Widened := by
  have hsame : e'.boundsOf = e.boundsOf := by
    unfold Engine.boundsOf
    rw [hbounds]
  refine ⟨fun j => ?_, fun r hr => ?_⟩
  · rw [hsame]
    exact h.ordered j
  · rw [hsame]
    exact h.relaxed r (hrelaxed ▸ hr)

theorem Widened.of_setting (h : e.Widened) (hsetting : e'.setting = e.setting) : e'.Widened :=
  h.congr (bounds_congr hsetting) (relaxed_congr hsetting)

/-- The bounds of a program are no relaxed ones. -/
theorem widened_of_bounds {bounds : Array (Interval (Exact 0))}
    (hordered : ∀ b ∈ bounds, b.lower.above b.upper = false) (hbounds : e.bounds = bounds)
    (hrelaxed : e.relaxed = []) : e.Widened := by
  refine ⟨fun j => ?_, fun r hr => ?_⟩
  · unfold Engine.boundsOf
    rw [hbounds]
    by_cases hj : j < bounds.size
    · rw [getD_eq_getElem hj]
      exact hordered _ (Array.getElem_mem hj)
    · rw [getD_of_size_le (not_lt.mp hj)]
      rfl
  · rw [hrelaxed] at hr
    exact absurd hr List.not_mem_nil

theorem relaxBound_cases (h : e.Widened) {j : Nat} (hproper : (e.boundsOf j).Proper) :
    e.relaxBound j = e ∨ ∃ b : Interval (Exact 0), b.Widens (e.boundsOf j) ∧
      e.relaxBound j = { e with relaxed := (j, e.boundsOf j) :: e.relaxed }.setBounds j b := by
  unfold Engine.relaxBound
  dsimp only
  split
  · rename_i hlower
    exact Or.inr ⟨_, Interval.widens_lower hproper (h.ordered j) hlower, rfl⟩
  · split
    · rename_i hupper
      exact Or.inr ⟨_, Interval.widens_upper hproper (h.ordered j) hupper, rfl⟩
    · exact Or.inl rfl

theorem Widened.relaxBound (h : e.Widened) {j : Nat} (hproper : (e.boundsOf j).Proper) :
    (e.relaxBound j).Widened := by
  rcases relaxBound_cases h hproper with hsame | ⟨b, hb, heq⟩
  · rw [hsame]
    exact h
  · have hbounds : ∀ k, (e.relaxBound j).boundsOf k =
        if j = k ∧ k < e.bounds.size then b else e.boundsOf k := by
      intro k
      rw [heq]
      exact boundsOf_setBounds { e with relaxed := (j, e.boundsOf j) :: e.relaxed } j k b
    have hallows : ∀ k s, ((e.relaxBound j).boundsOf k).allows s = true →
        (e.boundsOf k).allows s = true := by
      intro k s hs
      rw [hbounds] at hs
      split at hs
      · rename_i hk
        rw [← hk.1]
        exact hb.allows s hs
      · exact hs
    have hrelaxed : (e.relaxBound j).relaxed = (j, e.boundsOf j) :: e.relaxed := by
      rw [heq]
      rfl
    refine ⟨fun k => ?_, fun r hr => ?_⟩
    · rw [hbounds]
      split
      · exact hb.ordered
      · exact h.ordered k
    · rw [hrelaxed] at hr
      rcases List.mem_cons.mp hr with rfl | hr
      · exact ⟨h.ordered j, hallows j⟩
      · exact ⟨(h.relaxed r hr).1, fun s hs => (h.relaxed r hr).2 s (hallows r.1 s hs)⟩

theorem duals_relaxBound (e : Engine (Exact 0)) (j : Nat) :
    (e.relaxBound j).status = e.status ∧ (e.relaxBound j).reducedCost = e.reducedCost := by
  unfold Engine.relaxBound
  dsimp only
  split
  · exact ⟨rfl, rfl⟩
  · split
    · exact ⟨rfl, rfl⟩
    · exact ⟨rfl, rfl⟩

/-- Bounds that allow the status of a variable can be brought back without moving it. -/
theorem statusOf_undoRelaxation {j : Nat} {b : Interval (Exact 0)}
    (hlt : e.statusOf j ≠ .basic → j < e.bounds.size) (hb : b.allows (e.statusOf j) = true)
    (k : Nat) : (e.undoRelaxation j b).statusOf k = e.statusOf k := by
  unfold Engine.undoRelaxation
  dsimp only
  split
  · rfl
  · rename_i hbasic
    have hbounds : (e.setBounds j b).boundsOf j = b := by
      rw [boundsOf_setBounds, if_pos ⟨rfl, hlt fun hc => hbasic (decide_eq_true hc)⟩]
    have hallowed :
        ((e.setBounds j b).boundsOf j).allows ((e.setBounds j b).statusOf j) = true := by
      rw [hbounds]
      exact hb
    unfold Engine.restAgain
    dsimp only
    rw [if_pos hallowed, statusOf_rest]
    split
    · rename_i hjk
      rw [← hjk.1]
      rfl
    · rfl

/-- When all relaxations have been taken back every variable has its status still. -/
theorem foldl_undoRelaxation (l : List (Nat × Interval (Exact 0))) (e : Engine (Exact 0))
    (hlt : ∀ j, e.statusOf j ≠ .basic → j < e.bounds.size)
    (hordered : ∀ j, (e.boundsOf j).lower.above (e.boundsOf j).upper = false)
    (hl : ∀ r ∈ l, r.2.lower.above r.2.upper = false ∧ r.2.allows (e.statusOf r.1) = true) :
    let e' := l.foldl (fun e r => e.undoRelaxation r.1 r.2) e
    (∀ j, e'.statusOf j = e.statusOf j) ∧ e'.reducedCost = e.reducedCost ∧
      ∀ j, (e'.boundsOf j).lower.above (e'.boundsOf j).upper = false := by
  induction l generalizing e with
  | nil => exact ⟨fun j => rfl, rfl, hordered⟩
  | cons r l ih =>
    obtain ⟨hr, hallows⟩ := hl r List.mem_cons_self
    have hstatus := statusOf_undoRelaxation (hlt r.1) hallows
    have hsetting := setting_undoRelaxation e r.1 r.2
    have hreduced : (e.undoRelaxation r.1 r.2).reducedCost = e.reducedCost := by
      unfold Engine.undoRelaxation
      dsimp only
      split
      · rfl
      · rfl
    obtain ⟨ihstatus, ihreduced, ihordered⟩ := ih (e.undoRelaxation r.1 r.2)
      (fun j hj => by
        rw [bounds_congr hsetting]
        exact (hlt j (hstatus j ▸ hj)).trans_eq Array.size_setIfInBounds.symm)
      (fun j => by
        rw [boundsOf_congr hsetting, boundsOf_setBounds]
        split
        · exact hr
        · exact hordered j)
      (fun r' hr' => by
        rw [hstatus]
        exact hl r' (List.mem_cons_of_mem r hr'))
    exact ⟨fun j => (ihstatus j).trans (hstatus j), ihreduced.trans hreduced, ihordered⟩

theorem Widened.undoRelaxations (h : e.Widened) (hsound : e.Sound t)
    (hundo : e.undoRelaxations? = some e') :
    e'.Widened ∧ (∀ j, e'.statusOf j = e.statusOf j) ∧ e'.reducedCost = e.reducedCost := by
  obtain ⟨hstatus, hreduced, hordered⟩ := foldl_undoRelaxation e.relaxed e
    (fun j hj => (hsound.lt_of_statusOf_ne hj).trans_eq hsound.size_bounds.symm) h.ordered
    (fun r hr => ⟨(h.relaxed r hr).1, (h.relaxed r hr).2 _ (hsound.rests r.1).allows⟩)
  rw [(of_undoRelaxations hundo).2]
  exact ⟨⟨hordered, nofun⟩, hstatus, hreduced⟩

end Engine
end DualSimplex
