import DualSimplex.Proofs.RatioGroups

/-!
# Ratio tests and the order of candidates

Candidates come in the order in which two sparse vectors list their entries, and every round
of a search shuffles those that are left.  With exact numbers neither makes a difference.  A
round splits off the same group whatever the order is, the loss behind the group does not
depend on it either, and since the choice within the last group is by pivot element and then
by index, no two candidates are equally good.
-/

namespace DualSimplex

open Scalar Exact

namespace Bound

variable {cutoff : Rat}

/-- Terms change places unless they are infinite in opposite directions. -/
theorem add_swap {x y : Bound (Exact cutoff)} (hx : x ≠ .negInf) (hy : y ≠ .negInf)
    (z : Bound (Exact cutoff)) : (z.add x).add y = (z.add y).add x := by
  cases z with
  | negInf => rfl
  | posInf => rfl
  | finite z =>
    cases x with
    | negInf => exact absurd rfl hx
    | posInf =>
      cases y with
      | negInf => exact absurd rfl hy
      | posInf => rfl
      | finite y => rfl
    | finite x =>
      cases y with
      | negInf => exact absurd rfl hy
      | posInf => rfl
      | finite y =>
        refine congrArg Bound.finite (eq_iff.mpr ⟨?_, rfl⟩)
        exact add_right_comm z.value x.value y.value

theorem sum_perm {bs cs : List (Bound (Exact cutoff))} (h : bs.Perm cs)
    (hbs : ∀ b ∈ bs, b ≠ .negInf) : sum bs = sum cs :=
  h.foldl_eq' (fun x hx y hy z => add_swap (hbs x hx) (hbs y hy) z) _

end Bound

/-- A pivot element that is a number, not the mark of a cancelled entry, and a range that is
not below all numbers. -/
structure Candidate.Plain {cutoff : Rat} (c : Candidate (Exact cutoff)) : Prop where
  alpha_unmarked : c.alpha.marked = false
  range_ne : c.range ≠ .negInf

namespace RatioTest

variable {cutoff : Rat} {dualTolerance primalTolerance slope : Exact cutoff}
  {cs ds : List (Candidate (Exact cutoff))}

/-! ## One round -/

theorem foremost_perm (dualTolerance : Exact cutoff) (h : cs.Perm ds) :
    (foremost dualTolerance cs).Perm (foremost dualTolerance ds) := by
  have hsame : (fun c : Candidate (Exact cutoff) =>
        cs.all fun d => decide (c.ratio ≤ d.ratio + dualTolerance / d.alpha)) =
      fun c => ds.all fun d => decide (c.ratio ≤ d.ratio + dualTolerance / d.alpha) :=
    funext fun c => h.all_eq
  unfold foremost
  rw [hsame]
  exact h.filter _

/-- A round splits permuted candidates into the same group and the same others. -/
theorem groups_perm_of_perm (dualTolerance : Exact cutoff) (h : cs.Perm ds) :
    (groups dualTolerance cs).1.Perm (groups dualTolerance ds).1 ∧
      (groups dualTolerance cs).2.Perm (groups dualTolerance ds).2 := by
  have hgroup : (groups dualTolerance cs).1.Perm (groups dualTolerance ds).1 := by
    rw [groups_fst, groups_fst]
    exact foremost_perm dualTolerance h
  have hall := ((groups_perm dualTolerance cs).trans h).trans (groups_perm dualTolerance ds).symm
  refine ⟨hgroup, (List.perm_append_left_iff (groups dualTolerance cs).1).mp ?_⟩
  exact hall.trans (hgroup.symm.append_right _)

theorem sum_slopes_perm (h : cs.Perm ds) (hplain : ∀ c ∈ cs, c.Plain) :
    Bound.sum (cs.map slopeOf) = Bound.sum (ds.map slopeOf) := by
  refine Bound.sum_perm (h.map slopeOf) fun b hb => ?_
  obtain ⟨c, hc, rfl⟩ := List.mem_map.mp hb
  have hrange := (hplain c hc).range_ne
  unfold slopeOf
  cases hr : c.range with
  | negInf => exact absurd hr hrange
  | finite x => exact nofun
  | posInf => exact nofun

/-- The largest pivot element with the lowest index belongs to one candidate only. -/
theorem choose_perm (h : cs.Perm ds) (hdistinct : (cs.map Candidate.variableIndex).Nodup)
    (hplain : ∀ c ∈ cs, c.Plain) : choose cs = choose ds := by
  by_cases hcs : cs = []
  · subst hcs
    rw [List.nil_perm.mp h]
  · have hds : ds ≠ [] := fun hds => hcs (List.perm_nil.mp (hds ▸ h))
    obtain ⟨c, hc, hchoose, hbest⟩ := exists_choose hcs
    obtain ⟨d, hd, hchoose', hbest'⟩ := exists_choose hds
    have hd : d ∈ cs := h.mem_iff.mpr hd
    have hvalue : c.alpha.value = d.alpha.value :=
      le_antisymm (hbest' c (h.mem_iff.mp hc)).1 (hbest d hd).1
    have halpha : c.alpha = d.alpha := eq_iff.mpr ⟨hvalue,
      (hplain c hc).alpha_unmarked.trans (hplain d hd).alpha_unmarked.symm⟩
    have hindex : c.variableIndex = d.variableIndex :=
      le_antisymm ((hbest d hd).2 halpha.symm) ((hbest' c (h.mem_iff.mp hc)).2 halpha)
    rw [hchoose, hchoose', List.inj_on_of_nodup_map hdistinct hc hd hindex]

/-! ## A whole search -/

/-- Outcomes that differ in the order of candidates and of flips alone. -/
structure Outcome.Agrees (o o' : Outcome (Exact cutoff)) : Prop where
  result : o.result = o'.result
  flips : o.flips.Perm o'.flips
  candidates : o.candidates.Perm o'.candidates

/-- Permuted candidates go through the same rounds. -/
theorem search_agrees (fuel : Nat) (slope : Exact cutoff) (h : cs.Perm ds)
    (hdistinct : (cs.map Candidate.variableIndex).Nodup) (hplain : ∀ c ∈ cs, c.Plain) :
    (search dualTolerance primalTolerance fuel slope cs).Agrees
      (search dualTolerance primalTolerance fuel slope ds) := by
  induction fuel generalizing slope cs ds with
  | zero => exact ⟨rfl, .nil, h⟩
  | succ fuel ih =>
    by_cases hcs : cs = []
    · subst hcs
      rw [List.nil_perm.mp h]
      exact ⟨rfl, .refl _, .refl _⟩
    · have hds : ds ≠ [] := fun hds => hcs (List.perm_nil.mp (hds ▸ h))
      obtain ⟨hgroup, hothers⟩ := groups_perm_of_perm dualTolerance h
      have hsplit := groups_perm dualTolerance cs
      have hindices : ((groups dualTolerance cs).1.map Candidate.variableIndex ++
          (groups dualTolerance cs).2.map Candidate.variableIndex).Nodup := by
        rw [← List.map_append]
        exact (hsplit.map _).nodup_iff.mpr hdistinct
      have hplainGroup : ∀ c ∈ (groups dualTolerance cs).1, c.Plain :=
        fun c hc => hplain c (hsplit.mem_iff.mp (List.mem_append_left _ hc))
      have hplainOthers : ∀ c ∈ (groups dualTolerance cs).2, c.Plain :=
        fun c hc => hplain c (mem_of_mem_groups_snd hc)
      have hloss := sum_slopes_perm hgroup hplainGroup
      have hlast : isLast primalTolerance slope (groups dualTolerance cs).1 =
          isLast primalTolerance slope (groups dualTolerance ds).1 := by
        unfold isLast
        rw [hloss]
      rw [search_cons _ _ _ _ hcs, search_cons _ _ _ _ hds, ← hlast, ← hloss]
      split
      · exact ⟨choose_perm hgroup hindices.of_append_left hplainGroup, .nil,
          hgroup.append hothers⟩
      · obtain ⟨hresult, hflips, hcandidates⟩ := ih
          (lessSlope slope (Bound.sum ((groups dualTolerance cs).1.map slopeOf))) hothers
          hindices.of_append_right hplainOthers
        exact ⟨hresult, (hgroup.map _).append hflips, hgroup.append hcandidates⟩

/-- A search shuffles its candidates. -/
theorem search_candidates_perm (fuel : Nat) (slope : Exact cutoff)
    (cs : List (Candidate (Exact cutoff))) :
    (search dualTolerance primalTolerance fuel slope cs).candidates.Perm cs := by
  induction fuel generalizing slope cs with
  | zero => exact .refl cs
  | succ fuel ih =>
    by_cases hcs : cs = []
    · rw [hcs]
      exact .refl []
    · have hsplit := groups_perm dualTolerance cs
      rw [search_cons _ _ _ _ hcs]
      split
      · exact hsplit
      · exact ((ih _ _).append_left _).trans hsplit

theorem run_pushed (slope dualTolerance primalTolerance : Exact cutoff)
    (cs : List (Candidate (Exact cutoff))) :
    (cs.foldl push empty).run slope dualTolerance primalTolerance =
      let o := search dualTolerance primalTolerance cs.length slope cs
      ({ candidates := o.candidates, flips := o.flips }, o.result) := by
  have hpushed : (cs.foldl push empty).candidates = cs := candidates_foldl_push cs empty
  unfold run
  rw [hpushed]

/-- In whichever of two orders the candidates are pushed, a ratio test has the same result
and flips the same variables.  Its candidates are shuffled, but none is lost. -/
theorem run_regardless_of_order (slope dualTolerance primalTolerance : Exact cutoff)
    (h : cs.Perm ds) (hdistinct : (cs.map Candidate.variableIndex).Nodup)
    (hplain : ∀ c ∈ cs, c.Plain) :
    let o := (cs.foldl push empty).run slope dualTolerance primalTolerance
    let o' := (ds.foldl push empty).run slope dualTolerance primalTolerance
    o.2 = o'.2 ∧ o.1.flips.Perm o'.1.flips ∧ (∀ j, j ∈ o.1.flips ↔ j ∈ o'.1.flips) ∧
      o.1.candidates.Perm cs ∧ o'.1.candidates.Perm ds := by
  intro o o'
  have hagrees : (search dualTolerance primalTolerance cs.length slope cs).Agrees
      (search dualTolerance primalTolerance ds.length slope ds) := by
    rw [← h.length_eq]
    exact search_agrees cs.length slope h hdistinct hplain
  have ho : o = _ := run_pushed slope dualTolerance primalTolerance cs
  have ho' : o' = _ := run_pushed slope dualTolerance primalTolerance ds
  rw [ho, ho']
  exact ⟨hagrees.result, hagrees.flips, fun j => hagrees.flips.mem_iff,
    search_candidates_perm _ _ cs, search_candidates_perm _ _ ds⟩

/-- The candidate without a second bound stops the test also if it is pushed first. -/
theorem boxedThenFree_reversed :
    ((boxedThenFree.candidates.reverse.foldl push empty).run (ofRat 5) 0 0).2 =
        .entering 1 (ofRat 2) (ofRat 3) ∧
      0 ∈ ((boxedThenFree.candidates.reverse.foldl push empty).run (ofRat 5) 0 0).1.flips := by
  have hplain : ∀ c ∈ boxedThenFree.candidates, c.Plain := by
    intro c hc
    refine ⟨?_, (boxedThenFree_proper c hc).range_ne⟩
    rcases List.mem_cons.mp hc with rfl | hc
    · rfl
    · rw [List.mem_singleton.mp hc]
      rfl
  obtain ⟨hresult, -, hflips, -⟩ := run_regardless_of_order (ofRat 5) 0 0
    (List.reverse_perm boxedThenFree.candidates).symm (by decide) hplain
  refine ⟨hresult.symm.trans ?_, (hflips 0).mp ?_⟩
  · decide +kernel
  · decide +kernel

end RatioTest
end DualSimplex
