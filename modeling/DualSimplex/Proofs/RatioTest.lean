import DualSimplex.RatioTest
import DualSimplex.Proofs.Scalar

/-!
# Results of the ratio test

A search goes in rounds, each of which passes a group of candidates or stops at it.
The entering variable is one of the candidates.  Every candidate that is passed
has a second bound to move to: behind a breakpoint without one nothing is left of
the slope, and a slope that is not a number never ends a test.
-/

namespace DualSimplex

open Scalar

namespace RatioTest

variable {α : Type}

theorem candidates_foldl_push (cs : List (Candidate α)) (test : RatioTest α) :
    (cs.foldl push test).candidates = test.candidates ++ cs := by
  induction cs generalizing test with
  | nil => exact (List.append_nil _).symm
  | cons c cs ih =>
    rw [List.foldl_cons, ih]
    exact List.append_assoc ..

variable [Scalar α]

theorem best_mem (first : Candidate α) (others : List (Candidate α)) :
    best first others ∈ first :: others := by
  induction others generalizing first with
  | nil => exact List.mem_singleton.mpr rfl
  | cons c others ih =>
    have hbest : best first (c :: others) = best
        (if first.alpha < c.alpha ||
            (c.alpha == first.alpha && c.variableIndex < first.variableIndex)
          then c else first) others := rfl
    rw [hbest]
    rcases List.mem_cons.mp (ih _) with h | h
    · rw [h]
      split
      · exact List.mem_cons_of_mem first List.mem_cons_self
      · exact List.mem_cons_self
    · exact List.mem_cons_of_mem first (List.mem_cons_of_mem c h)

theorem exists_of_choose {cs : List (Candidate α)} {j : Nat} {alpha step : α}
    (h : choose cs = .entering j alpha step) :
    ∃ c ∈ cs, c.variableIndex = j ∧ c.alpha = alpha ∧ larger c.ratio 0 = step := by
  cases cs with
  | nil => exact absurd h nofun
  | cons first others =>
    obtain ⟨hj, halpha, hstep⟩ := Result.entering.inj h
    exact ⟨_, best_mem first others, hj, halpha, hstep⟩

theorem foldl_add_posInf (bs : List (Bound α)) : bs.foldl Bound.add .posInf = .posInf := by
  induction bs with
  | nil => rfl
  | cons b bs ih => exact ih

/-- An infinite term decides a sum. -/
theorem sum_eq_posInf {bs : List (Bound α)} (hbs : ∀ b ∈ bs, b ≠ .negInf) (h : .posInf ∈ bs) :
    Bound.sum bs = .posInf := by
  have hfold : ∀ x : α, bs.foldl Bound.add (.finite x) = .posInf := by
    induction bs with
    | nil => exact absurd h List.not_mem_nil
    | cons b bs ih =>
      intro x
      cases b with
      | negInf => exact absurd rfl (hbs _ List.mem_cons_self)
      | posInf => exact foldl_add_posInf bs
      | finite y =>
        have h : .posInf ∈ bs := (List.mem_cons.mp h).resolve_left nofun
        exact ih (fun b hb => hbs b (List.mem_cons_of_mem _ hb)) h (x + y)
  exact hfold (-0)

theorem sum_slopes_eq_posInf {cs : List (Candidate α)} (hcs : ∀ c ∈ cs, c.range ≠ .negInf)
    {c : Candidate α} (hc : c ∈ cs) (hrange : c.range = .posInf) :
    Bound.sum (cs.map slopeOf) = .posInf := by
  refine sum_eq_posInf (fun b hb => ?_) ?_
  · obtain ⟨d, hd, rfl⟩ := List.mem_map.mp hb
    intro e
    unfold slopeOf at e
    cases hr : d.range with
    | negInf => exact hcs d hd hr
    | finite x => rw [hr] at e; exact absurd e nofun
    | posInf => rw [hr] at e; exact absurd e nofun
  · refine List.mem_map.mpr ⟨c, hc, ?_⟩
    unfold slopeOf
    rw [hrange]
    rfl

/-! ## Rounds -/

/-- The group of a round and the candidates behind it. -/
def groups (dualTolerance : α) (cs : List (Candidate α)) :
    List (Candidate α) × List (Candidate α) :=
  split (fun c => (maxStep dualTolerance cs).reaches c.ratio) cs

/-- Whether the slope does not outlast a group. -/
def isLast (primalTolerance slope : α) (group : List (Candidate α)) : Bool :=
  (Bound.sum (group.map slopeOf)).reaches (slope - primalTolerance * (1 + slope))

/-- The rounds of a search up to its end, however many there are. -/
inductive Rounds (dualTolerance primalTolerance : α) :
    α → List (Candidate α) → Outcome α → Prop
  | none {slope : α} : Rounds dualTolerance primalTolerance slope []
      { candidates := [], flips := [], result := .unbounded }
  | last {slope : α} {cs : List (Candidate α)} (hcs : cs ≠ [])
      (hlast : isLast primalTolerance slope (groups dualTolerance cs).1 = true) :
      Rounds dualTolerance primalTolerance slope cs
        { candidates := (groups dualTolerance cs).1 ++ (groups dualTolerance cs).2
          flips := []
          result := choose (groups dualTolerance cs).1 }
  | pass {slope : α} {cs : List (Candidate α)} {o : Outcome α} (hcs : cs ≠ [])
      (hpassed : isLast primalTolerance slope (groups dualTolerance cs).1 = false)
      (rest : Rounds dualTolerance primalTolerance
        (lessSlope slope (Bound.sum ((groups dualTolerance cs).1.map slopeOf)))
        (groups dualTolerance cs).2 o) :
      Rounds dualTolerance primalTolerance slope cs
        { candidates := (groups dualTolerance cs).1 ++ o.candidates
          flips := (groups dualTolerance cs).1.map Candidate.variableIndex ++ o.flips
          result := o.result }

theorem search_cons (dualTolerance primalTolerance slope : α) (fuel : Nat)
    {cs : List (Candidate α)} (hcs : cs ≠ []) :
    search dualTolerance primalTolerance (fuel + 1) slope cs =
      if isLast primalTolerance slope (groups dualTolerance cs).1 = true then
        { candidates := (groups dualTolerance cs).1 ++ (groups dualTolerance cs).2
          flips := []
          result := choose (groups dualTolerance cs).1 }
      else
        let rest := search dualTolerance primalTolerance fuel
          (lessSlope slope (Bound.sum ((groups dualTolerance cs).1.map slopeOf)))
          (groups dualTolerance cs).2
        { candidates := (groups dualTolerance cs).1 ++ rest.candidates
          flips := (groups dualTolerance cs).1.map Candidate.variableIndex ++ rest.flips
          result := rest.result } := by
  cases cs with
  | nil => exact absurd rfl hcs
  | cons first others => rfl

theorem groups_perm (dualTolerance : α) (cs : List (Candidate α)) :
    ((groups dualTolerance cs).1 ++ (groups dualTolerance cs).2).Perm cs :=
  split_perm _ cs

theorem mem_of_mem_groups_fst {dualTolerance : α} {cs : List (Candidate α)} {c : Candidate α}
    (hc : c ∈ (groups dualTolerance cs).1) : c ∈ cs :=
  (groups_perm dualTolerance cs).mem_iff.mp (List.mem_append_left _ hc)

theorem mem_of_mem_groups_snd {dualTolerance : α} {cs : List (Candidate α)} {c : Candidate α}
    (hc : c ∈ (groups dualTolerance cs).2) : c ∈ cs :=
  (groups_perm dualTolerance cs).mem_iff.mp (List.mem_append_right _ hc)

/-- A search that finds an entering variable has not run out of rounds. -/
theorem rounds_of_entering {dualTolerance primalTolerance : α} {fuel : Nat} {slope : α}
    {cs : List (Candidate α)} {j : Nat} {alpha step : α}
    (h : (search dualTolerance primalTolerance fuel slope cs).result = .entering j alpha step) :
    Rounds dualTolerance primalTolerance slope cs
      (search dualTolerance primalTolerance fuel slope cs) := by
  induction fuel generalizing slope cs with
  | zero => exact absurd h nofun
  | succ fuel ih =>
    by_cases hcs : cs = []
    · rw [hcs]
      exact .none
    · rw [search_cons dualTolerance primalTolerance slope fuel hcs] at h ⊢
      by_cases hlast : isLast primalTolerance slope (groups dualTolerance cs).1 = true
      · rw [if_pos hlast]
        exact .last hcs hlast
      · rw [if_neg hlast] at h ⊢
        exact .pass hcs (Bool.eq_false_iff.mpr hlast) (ih h)

/-! ## What a search has found -/

variable [OrderedScalar α]

theorem not_reaches_of_isNaN (b : Bound α) {x : α} (hx : isNaN x = true) : b.reaches x = false := by
  cases b with
  | negInf => rfl
  | posInf => exact congrArg not hx
  | finite y =>
    refine decide_eq_false fun hle => ?_
    rw [(OrderedScalar.isNaN_of_le hle).1] at hx
    exact Bool.false_ne_true hx

theorem isNaN_lessSlope {slope : α} (h : isNaN slope = true) (loss : Bound α) :
    isNaN (lessSlope slope loss) = true := by
  cases loss with
  | negInf => exact OrderedScalar.isNaN_sub slope h
  | posInf => exact OrderedScalar.isNaN_sub slope h
  | finite x => exact OrderedScalar.isNaN_sub x h

theorem isNaN_slope_of_lessSlope {slope : α} {loss : Bound α}
    (h : isNaN (lessSlope slope loss) = false) : isNaN slope = false := by
  by_contra hslope
  rw [Bool.not_eq_false] at hslope
  rw [isNaN_lessSlope hslope] at h
  exact Bool.false_ne_true h.symm

theorem isNaN_slope_of_isLast {slope primalTolerance : α} {group : List (Candidate α)}
    (h : isLast primalTolerance slope group = true) : isNaN slope = false := by
  by_contra hslope
  rw [Bool.not_eq_false] at hslope
  rw [isLast, not_reaches_of_isNaN _ (OrderedScalar.isNaN_sub _ hslope)] at h
  exact Bool.false_ne_true h

/-- Who is passed has a second bound.  Otherwise the loss would be infinite, and the slope
behind it not a number. -/
theorem range_ne_posInf_of_passed {primalTolerance slope : α}
    (htolerance : isFinite primalTolerance = true) {group : List (Candidate α)}
    (hgroup : ∀ c ∈ group, c.range ≠ .negInf) (hpassed : isLast primalTolerance slope group = false)
    (hslope : isNaN (lessSlope slope (Bound.sum (group.map slopeOf))) = false) {c : Candidate α}
    (hc : c ∈ group) : c.range ≠ .posInf := by
  intro hrange
  rw [isLast, sum_slopes_eq_posInf hgroup hc hrange] at hpassed
  rw [sum_slopes_eq_posInf hgroup hc hrange] at hslope
  have hslack : isNaN (slope - primalTolerance * (1 + slope)) = true := by
    by_contra hnot
    rw [Bool.not_eq_true] at hnot
    exact absurd ((congrArg not hnot).symm.trans hpassed) nofun
  have hnan : isNaN (lessSlope slope .posInf) = true :=
    OrderedScalar.isNaN_sub_self htolerance hslack
  rw [hnan] at hslope
  exact Bool.false_ne_true hslope.symm

/-- What a search has found that ends with an entering variable. -/
structure Found (cs : List (Candidate α)) (slope : α) (flips : List Nat) (entering : Nat) :
    Prop where
  isNaN_slope : isNaN slope = false
  entering_mem : ∃ c ∈ cs, c.variableIndex = entering
  flips_bounded : ∀ j ∈ flips, ∃ c ∈ cs, c.variableIndex = j ∧ c.range ≠ .posInf

theorem Rounds.found {dualTolerance primalTolerance slope : α} {cs : List (Candidate α)}
    {o : Outcome α} (h : Rounds dualTolerance primalTolerance slope cs o)
    (htolerance : isFinite primalTolerance = true) (hcs : ∀ c ∈ cs, c.range ≠ .negInf) {j : Nat}
    {alpha step : α} (hresult : o.result = .entering j alpha step) : Found cs slope o.flips j := by
  induction h with
  | none => exact absurd hresult nofun
  | last _ hlast =>
    obtain ⟨c, hc, he, -⟩ := exists_of_choose hresult
    exact ⟨isNaN_slope_of_isLast hlast, ⟨c, mem_of_mem_groups_fst hc, he⟩,
      fun i hi => absurd hi List.not_mem_nil⟩
  | pass _ hpassed _ ih =>
    obtain ⟨hslope, ⟨c, hc, he⟩, hflips⟩ :=
      ih (fun c hc => hcs c (mem_of_mem_groups_snd hc)) hresult
    refine ⟨isNaN_slope_of_lessSlope hslope, ⟨c, mem_of_mem_groups_snd hc, he⟩, fun i hi => ?_⟩
    rcases List.mem_append.mp hi with hi | hi
    · obtain ⟨d, hd, rfl⟩ := List.mem_map.mp hi
      exact ⟨d, mem_of_mem_groups_fst hd, rfl, range_ne_posInf_of_passed htolerance
        (fun c hc => hcs c (mem_of_mem_groups_fst hc)) hpassed hslope hd⟩
    · obtain ⟨d, hd, hindex, hrange⟩ := hflips i hi
      exact ⟨d, mem_of_mem_groups_snd hd, hindex, hrange⟩

end RatioTest
end DualSimplex
