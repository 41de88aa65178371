import DualSimplex.Proofs.RatioStep

/-!
# Groups of breakpoints

A search takes one group after another off the candidates and ends, since each group has a
member.  What it passes leaves some of the slope, and lies before the group that stops it.
The loss behind that group uses up the slope except for the tolerance.
-/

namespace DualSimplex

open Scalar Exact

/-! ## Losses -/

namespace Candidate

variable {cutoff : Rat} {c : Candidate (Exact cutoff)}

/-- What a candidate has to be for a ratio test. -/
structure Proper (c : Candidate (Exact cutoff)) : Prop where
  alpha_pos : 0 < c.alpha.value
  range_nonneg : c.range = .posInf ∨ ∃ x, c.range = .finite x ∧ 0 ≤ x.value

theorem Proper.range_ne (h : c.Proper) : c.range ≠ .negInf := by
  rcases h.range_nonneg with hr | ⟨x, hr, -⟩
  · rw [hr]
    exact nofun
  · rw [hr]
    exact nofun

theorem Proper.exists_range (h : c.Proper) (hrange : c.range ≠ .posInf) :
    ∃ x, c.range = .finite x := by
  rcases h.range_nonneg with hr | ⟨x, hr, -⟩
  · exact absurd hr hrange
  · exact ⟨x, hr⟩

/-- The slope that is lost behind a candidate with two bounds. -/
def loss (c : Candidate (Exact cutoff)) : ℚ :=
  c.alpha.value * c.range.value.value

end Candidate

namespace RatioTest

variable {cutoff : Rat} {dualTolerance primalTolerance slope : Exact cutoff}
  {cs : List (Candidate (Exact cutoff))}

/-- The slope that is lost behind candidates with two bounds. -/
def lossOf (cs : List (Candidate (Exact cutoff))) : ℚ :=
  (cs.map Candidate.loss).sum

theorem lossOf_append (cs ds : List (Candidate (Exact cutoff))) :
    lossOf (cs ++ ds) = lossOf cs + lossOf ds := by
  rw [lossOf, List.map_append, List.sum_append]
  rfl

theorem lossOf_perm {ds : List (Candidate (Exact cutoff))} (h : cs.Perm ds) :
    lossOf cs = lossOf ds :=
  (h.map Candidate.loss).sum_eq

theorem exists_sum_slopes (h : ∀ c ∈ cs, ∃ x, c.range = .finite x) :
    ∃ x, Bound.sum (cs.map slopeOf) = .finite x ∧ x.value = lossOf cs := by
  have hfold : ∀ y : Exact cutoff, ∃ x, (cs.map slopeOf).foldl Bound.add (.finite y) = .finite x ∧
      x.value = y.value + lossOf cs := by
    induction cs with
    | nil => exact fun y => ⟨y, rfl, (add_zero y.value).symm⟩
    | cons c cs ih =>
      intro y
      obtain ⟨r, hr⟩ := h c List.mem_cons_self
      have hslope : slopeOf c = .finite (c.alpha * r) := by
        rw [slopeOf, hr]
        rfl
      have hloss : c.loss = c.alpha.value * r.value := by
        rw [Candidate.loss, hr]
        rfl
      obtain ⟨x, hx, hvalue⟩ := ih (fun d hd => h d (List.mem_cons_of_mem c hd)) (y + c.alpha * r)
      refine ⟨x, ?_, ?_⟩
      · rw [List.map_cons, List.foldl_cons, hslope]
        exact hx
      · rw [hvalue, lossOf, lossOf, List.map_cons, List.sum_cons, hloss, value_add, value_mul,
          add_assoc]
  obtain ⟨x, hx, hvalue⟩ := hfold (-0)
  refine ⟨x, hx, ?_⟩
  rw [hvalue, value_neg, value_zero, neg_zero, zero_add]

/-- A group that does not stop the test leaves more of the slope than the tolerance. -/
theorem loss_lt_of_isLast_eq_false {group : List (Candidate (Exact cutoff))}
    (hgroup : ∀ c ∈ group, ∃ x, c.range = .finite x)
    (hpassed : isLast primalTolerance slope group = false) :
    lossOf group < slope.value - primalTolerance.value * (1 + slope.value) := by
  obtain ⟨x, hx, hvalue⟩ := exists_sum_slopes hgroup
  rw [isLast, hx] at hpassed
  rw [← hvalue]
  exact not_le.mp (of_decide_eq_false hpassed)

/-- What is left of the slope after a group that does not stop the test. -/
theorem exists_lessSlope {group : List (Candidate (Exact cutoff))}
    (hgroup : ∀ c ∈ group, c.Proper) (hslope : 0 < slope.value)
    (hprimal : 0 ≤ primalTolerance.value) (hpassed : isLast primalTolerance slope group = false) :
    (∀ c ∈ group, ∃ x, c.range = .finite x) ∧ lossOf group < slope.value ∧
      (lessSlope slope (Bound.sum (group.map slopeOf))).value = slope.value - lossOf group := by
  have hranges : ∀ c ∈ group, ∃ x, c.range = .finite x := by
    intro c hc
    refine (hgroup c hc).exists_range fun hrange => ?_
    rw [isLast, sum_slopes_eq_posInf (fun d hd => (hgroup d hd).range_ne) hc hrange] at hpassed
    exact Bool.false_ne_true hpassed.symm
  have hlt := loss_lt_of_isLast_eq_false hranges hpassed
  have hallowed : 0 ≤ primalTolerance.value * (1 + slope.value) :=
    mul_nonneg hprimal (by linarith)
  obtain ⟨x, hx, hvalue⟩ := exists_sum_slopes hranges
  refine ⟨hranges, by linarith, ?_⟩
  rw [hx, lessSlope, value_sub, hvalue]

/-- A group that stops the test uses up the slope, up to the tolerance. -/
theorem loss_of_isLast {group : List (Candidate (Exact cutoff))}
    (hgroup : ∀ c ∈ group, c.Proper) (hlast : isLast primalTolerance slope group = true) :
    (∃ c ∈ group, c.range = .posInf) ∨
      slope.value - primalTolerance.value * (1 + slope.value) ≤ lossOf group := by
  by_cases hinfinite : ∃ c ∈ group, c.range = .posInf
  · exact Or.inl hinfinite
  · right
    obtain ⟨x, hx, hvalue⟩ := exists_sum_slopes fun c hc =>
      (hgroup c hc).exists_range fun hrange => hinfinite ⟨c, hc, hrange⟩
    rw [isLast, hx] at hlast
    rw [← hvalue]
    exact of_decide_eq_true hlast

/-! ## The end of a search -/

theorem best_append (first c : Candidate (Exact cutoff)) (others : List (Candidate (Exact cutoff))) :
    best first (others ++ [c]) =
      if (best first others).alpha < c.alpha || (c.alpha == (best first others).alpha &&
          c.variableIndex < (best first others).variableIndex)
        then c else best first others := by
  rw [best, List.foldl_append]
  rfl

/-- The largest pivot element is taken, and of equal ones that with the lowest index. -/
theorem le_best (first : Candidate (Exact cutoff)) (others : List (Candidate (Exact cutoff))) :
    ∀ c ∈ first :: others, c.alpha.value ≤ (best first others).alpha.value ∧
      (c.alpha = (best first others).alpha →
        (best first others).variableIndex ≤ c.variableIndex) := by
  induction others using List.reverseRecOn with
  | nil =>
    intro c hc
    rw [List.mem_singleton.mp hc]
    exact ⟨le_rfl, fun _ => le_rfl⟩
  | append_singleton others d ih =>
    intro c hc
    rw [best_append]
    rw [← List.cons_append] at hc
    by_cases hlarger : (best first others).alpha < d.alpha
    · rw [if_pos (by rw [decide_eq_true hlarger, Bool.true_or])]
      rcases List.mem_append.mp hc with hc | hc
      · have hlt : c.alpha.value < d.alpha.value := (ih c hc).1.trans_lt hlarger
        exact ⟨hlt.le, fun he => absurd (congrArg value he) hlt.ne⟩
      · rw [List.mem_singleton.mp hc]
        exact ⟨le_rfl, fun _ => le_rfl⟩
    · have hle : d.alpha.value ≤ (best first others).alpha.value := not_lt.mp hlarger
      rw [decide_eq_false hlarger, Bool.false_or]
      by_cases htie : (d.alpha == (best first others).alpha &&
          d.variableIndex < (best first others).variableIndex) = true
      · rw [if_pos htie]
        rw [Bool.and_eq_true, beq_iff, decide_eq_true_iff] at htie
        obtain ⟨halpha, hindex⟩ := htie
        rcases List.mem_append.mp hc with hc | hc
        · rw [halpha]
          exact ⟨(ih c hc).1, fun he => hindex.le.trans ((ih c hc).2 he)⟩
        · rw [List.mem_singleton.mp hc]
          exact ⟨le_rfl, fun _ => le_rfl⟩
      · rw [if_neg htie]
        rcases List.mem_append.mp hc with hc | hc
        · exact ih c hc
        · rw [List.mem_singleton.mp hc]
          refine ⟨hle, fun he => not_lt.mp fun hlt => htie ?_⟩
          rw [Bool.and_eq_true, beq_iff, decide_eq_true_iff]
          exact ⟨he, hlt⟩

theorem exists_choose {group : List (Candidate (Exact cutoff))} (hgroup : group ≠ []) :
    ∃ c ∈ group, choose group = .entering c.variableIndex c.alpha (larger c.ratio 0) ∧
      ∀ d ∈ group, d.alpha.value ≤ c.alpha.value ∧
        (d.alpha = c.alpha → c.variableIndex ≤ d.variableIndex) := by
  cases group with
  | nil => exact absurd rfl hgroup
  | cons first others => exact ⟨best first others, best_mem first others, rfl, le_best first others⟩

/-- What is true if the slope outlasts all candidates. -/
structure PassesAll (slope : Exact cutoff) (cs : List (Candidate (Exact cutoff)))
    (flips : List Nat) : Prop where
  bounded : ∀ c ∈ cs, ∃ x, c.range = .finite x
  flips_perm : flips.Perm (cs.map Candidate.variableIndex)
  loss_lt : lossOf cs < slope.value

/-- What is true if a test stops at the candidate `q` of those that are left, after it has
passed the others. -/
structure StopsAt (dualTolerance primalTolerance slope : Exact cutoff)
    (cs passed left : List (Candidate (Exact cutoff))) (q : Candidate (Exact cutoff)) : Prop
    extends EndsAt dualTolerance cs passed left q where
  bounded : ∀ c ∈ passed, ∃ x, c.range = .finite x
  loss_lt : lossOf passed < slope.value
  mem_group : q ∈ foremost dualTolerance left
  largest : ∀ c ∈ foremost dualTolerance left, c.alpha.value ≤ q.alpha.value
  lowest : ∀ c ∈ foremost dualTolerance left, c.alpha = q.alpha →
    q.variableIndex ≤ c.variableIndex
  loss_group : (∃ c ∈ foremost dualTolerance left, c.range = .posInf) ∨
    (slope.value - lossOf passed) - primalTolerance.value * (1 + (slope.value - lossOf passed)) ≤
      lossOf (foremost dualTolerance left)

/-- A group has a member, whose breakpoint is the first one after it is relaxed. -/
theorem foremost_ne_nil (hcs : cs ≠ []) (hproper : ∀ c ∈ cs, c.Proper)
    (hdual : 0 ≤ dualTolerance.value) : foremost dualTolerance cs ≠ [] := by
  obtain ⟨limit, hlimit, hle⟩ := exists_maxStep dualTolerance hcs
  obtain ⟨c, hc, hvalue⟩ := exists_mem_maxStep hcs hlimit
  have hrelaxed : 0 ≤ dualTolerance.value / c.alpha.value :=
    div_nonneg hdual (hproper c hc).alpha_pos.le
  refine List.ne_nil_of_mem (mem_foremost.mpr ⟨hc, fun d hd => ?_⟩)
  have hd := hle d hd
  linarith

theorem length_groups_snd_lt (hcs : cs ≠ []) (hproper : ∀ c ∈ cs, c.Proper)
    (hdual : 0 ≤ dualTolerance.value) : (groups dualTolerance cs).2.length < cs.length := by
  have hlength := (groups_perm dualTolerance cs).length_eq
  rw [groups_fst, List.length_append] at hlength
  have hpos := List.length_pos_iff.mpr (foremost_ne_nil hcs hproper hdual)
  omega

/-- As many rounds as there are candidates are enough. -/
theorem rounds_search (hdual : 0 ≤ dualTolerance.value) (primalTolerance : Exact cutoff)
    {fuel : Nat} (slope : Exact cutoff) {cs : List (Candidate (Exact cutoff))}
    (hproper : ∀ c ∈ cs, c.Proper) (hfuel : cs.length ≤ fuel) :
    Rounds dualTolerance primalTolerance slope cs
      (search dualTolerance primalTolerance fuel slope cs) := by
  induction fuel generalizing slope cs with
  | zero =>
    rw [List.length_eq_zero_iff.mp (Nat.le_zero.mp hfuel)]
    exact .none
  | succ fuel ih =>
    by_cases hcs : cs = []
    · rw [hcs]
      exact .none
    · rw [search_cons dualTolerance primalTolerance slope fuel hcs]
      by_cases hlast : isLast primalTolerance slope (groups dualTolerance cs).1 = true
      · rw [if_pos hlast]
        exact .last hcs hlast
      · rw [if_neg hlast]
        have hshorter := length_groups_snd_lt hcs hproper hdual
        exact .pass hcs (Bool.eq_false_iff.mpr hlast)
          (ih _ (fun c hc => hproper c (mem_of_mem_groups_snd hc)) (by omega))

variable {o : Outcome (Exact cutoff)}

theorem Rounds.passesAll (h : Rounds dualTolerance primalTolerance slope cs o)
    (hproper : ∀ c ∈ cs, c.Proper) (hslope : 0 < slope.value) (hdual : 0 ≤ dualTolerance.value)
    (hprimal : 0 ≤ primalTolerance.value) (hresult : o.result = .unbounded) :
    PassesAll slope cs o.flips := by
  induction h with
  | none => exact ⟨nofun, .nil, hslope⟩
  | @last slope cs hcs _ =>
    have hgroup := foremost_ne_nil hcs hproper hdual
    rw [← groups_fst] at hgroup
    obtain ⟨q, -, hchoose, -⟩ := exists_choose hgroup
    exact absurd (hchoose.symm.trans hresult) nofun
  | @pass slope cs o hcs hpassed _ ih =>
    have hperm := groups_perm dualTolerance cs
    rw [groups_fst] at hperm hpassed ih ⊢
    have hforemost : ∀ c ∈ foremost dualTolerance cs, c.Proper :=
      fun c hc => hproper c (mem_foremost.mp hc).1
    obtain ⟨hranges, hloss, hless⟩ := exists_lessSlope hforemost hslope hprimal hpassed
    obtain ⟨hbounded, hflips, hrest⟩ := ih (fun c hc => hproper c (mem_of_mem_groups_snd hc))
      (by rw [hless]; linarith) hresult
    rw [hless] at hrest
    refine ⟨fun c hc => ?_, ?_, ?_⟩
    · rcases List.mem_append.mp (hperm.mem_iff.mpr hc) with hc | hc
      · exact hranges c hc
      · exact hbounded c hc
    · have hindices := hperm.map Candidate.variableIndex
      rw [List.map_append] at hindices
      exact (hflips.append_left _).trans hindices
    · rw [← lossOf_perm hperm, lossOf_append]
      linarith

theorem Rounds.stopsAt (h : Rounds dualTolerance primalTolerance slope cs o)
    (hproper : ∀ c ∈ cs, c.Proper) (hslope : 0 < slope.value) (hdual : 0 ≤ dualTolerance.value)
    (hprimal : 0 ≤ primalTolerance.value) {j : Nat} {alpha step : Exact cutoff}
    (hresult : o.result = .entering j alpha step) :
    ∃ passed left q, StopsAt dualTolerance primalTolerance slope cs passed left q ∧
      o.flips = passed.map Candidate.variableIndex ∧
      j = q.variableIndex ∧ alpha = q.alpha ∧ step.value = max q.ratio.value 0 := by
  induction h with
  | none => exact absurd hresult nofun
  | @last slope cs hcs hlast =>
    have hgroup := foremost_ne_nil hcs hproper hdual
    rw [groups_fst] at hlast hresult
    obtain ⟨q, hq, hchoose, hbest⟩ := exists_choose hgroup
    obtain ⟨rfl, rfl, rfl⟩ := Result.entering.inj (hchoose.symm.trans hresult)
    have hloss := loss_of_isLast (fun c hc => hproper c (mem_foremost.mp hc).1) hlast
    refine ⟨[], cs, q, ⟨endsAt_of_mem_foremost hq, nofun, hslope, hq, fun c hc => (hbest c hc).1,
      fun c hc => (hbest c hc).2, ?_⟩, rfl, rfl, rfl, value_larger q.ratio 0⟩
    rw [show lossOf ([] : List (Candidate (Exact cutoff))) = 0 from rfl, sub_zero]
    exact hloss
  | @pass slope cs o hcs hpassed _ ih =>
    rw [groups_fst] at hpassed ih ⊢
    have hforemost : ∀ c ∈ foremost dualTolerance cs, c.Proper :=
      fun c hc => hproper c (mem_foremost.mp hc).1
    obtain ⟨hranges, hloss, hless⟩ := exists_lessSlope hforemost hslope hprimal hpassed
    obtain ⟨passed, left, q, hstops, hflips, hj, halpha, hstep⟩ :=
      ih (fun c hc => hproper c (mem_of_mem_groups_snd hc)) (by rw [hless]; linarith) hresult
    have hleft : slope.value - lossOf (foremost dualTolerance cs ++ passed) =
        slope.value - lossOf (foremost dualTolerance cs) - lossOf passed := by
      rw [lossOf_append, sub_sub]
    refine ⟨foremost dualTolerance cs ++ passed, left, q,
      { hstops with toEndsAt := hstops.toEndsAt.pass, bounded := ?_, loss_lt := ?_,
                    loss_group := ?_ }, ?_, hj, halpha, hstep⟩
    · intro c hc
      rcases List.mem_append.mp hc with hc | hc
      · exact hranges c hc
      · exact hstops.bounded c hc
    · have hrest := hstops.loss_lt
      rw [hless] at hrest
      rw [lossOf_append]
      linarith
    · have hgroup := hstops.loss_group
      rw [hless] at hgroup
      rw [hleft]
      exact hgroup
    · dsimp only
      rw [hflips, List.map_append]

/-- A ratio test ends.  Either the slope outlasts all candidates, each of which has another
bound to move to, or the test stops at the first group that uses up what is left of the
slope, and takes the largest pivot element of it. -/
theorem run_stops_or_passes_all (t : RatioTest (Exact cutoff))
    (hproper : ∀ c ∈ t.candidates, c.Proper) (hslope : 0 < slope.value)
    (hdual : 0 ≤ dualTolerance.value) (hprimal : 0 ≤ primalTolerance.value) :
    Rounds dualTolerance primalTolerance slope t.candidates
      { candidates := (t.run slope dualTolerance primalTolerance).1.candidates
        flips := (t.run slope dualTolerance primalTolerance).1.flips
        result := (t.run slope dualTolerance primalTolerance).2 } ∧
    ((t.run slope dualTolerance primalTolerance).2 = .unbounded →
      PassesAll slope t.candidates (t.run slope dualTolerance primalTolerance).1.flips) ∧
    (∀ j alpha step,
      (t.run slope dualTolerance primalTolerance).2 = .entering j alpha step →
      ∃ passed left q,
        StopsAt dualTolerance primalTolerance slope t.candidates passed left q ∧
        (t.run slope dualTolerance primalTolerance).1.flips =
          passed.map Candidate.variableIndex ∧
        j = q.variableIndex ∧ alpha = q.alpha ∧ step.value = max q.ratio.value 0) := by
  have hrounds := rounds_search hdual primalTolerance slope hproper (Nat.le_refl _)
  refine ⟨hrounds, fun hresult => ?_, fun j alpha step hresult => ?_⟩
  · exact hrounds.passesAll hproper hslope hdual hprimal hresult
  · exact hrounds.stopsAt hproper hslope hdual hprimal hresult

deriving instance DecidableEq for Result

/-- A candidate with two bounds before one without a second. -/
def boxedThenFree : RatioTest (Exact 0) :=
  { candidates :=
      [{ variableIndex := 0, alpha := 1, ratio := 1, range := .finite (ofRat 2) },
       { variableIndex := 1, alpha := ofRat 2, ratio := ofRat 3, range := .posInf }]
    flips := [] }

theorem boxedThenFree_proper : ∀ c ∈ boxedThenFree.candidates, c.Proper := by
  intro c hc
  rcases List.mem_cons.mp hc with rfl | hc
  · exact ⟨by decide, Or.inr ⟨ofRat 2, rfl, by decide⟩⟩
  · rw [List.mem_singleton.mp hc]
    exact ⟨by decide, Or.inl rfl⟩

theorem boxedThenFree_stops : ∃ passed left q,
    StopsAt 0 0 (ofRat 5) boxedThenFree.candidates passed left q ∧
      passed.map Candidate.variableIndex = [0] ∧ q.variableIndex = 1 := by
  have hresult : (boxedThenFree.run (ofRat 5) 0 0).2 = .entering 1 (ofRat 2) (ofRat 3) := by
    decide +kernel
  have hflips : (boxedThenFree.run (ofRat 5) 0 0).1.flips = [0] := by decide +kernel
  obtain ⟨passed, left, q, hstops, hpassed, hj, -⟩ :=
    (run_stops_or_passes_all boxedThenFree boxedThenFree_proper (by decide) le_rfl le_rfl).2.2
      1 (ofRat 2) (ofRat 3) hresult
  exact ⟨passed, left, q, hstops, hpassed.symm.trans hflips, hj.symm⟩

end RatioTest
end DualSimplex
