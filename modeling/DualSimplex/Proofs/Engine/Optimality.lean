import DualSimplex.Proofs.Engine.Factors
import DualSimplex.Proofs.Engine.ReportedValues

/-!
# Optimal solutions

A run ends as optimal only after a review, which looks at the bounds and costs of the
program.  With exact numbers the reported point then violates the bounds by a few
tolerances at most, and no feasible point is better by more than the reduced costs of
the wrong sign allow.
-/

namespace DualSimplex

open Scalar Exact

/-! ## Registers of violations -/

namespace Infeasibilities

variable {β : Type} {violation : β → Exact 0} {tolerance : Exact 0}

theorem le_max_foldl (l : List β) (s : Infeasibilities (Exact 0)) :
    s.max.value ≤ (l.foldl (fun s x => s.register (violation x) tolerance) s).max.value ∧
    ∀ x ∈ l, (violation x).value ≤
      (l.foldl (fun s x => s.register (violation x) tolerance) s).max.value := by
  induction l generalizing s with
  | nil => exact ⟨le_rfl, nofun⟩
  | cons x l ih =>
    obtain ⟨hstart, hrest⟩ := ih (s.register (violation x) tolerance)
    have hmax : (s.register (violation x) tolerance).max.value =
        Max.max s.max.value (violation x).value := value_larger ..
    rw [hmax] at hstart
    refine ⟨(le_max_left ..).trans hstart, fun y hy => ?_⟩
    rcases List.mem_cons.mp hy with rfl | hy
    · exact (le_max_right ..).trans hstart
    · exact hrest y hy

/-- If nothing was counted everything was within the tolerance. -/
theorem le_of_count_foldl (l : List β) (s : Infeasibilities (Exact 0))
    (h : (l.foldl (fun s x => s.register (violation x) tolerance) s).count = 0) :
    s.count = 0 ∧ ∀ x ∈ l, (violation x).value ≤ tolerance.value := by
  induction l generalizing s with
  | nil => exact ⟨h, nofun⟩
  | cons x l ih =>
    obtain ⟨hstep, hrest⟩ := ih (s.register (violation x) tolerance) h
    unfold register at hstep
    dsimp only at hstep
    split at hstep
    · exact absurd hstep (Nat.succ_ne_zero _)
    · rename_i hsmall
      refine ⟨hstep, fun y hy => ?_⟩
      rcases List.mem_cons.mp hy with rfl | hy
      · exact not_lt.mp hsmall
      · exact hrest y hy

/-- How many tolerances a violation may come to: ten, or one if none was counted. -/
def allowance (s : Infeasibilities (Exact 0)) : ℚ :=
  if s.count = 0 then 1 else 10

end Infeasibilities

namespace Engine

variable {t : Job (Exact 0)} {e e' : Engine (Exact 0)}

theorem mem_indices {j : Nat} : j ∈ t.indices ↔ j < t.size :=
  List.mem_range

theorem mem_dualInfeasible {j : Nat} : j ∈ e.dualInfeasible t ↔
    j < t.size ∧ t.parameters.dualTolerance.value < (e.dualInfeasibility j).value := by
  unfold Engine.dualInfeasible
  rw [List.mem_filter, mem_indices, Bool.not_eq_true', decide_eq_false_iff_not, le_iff, not_le]

/-! ## Reviews -/

/-- What the engine of a review that ends a run has to show. -/
structure Verified (t : Job (Exact 0)) (e : Engine (Exact 0)) : Prop where
  cost : e.cost = t.costs
  reducedCost : (e.solveDuals t).reducedCost = e.reducedCost
  within : ∀ j, j < t.size →
    (t.boundsAt j).Within (10 * t.parameters.primalTolerance.value) (e.valueOf j).value
  dualInfeasibility_le : ∀ j, j < t.size →
    (e.dualInfeasibility j).value ≤ 10 * t.parameters.dualTolerance.value

/-- The costs and what is computed from them. -/
def pricing (e : Engine (Exact 0)) : Array (Exact 0) × Array (Exact 0) × Array (Exact 0) :=
  (e.cost, e.multipliers, e.reducedCost)

theorem pricing_flip (e : Engine (Exact 0)) (j : Nat) : (e.flip j).pricing = e.pricing := rfl

theorem pricing_solveValues (e : Engine (Exact 0)) : (e.solveValues t).pricing = e.pricing := by
  rw [solveValues_eq]
  rfl

/-- Moving variables leaves the reduced costs alone. -/
theorem pricing_reviewed (e : Engine (Exact 0)) :
    (e.reviewed t).pricing = ((e.withoutRelaxations t).solveDuals t).pricing := by
  unfold Engine.reviewed
  dsimp only
  generalize (e.withoutRelaxations t).solveDuals t = e
  have hflips : ((e.wronglyResting t).foldl flip e).pricing = e.pricing :=
    foldl_keeps pricing pricing_flip _ _
  split
  · exact hflips
  · exact (pricing_solveValues _).trans hflips

theorem cost_withoutRelaxations (e : Engine (Exact 0)) :
    (e.withoutRelaxations t).cost = t.costs := by
  unfold Engine.withoutRelaxations
  split
  · exact congrArg Prod.fst (pricing_solveValues (t := t) (resetCosts t _))
  · rfl

/-- The reduced costs of a review are those that its basis has with the costs of the
program. -/
theorem reducedCost_reviewed (e : Engine (Exact 0)) :
    (e.reviewed t).cost = t.costs ∧
    ((e.reviewed t).solveDuals t).reducedCost = (e.reviewed t).reducedCost := by
  have hpricing := pricing_reviewed (t := t) e
  have hsetting := setting_reviewed (t := t) e
  have hcost : (e.reviewed t).cost = (e.withoutRelaxations t).cost := congrArg Prod.fst hpricing
  have hreduced : (e.reviewed t).reducedCost =
      ((e.withoutRelaxations t).solveDuals t).reducedCost :=
    congrArg (fun prices => prices.2.2) hpricing
  refine ⟨hcost.trans (cost_withoutRelaxations e), ?_⟩
  rw [hreduced]
  exact (solveDuals_congr hcost (basicIndex_congr hsetting) (lu_congr hsetting)).2

/-! ## Variables that a review moves -/

/-- At its other bound the reduced cost of a variable is of the right sign. -/
theorem dualInfeasibility_opposite {s : VariableStatus} {d : Exact 0} (hs : s ≠ .free)
    (h : 0 < (s.dualInfeasibility d).value) : (s.opposite.dualInfeasibility d).value = 0 := by
  cases s with
  | atLower =>
    have hd : 0 < max (-d.value) 0 := value_larger (-d) 0 ▸ h
    have hneg : d.value ≤ 0 := by
      by_contra hpos
      rw [max_eq_right (by linarith)] at hd
      exact lt_irrefl _ hd
    exact (value_larger d 0).trans (max_eq_right hneg)
  | atUpper =>
    have hd : 0 < max d.value 0 := value_larger d 0 ▸ h
    have hpos : -d.value ≤ 0 := by
      by_contra hneg
      rw [max_eq_right (by linarith)] at hd
      exact lt_irrefl _ hd
    exact (value_larger (-d) 0).trans (max_eq_right hpos)
  | free => exact absurd rfl hs
  | fixed | basic => rfl

theorem statusOf_reviewed (h : ((e.withoutRelaxations t).solveDuals t).Shaped t) (k : Nat) :
    (e.reviewed t).statusOf k =
      if k ∈ ((e.withoutRelaxations t).solveDuals t).wronglyResting t
      then (((e.withoutRelaxations t).solveDuals t).statusOf k).opposite
      else ((e.withoutRelaxations t).solveDuals t).statusOf k := by
  unfold Engine.reviewed
  dsimp only
  generalize (e.withoutRelaxations t).solveDuals t = e at h ⊢
  have hnodup : (e.wronglyResting t).Nodup := (List.nodup_range.filter _).filter _
  have hlt : ∀ j ∈ e.wronglyResting t, j < t.size := fun j hj =>
    mem_indices.mp (List.mem_of_mem_filter (List.mem_of_mem_filter hj))
  rw [← statusOf_foldl_flip hnodup hlt h]
  split
  · rfl
  · exact statusOf_congr (status_solveValues _) k

/-- Unless a variable without another bound is pulled, a review leaves no reduced cost
of the wrong sign. -/
theorem dualInfeasibility_reviewed (hsound : ((e.withoutRelaxations t).solveDuals t).Sound t)
    (htolerance : 0 < t.parameters.dualTolerance.value)
    (hpulled : ((e.withoutRelaxations t).solveDuals t).isPulled t = false) {j : Nat}
    (hj : j < t.size) :
    ((e.reviewed t).dualInfeasibility j).value ≤ t.parameters.dualTolerance.value := by
  have hstatus := statusOf_reviewed hsound.toShaped j
  have hreduced : (e.reviewed t).reducedCostOf j =
      ((e.withoutRelaxations t).solveDuals t).reducedCostOf j :=
    congrArg (fun prices => prices.2.2.getD j 0) (pricing_reviewed (t := t) e)
  unfold dualInfeasibility
  rw [hstatus, hreduced]
  generalize (e.withoutRelaxations t).solveDuals t = e at hsound hpulled ⊢
  split
  · rename_i hwrong
    obtain ⟨hinfeasible, htwo⟩ := List.mem_filter.mp hwrong
    have hpositive := htolerance.trans (mem_dualInfeasible.mp hinfeasible).2
    rw [dualInfeasibility_opposite (hsound.statusOf_ne_free htwo) hpositive]
    exact htolerance.le
  · rename_i hright
    refine not_lt.mp fun hlt => hright (List.mem_filter.mpr ⟨mem_dualInfeasible.mpr ⟨hj, hlt⟩, ?_⟩)
    have htwo := List.any_eq_false.mp hpulled j (mem_dualInfeasible.mpr ⟨hj, hlt⟩)
    rw [Bool.not_eq_true', Bool.not_eq_false] at htwo
    exact htwo

theorem value_distance_le (e : Engine (Exact 0)) {j : Nat} (hj : j < t.size) :
    ((t.boundsAt j).distance (e.valueOf j)).value ≤ (e.primalInfeasibilities t).max.value :=
  (Infeasibilities.le_max_foldl t.indices Infeasibilities.none).2 j (mem_indices.mpr hj)

theorem value_dualInfeasibility_le (e : Engine (Exact 0)) {j : Nat} (hj : j < t.size) :
    (e.dualInfeasibility j).value ≤ (e.dualInfeasibilities t).max.value :=
  (Infeasibilities.le_max_foldl t.indices Infeasibilities.none).2 j (mem_indices.mpr hj)

/-- If the basic variables are feasible all are. -/
theorem Sound.within_of_feasible (h : e.Sound t) (ht : t.WellFormed)
    (hordered : ∀ b ∈ t.bounds, b.lower.above b.upper = false) (hbounds : e.bounds = t.bounds)
    (htolerance : 0 < t.parameters.primalTolerance.value) (hfeasible : e.Feasible t) {j : Nat}
    (hj : j < t.size) :
    (e.boundsOf j).Within t.parameters.primalTolerance.value (e.valueOf j).value := by
  have hmem : e.boundsOf j ∈ t.bounds := by
    rw [boundsOf_eq_boundsAt hbounds]
    exact ht.boundsAt_mem hj
  have hcanonical := ht.canonical_bounds hmem
  by_cases hbasic : e.statusOf j = .basic
  · exact Interval.within_of_violation hcanonical htolerance
      (hfeasible.violation h.toPlaced hj hbasic)
  · have hvalue := beq_iff.mp ((h.rests j).value hbasic)
    rw [hvalue]
    exact (Interval.within_of_resting hcanonical (hordered _ hmem) hbasic
      (h.rests j).allows).mono htolerance.le

theorem value_acceptanceFactor : (acceptanceFactor : Exact 0).value = 10 := by
  show (10.0 : ℚ) = 10
  norm_num

theorem feasible_of_any_eq_false
    (h : (e.infeasibilities t).any (fun x => !(x == 0)) = false) : e.Feasible t := by
  intro x hx
  by_contra hne
  have hany : (e.infeasibilities t).any (fun x => !(x == 0)) = true :=
    Array.any_eq_true'.mpr ⟨x, hx, by rw [Bool.eq_false_iff.mpr hne]; rfl⟩
  exact Bool.false_ne_true (h.symm.trans hany)

/-- An engine may also pass whose infeasibilities are within a multiple of the
tolerances. -/
theorem verified_of_isAcceptable (ht : t.WellFormed)
    (hacceptable : (e.reviewed t).isAcceptable t = true) : (e.reviewed t).Verified t := by
  obtain ⟨hcost, hreduced⟩ := reducedCost_reviewed (t := t) e
  unfold isAcceptable at hacceptable
  rw [Bool.and_eq_true, decide_eq_true_eq, decide_eq_true_eq, le_iff, le_iff, value_mul,
    value_mul, value_acceptanceFactor] at hacceptable
  refine ⟨hcost, hreduced, fun j hj => ?_, fun j hj => ?_⟩
  · exact Interval.within_of_distance (ht.canonical_bounds (ht.boundsAt_mem hj))
      ((value_distance_le _ hj).trans hacceptable.1)
  · exact (value_dualInfeasibility_le _ hj).trans hacceptable.2

section Passing

variable (h : e.Settled t) (ht : t.WellFormed)
  (hordered : ∀ b ∈ t.bounds, b.lower.above b.upper = false)
  (hprimal : 0 < t.parameters.primalTolerance.value)
  (hdual : 0 < t.parameters.dualTolerance.value) (hground : e.ground.bounds = t.bounds)

include h ht hordered hprimal hdual hground

/-- What passes the tests of a review is within the tolerances themselves. -/
theorem Settled.verified_of_passed
    (hpulled : ((e.withoutRelaxations t).solveDuals t).isPulled t = false)
    (hfeasible : (e.reviewed t).Feasible t) : (e.reviewed t).Verified t := by
  obtain ⟨hcost, hreduced⟩ := reducedCost_reviewed (t := t) e
  have hbounds : (e.reviewed t).bounds = t.bounds := by
    obtain ⟨hsame, hrelaxed⟩ := ground_reviewed (t := t) e
    exact (bounds_of_ground hsame hrelaxed).trans hground
  have hduals := (h.withoutRelaxations ht).sound.of_standing
    (standing_solveDuals (t := t) (e.withoutRelaxations t))
  refine ⟨hcost, hreduced, fun j hj => ?_, fun j hj => ?_⟩
  · have hwithin := (h.reviewed ht).sound.within_of_feasible ht hordered hbounds hprimal
      hfeasible hj
    rw [boundsOf_eq_boundsAt hbounds] at hwithin
    exact hwithin.mono (by linarith)
  · have hlimit := dualInfeasibility_reviewed hduals hdual hpulled hj
    linarith

/-- A review that ends a run has verified the result. -/
theorem Settled.verified_of_review {isLast : Bool} (hreview : e.review t isLast = .optimal e') :
    e'.Verified t := by
  rw [review_eq] at hreview
  dsimp only at hreview
  split at hreview
  · rename_i hpassed
    obtain rfl := Engine.Review.optimal.inj hreview
    rw [Bool.and_eq_true, Bool.not_eq_true', Bool.not_eq_true'] at hpassed
    exact h.verified_of_passed ht hordered hprimal hdual hground hpassed.1
      (feasible_of_any_eq_false hpassed.2)
  · split at hreview
    · split at hreview
      · rename_i hacceptable
        obtain rfl := Engine.Review.optimal.inj hreview
        exact verified_of_isAcceptable ht hacceptable
      · exact absurd hreview nofun
    · split at hreview
      · exact absurd hreview nofun
      · exact absurd hreview nofun

end Passing

end Engine

/-! ## How a run becomes optimal -/

theorem SolveStatus.Inconclusive.ne_optimal {s : SolveStatus} (h : s.Inconclusive) :
    s ≠ .optimal := by
  rcases h with rfl | rfl | rfl | rfl
  · exact nofun
  · exact nofun
  · exact nofun
  · exact nofun

namespace Run

section History

variable {α : Type} [Scalar α] [OrderedScalar α] {t : Job α} {r : Run α}

omit [Scalar α] [OrderedScalar α] in
theorem ne_optimal_proceed {g : Ground α} {p : Progress α} (hp : p.Stands g) (r : Run α)
    {stage : Stage} (hstage : stage ≠ .done .optimal) :
    (r.proceed p stage).stage ≠ .done .optimal := by
  cases p with
  | going e => exact hstage
  | stopped e status => exact fun hdone => hp.2.ne_optimal (Stage.done.inj hdone)

omit [OrderedScalar α] in
theorem Answers.ne_optimal (hstage : r.stage.Iterates) {g : Ground α} {r' : Run α} {s : Step α}
    (hs : s.Stands t g) (hanswers : r.Answers t s r') : r'.stage ≠ .done .optimal := by
  cases hanswers with
  | next => exact hstage.ne_done _
  | stopped => exact fun hdone => hs.2.ne_optimal (Stage.done.inj hdone)
  | reject => exact ne_optimal_proceed (Engine.stands_rejectRay rfl) r (hstage.onward_ne_done _)
  | accept => exact nofun
  | acceptInstead => exact nofun
  | leave => exact Engine.PhaseOneEnd.stage_ne_done _ _
  | toReview => exact nofun
  | undo => exact nofun
  | feasible => exact nofun

variable (ht : t.WellFormed) (hsound : r.engine.Sound t)

include ht hsound

/-- A step to an optimal end is a review, unless the run had ended before. -/
theorem review_of_step (h : (r.step t).stage = .done .optimal) :
    r.stage = .done .optimal ∧ r.step t = r ∨ r.stage = .review ∧
      r.engine.review t (maxReviews < r.reviews + 1) = .optimal (r.step t).engine := by
  have hmoves := moves_step t r
  generalize r.step t = r' at hmoves h ⊢
  cases hmoves with
  | stay => exact Or.inl ⟨h, rfl⟩
  | needsPhaseOne => exact absurd h nofun
  | settle => exact absurd h nofun
  | enterAuxiliary => exact absurd h nofun
  | perturb => exact absurd h nofun
  | enterMain => exact absurd h nofun
  | enterFeasibility => exact absurd h nofun
  | review hstage => exact Or.inr ⟨hstage, Engine.review_of_stage h⟩
  | iterate hstage hanswers =>
    exact absurd h (hanswers.ne_optimal hstage (hsound.stands_advance ht rfl))

omit hsound in
/-- A run that has ended as optimal did so with a review. -/
theorem exists_review {basis : Basis} (hbasis : basis.Valid t.program) {k : Nat}
    (h : ((step t)^[k] (begin t basis)).stage = .done .optimal) :
    ∃ k', ((step t)^[k'] (begin t basis)).stage = .review ∧
      ((step t)^[k'] (begin t basis)).engine.review t
        (maxReviews < ((step t)^[k'] (begin t basis)).reviews + 1) =
          .optimal ((step t)^[k] (begin t basis)).engine := by
  induction k with
  | zero =>
    exact absurd h (ne_optimal_proceed (Engine.stands_prepare (g := (Engine.start t basis).ground)
      rfl) _ nofun)
  | succ k ih =>
    have hsound := sound_iterate_step ht hbasis k
    rw [Function.iterate_succ_apply'] at h ⊢
    -- a run that has ended stays as it is, so that the review may lie further back
    rcases review_of_step ht hsound h with hdone | hreview
    · rw [hdone.2]
      exact ih hdone.1
    · exact ⟨k, hreview⟩

end History
end Run

/-! ## What an optimal solution is read off -/

namespace Engine

variable {t : Job (Exact 0)} {e : Engine (Exact 0)}

/-- A verified engine in phase two without relaxations needs its duals only. -/
theorem Verified.conclude_eq (h : e.Verified t) (hphase : e.phase = .two)
    (hrelaxed : e.relaxed = []) (hvalid : e.factorValid = true) :
    e.conclude t = e.solveDuals t := by
  have hcosts : resetCosts t e = e := by
    unfold resetCosts
    rw [← h.cost]
  rw [(conclude_of_relaxed_nil hphase hrelaxed).2 hvalid, hcosts]

theorem Verified.solveDuals (h : e.Verified t) : (e.solveDuals t).Verified t where
  cost := h.cost
  reducedCost := by
    have hcost : (e.solveDuals t).cost = e.cost := rfl
    have hsetting := setting_congr (standing_solveDuals (t := t) e)
    exact (solveDuals_congr hcost (basicIndex_congr hsetting) (lu_congr hsetting)).2
  within := h.within
  dualInfeasibility_le := by
    intro j hj
    have hsame : (e.solveDuals t).dualInfeasibility j = e.dualInfeasibility j := by
      unfold dualInfeasibility reducedCostOf
      rw [h.reducedCost]
      rfl
    rw [hsame]
    exact h.dualInfeasibility_le j hj

theorem Verified.within_allowance (h : e.Verified t) (ht : t.WellFormed) (j : Nat)
    (hj : j < t.size) : (t.boundsAt j).Within
      ((e.primalInfeasibilities t).allowance * t.parameters.primalTolerance.value)
      (e.valueOf j).value := by
  unfold Infeasibilities.allowance
  split
  · rename_i hcount
    rw [one_mul]
    exact Interval.within_of_distance (ht.canonical_bounds (ht.boundsAt_mem hj))
      ((Infeasibilities.le_of_count_foldl t.indices _ hcount).2 j (mem_indices.mpr hj))
  · exact h.within j hj

theorem Verified.dualInfeasibility_le_allowance (h : e.Verified t) (j : Nat) (hj : j < t.size) :
    (e.dualInfeasibility j).value ≤
      (e.dualInfeasibilities t).allowance * t.parameters.dualTolerance.value := by
  unfold Infeasibilities.allowance
  split
  · rename_i hcount
    rw [one_mul]
    exact (Infeasibilities.le_of_count_foldl t.indices _ hcount).2 j (mem_indices.mpr hj)
  · exact h.dualInfeasibility_le j hj

end Engine

/-- The bounds of no variable contradict each other. -/
theorem Job.not_above_bounds {d : Draft (Exact 0)} {lp : LinearProgram (Exact 0)}
    (hbuild : d.build = .ok lp) (p : Parameters (Exact 0)) :
    ∀ b ∈ Job.bounds ⟨lp, p⟩, b.lower.above b.upper = false := by
  obtain ⟨hcolumns, hrows⟩ := Draft.not_above_build hbuild
  intro b hb
  rcases Array.mem_append.mp hb with hb | hb
  · exact hcolumns b hb
  · obtain ⟨c, hc, rfl⟩ := Array.mem_map.mp hb
    exact (Bound.above_neg c.lower c.upper).trans (hrows c hc)

section Solves

variable {d : Draft (Exact 0)} {lp : LinearProgram (Exact 0)} {basis : Basis}
  {p : Parameters (Exact 0)} {budget : Nat} {s : Solution (Exact 0)}

/-- An optimal solution is read off an engine whose values and reduced costs go with
the program, and which has been verified. -/
theorem exists_verified (hbuild : d.build = .ok lp)
    (hsolve : solveWithBasis budget lp basis p = .ok (some s)) (hstatus : s.status = .optimal) :
    ∃ e : Engine (Exact 0), s = e.solution ⟨lp, p⟩ .optimal ∧ e.Sound ⟨lp, p⟩ ∧
      e.Balanced ⟨lp, p⟩ ∧ e.Priced ⟨lp, p⟩ ∧ e.bounds = Job.bounds ⟨lp, p⟩ ∧
      e.Verified ⟨lp, p⟩ := by
  obtain ⟨hp, hbasis, -⟩ := exists_of_solve hsolve
  obtain ⟨last, houtcome, hs, -, hproves, hground, hrelaxed, -⟩ :=
    exists_concluded d.canonical_exact hbuild hsolve
  rw [hstatus] at houtcome hs hproves
  obtain ⟨-, -, hphase, hunrelaxed⟩ := hproves
  obtain ⟨⟨-, hprimal⟩, ⟨-, hdual⟩, -, hpivot⟩ := Parameters.tolerances_of_validate hp
  have ht := Job.wellFormed_of_build d.canonical_exact hbuild hp
  have hvalid : basis.Valid (Job.mk lp p).program := Basis.valid_of_validate ht.program hbasis
  obtain ⟨k, hstage, hlast⟩ := Run.exists_of_outcome houtcome
  obtain ⟨k', hreviewing, hreview⟩ := Run.exists_review ht hvalid hstage
  rw [hlast] at hreview
  have hsettled := (Run.settles_iterate_step ht hpivot hvalid k').settled
    (by rw [hreviewing]; exact fun _ => nofun)
  have hstands := Run.stands_iterate_step ht hvalid k'
  unfold Run.Stands at hstands
  rw [hreviewing] at hstands
  have hverified := hsettled.verified_of_review ht (Job.not_above_bounds hbuild p) hprimal hdual
    (congrArg Ground.bounds hstands) hreview
  have hlastSettled : last.Settled ⟨lp, p⟩ := by
    have hreviewed := hsettled.reviewed ht
    rw [← Engine.engine_review _ _, hreview] at hreviewed
    exact hreviewed
  have hbounds := Engine.bounds_of_ground hground hrelaxed
  rw [hverified.conclude_eq hphase hunrelaxed hlastSettled.valid] at hs hbounds
  have hconcluded := hlastSettled.of_standing (Engine.standing_solveDuals (t := ⟨lp, p⟩) last)
  have hcurrent := hlastSettled.current hlastSettled.valid
  exact ⟨_, hs, hconcluded.sound, hconcluded.balanced,
    hcurrent.priced_solveDuals ht hlastSettled.sound, hbounds, hverified.solveDuals⟩

/-- The point of an optimal solution violates the bounds of the program by ten
tolerances at most, and so do the reduced costs of the wrong sign.  The tolerances
themselves are the limits if no violations were counted.  No feasible point is better
by more than the limit for the reduced costs, times how far the columns and rows
outside the basis are away from it. -/
theorem optimal_within_tolerances (hbuild : d.build = .ok lp)
    (hsolve : solveWithBasis budget lp basis p = .ok (some s)) (hstatus : s.status = .optimal) :
    let x := arrayAt s.columnValues
    let limit := s.dualInfeasibilities.allowance * p.dualTolerance.value
    s.objective.value = lp.objectiveAt x ∧
    (∀ i, i < lp.rowCount → arrayAt s.rowValues i = lp.activityAt x i) ∧
    lp.Admits (s.primalInfeasibilities.allowance * p.primalTolerance.value) x ∧
    (∀ j, j < lp.columnCount → arrayAt s.columnDuals j = arrayAt lp.costs j -
      ∑ i ∈ Finset.range lp.rowCount,
        coefficient (lp.columns.line j) i * arrayAt s.rowDuals i) ∧
    (∀ j, j < lp.columnCount → ∃ status, s.basis.columns[j]? = some status ∧
      (status.dualInfeasibility (lp.sense.orient (s.columnDuals.getD j 0))).value ≤ limit) ∧
    (∀ i, i < lp.rowCount → ∃ status, s.basis.rows[i]? = some status ∧
      (status.dualInfeasibility (lp.sense.orient (s.rowDuals.getD i 0))).value ≤ limit) ∧
    ∀ x', lp.Admits 0 x' →
      (lp.sense = .minimize →
        lp.objectiveAt x ≤ lp.objectiveAt x' + limit * s.basis.restingDistance lp x x') ∧
      (lp.sense = .maximize →
        lp.objectiveAt x' ≤ lp.objectiveAt x + limit * s.basis.restingDistance lp x x') := by
  obtain ⟨e, rfl, hsound, hbalanced, hpriced, hbounds, hverified⟩ :=
    exists_verified hbuild hsolve hstatus
  have ht := Job.wellFormed_of_build d.canonical_exact hbuild (exists_of_solve hsolve).1
  have hlimit : ∀ j, j < Job.size ⟨lp, p⟩ → (e.dualInfeasibility j).value ≤
      (e.solution ⟨lp, p⟩ .optimal).dualInfeasibilities.allowance * p.dualTolerance.value :=
    hverified.dualInfeasibility_le_allowance
  refine ⟨e.value_objective_solution hsound .optimal,
    fun i hi => Engine.arrayAt_rowValues hsound .optimal hbalanced hi,
    hsound.admits_solution ht hbalanced (hverified.within_allowance ht) .optimal,
    fun j hj => Engine.columnDuals_eq .optimal hverified.cost hpriced hj, fun j hj => ?_,
    fun i hi => ?_, fun x' hx' => ?_⟩
  · obtain ⟨hcolumn, -⟩ := Engine.columns_solution hsound.toShaped hj .optimal
    refine ⟨_, hcolumn, ?_⟩
    exact (Engine.dualInfeasibility_column (t := ⟨lp, p⟩) .optimal hj).trans_le
      (hlimit j (Nat.lt_add_right lp.rowCount hj))
  · obtain ⟨hrow, -⟩ := Engine.rows_solution hsound.toShaped hi .optimal
    refine ⟨_, hrow, ?_⟩
    exact (Engine.dualInfeasibility_row .optimal hverified.cost hpriced hi).trans_le
      (hlimit _ (Nat.add_lt_add_left hi lp.columnCount))
  · have hcosts := hpriced.factor_mul_objectiveAt_le ht hsound hbalanced hverified.cost hbounds
      hlimit .optimal hx'
    dsimp only at hcosts
    constructor
    · intro hsense
      rw [hsense, ObjectiveSense.factor, one_mul, one_mul] at hcosts
      exact hcosts
    · intro hsense
      rw [hsense, ObjectiveSense.factor] at hcosts
      linarith

end Solves

/-- The least value on the triangle, up to the tolerance for reduced costs. -/
theorem optimal_within_tolerances_triangle :
    ∃ (lp : LinearProgram (Exact 0)) (s : Solution (Exact 0)), Draft.triangle.build = .ok lp ∧
      solveWithBasis 12 lp (Basis.slack lp) .default = .ok (some s) ∧ s.status = .optimal ∧
      s.dualInfeasibilities.count = 0 ∧ ∀ x, lp.Admits 0 x → -3 ≤ lp.objectiveAt x +
        (Parameters.default : Parameters (Exact 0)).dualTolerance.value *
          s.basis.restingDistance lp (arrayAt s.columnValues) x := by
  obtain ⟨lp, s, hbuild, hsolve, hs⟩ := exists_of_any_solution Draft.triangle .default 12
    (fun lp s => decide (lp.sense = .minimize ∧ s.status = .optimal ∧
      s.dualInfeasibilities.count = 0 ∧ s.objective.value = -3)) (by decide +kernel)
  obtain ⟨hsense, hstatus, hcount, hvalue⟩ := of_decide_eq_true hs
  obtain ⟨hobjective, -, -, -, -, -, hbest⟩ := optimal_within_tolerances hbuild hsolve hstatus
  refine ⟨lp, s, hbuild, hsolve, hstatus, hcount, fun x hx => ?_⟩
  have hle := (hbest x hx).1 hsense
  rw [← hobjective, hvalue, Infeasibilities.allowance, if_pos hcount, one_mul] at hle
  exact hle

end DualSimplex
