import DualSimplex.Proofs.Engine.Records
import DualSimplex.Proofs.Engine.Reported
import DualSimplex.Proofs.Engine.Wording

/-!
# Iteration limits

A run with an iteration limit and the run without one go in lock step as long as there were
fewer basis changes than the limit allows.  From then on they still do what leaves the number of
basis changes alone, until the next one is due: there the run with the limit stops.
-/

namespace DualSimplex

open Scalar

variable {α : Type} [Scalar α] {t : Job α} {w : Wording α} {limit : Nat}

namespace Engine

variable {e : Engine α}

omit [Scalar α] in
theorem atIterationLimit_congr {e' : Engine α} (h : e'.records = e.records) :
    e'.atIterationLimit t = e.atIterationLimit t := by
  have hcount : e'.statistics.iterations = e.statistics.iterations := congrArg Prod.fst h
  unfold Engine.atIterationLimit
  rw [hcount]

omit [Scalar α] in
theorem atIterationLimit_reword (hlimit : w.limit = some limit) (e : Engine α) :
    e.atIterationLimit (t.reword w) = decide (limit ≤ e.records.1) := by
  unfold Engine.atIterationLimit
  rw [show (t.reword w).parameters.iterationLimit = some limit from hlimit]
  rfl

omit [Scalar α] in
theorem atIterationLimit_of_none (hnone : t.parameters.iterationLimit = none) (e : Engine α) :
    e.atIterationLimit t = false := by
  unfold Engine.atIterationLimit
  rw [hnone]

/-! ## Iterations at the limit -/

/-- At the limit an iteration stops when it has found an entering variable.  Before that it does
the same as without a limit. -/
theorem iterate_at_limit (h : w.Keeps t) (hreached : e.atIterationLimit (t.reword w) = true) :
    e.iterate (t.reword w) = e.iterate t ∧ (e.iterate t).engine.records = e.records ∨
      ∃ e', e.iterate (t.reword w) = .stopped e' .iterationLimit ∧ e'.records = e.records := by
  unfold Engine.iterate
  dsimp only
  rw [show Engine.infeasibilities (t.reword w) e = Engine.infeasibilities t e from rfl]
  cases e.weights.choosePosition (e.infeasibilities t) e.basicIndex with
  | none => exact Or.inl ⟨rfl, rfl⟩
  | some position =>
    have hrow : Engine.inverseRow (t.reword w) = Engine.inverseRow t := rfl
    have hdual : (t.reword w).parameters.dualTolerance = t.parameters.dualTolerance := rfl
    have hprimal : (t.reword w).parameters.primalTolerance = t.parameters.primalTolerance := rfl
    have hpriced : ∀ rho, ((e.inverseRow t position).1.price t rho).1.atIterationLimit
        (t.reword w) = true := fun _ => hreached
    have hrecords : ((e.inverseRow t position).1.price t (e.inverseRow t position).2).1.records =
        e.records := rfl
    dsimp only
    unfold Engine.iterateAt
    rw [hrow, hdual, hprimal, price_reword h, ratioTest_reword h]
    dsimp only
    rw [hpriced]
    generalize (e.inverseRow t position).1.price t (e.inverseRow t position).2 = priced
      at hrecords ⊢
    generalize (e.infeasibilities t).getD position 0 = delta
    generalize (priced.1.ratioTest t priced.2 (sign delta)).run (magnitude delta)
      t.parameters.dualTolerance t.parameters.primalTolerance = outcome
    obtain ⟨test, result⟩ := outcome
    cases result with
    | unbounded => exact Or.inl ⟨rfl, hrecords⟩
    | entering entering alpha step => exact Or.inr ⟨priced.1, rfl, hrecords⟩

theorem advance_at_limit (h : w.Keeps t) (hreached : e.atIterationLimit (t.reword w) = true) :
    e.advance (t.reword w) = e.advance t ∧ (e.advance t).engine.records = e.records ∨
      ∃ e', e.advance (t.reword w) = .stopped e' .iterationLimit ∧ e'.records = e.records := by
  have hrenewed := records_renewIfDue (t := t) e
  unfold Engine.advance
  rw [renewIfDue_reword h, show limitReached? (t.reword w) = limitReached? t from rfl]
  cases limitReached? t with
  | some status => exact Or.inl ⟨rfl, rfl⟩
  | none =>
    dsimp only
    generalize e.renewIfDue t = p at hrenewed ⊢
    cases p with
    | stopped e' status => exact Or.inl ⟨rfl, hrenewed⟩
    | going e' =>
      have hrenewed : e'.records = e.records := hrenewed
      rw [← hrenewed]
      exact iterate_at_limit h ((atIterationLimit_congr hrenewed).trans hreached)

end Engine

open Engine

namespace Run

variable {r : Run α}

/-! ## Records of a run -/

/-- A step counts one basis change at most. -/
theorem counted_step (r : Run α) : Counted t r.engine.records (r.step t).engine.records
    ((r.step t).stage = .done .numericalError) := by
  by_cases hstage : r.stage.Iterates
  · rw [records_step_of_iterates hstage]
    refine (counted_advance r.engine).imp ?_
    rintro ⟨e, hstopped⟩
    rw [step_of_stopped hstage hstopped]
    rfl
  · exact Or.inl (records_step_of_not_iterates hstage)

/-- A limit that allows another basis change is not read as reached. -/
theorem step_below_limit (h : w.Keeps t) (hlimit : w.limit = some limit)
    (hnone : t.parameters.iterationLimit = none) (hbelow : r.engine.records.1 < limit) :
    r.step (t.reword w) = r.step t := by
  refine step_reword h fun _ => advance_reword h fun e hrenewed => ?_
  have hrecords := records_renewIfDue (t := t) r.engine
  rw [hrenewed] at hrecords
  have hrecords : e.records = r.engine.records := hrecords
  rw [atIterationLimit_of_none hnone, atIterationLimit_reword hlimit, hrecords]
  exact decide_eq_false (by omega)

/-- At the limit a step stops the run, or it does the same as without a limit and leaves the
records alone. -/
theorem step_at_limit (h : w.Keeps t) (hreached : r.engine.atIterationLimit (t.reword w) = true) :
    r.step (t.reword w) = r.step t ∧ (r.step t).engine.records = r.engine.records ∨
      ∃ e, r.step (t.reword w) = r.goTo e (.done .iterationLimit) ∧
        e.records = r.engine.records := by
  by_cases hstage : r.stage.Iterates
  · rcases advance_at_limit h hreached with ⟨hsame, hrecords⟩ | ⟨e, hstopped, hrecords⟩
    · refine Or.inl ⟨step_reword h fun _ => hsame, ?_⟩
      exact (records_step_of_iterates hstage).trans hrecords
    · exact Or.inr ⟨e, step_of_stopped hstage hstopped, hrecords⟩
  · exact Or.inl ⟨step_reword h fun hiterates => absurd hiterates hstage,
      records_step_of_not_iterates hstage⟩

end Run

/-! ## What a run has recorded -/

/-- As many objective values have been recorded as there were basis changes, or none if none is
wanted. -/
def Complete (t : Job α) (records : Nat × List α) : Prop :=
  records.2.length = if t.parameters.traceObjective then records.1 else 0

/-- Records that were added to. -/
structure Grows (t : Job α) (before after : Nat × List α) : Prop where
  count : before.1 ≤ after.1
  trace : before.2 <+: after.2
  untraced : t.parameters.traceObjective = false → after.2 = before.2

variable {before after later : Nat × List α} {stopped : Prop}

omit [Scalar α] in
theorem Grows.refl (records : Nat × List α) : Grows t records records :=
  ⟨Nat.le_refl _, List.prefix_refl _, fun _ => rfl⟩

omit [Scalar α] in
theorem Grows.trans (h : Grows t before after) (h' : Grows t after later) :
    Grows t before later :=
  ⟨h.count.trans h'.count, h.trace.trans h'.trace,
    fun hquiet => (h'.untraced hquiet).trans (h.untraced hquiet)⟩

omit [Scalar α] in
theorem Engine.Counted.grows (h : Counted t before after stopped) : Grows t before after := by
  rcases h with rfl | ⟨hcount, htrace⟩ | ⟨-, rfl⟩
  · exact Grows.refl _
  · refine ⟨by omega, ?_, fun hquiet => ?_⟩
    · split at htrace
      · obtain ⟨x, htrace⟩ := htrace
        rw [htrace]
        exact List.prefix_append _ _
      · rw [htrace]
    · rw [if_neg (by rw [hquiet]; exact Bool.false_ne_true)] at htrace
      exact htrace
  · exact ⟨Nat.le_succ _, List.prefix_refl _, fun _ => rfl⟩

omit [Scalar α] in
theorem Engine.Counted.le_succ (h : Counted t before after stopped) :
    after.1 ≤ before.1 + 1 := by
  rcases h with rfl | hrecorded | ⟨-, rfl⟩
  · exact Nat.le_succ _
  · exact hrecorded.1.le
  · exact Nat.le_refl _

omit [Scalar α] in
theorem Engine.Counted.complete (h : Counted t before after stopped) (hgoes : ¬stopped)
    (hbefore : Complete t before) : Complete t after := by
  rcases h with rfl | ⟨hcount, htrace⟩ | ⟨hstopped, -⟩
  · exact hbefore
  · unfold Complete at hbefore ⊢
    split at htrace
    · rename_i htraced
      obtain ⟨x, htrace⟩ := htrace
      rw [if_pos htraced] at hbefore ⊢
      rw [htrace, hcount, List.length_append, hbefore]
      rfl
    · rename_i hquiet
      rw [if_neg hquiet] at hbefore ⊢
      rw [htrace, hbefore]
  · exact absurd hstopped hgoes

omit [Scalar α] in
/-- What a complete record says of one that it grows into. -/
theorem Grows.take_eq (h : Grows t before after) (hbefore : Complete t before) :
    before.2 = after.2.take before.1 := by
  unfold Complete at hbefore
  split at hbefore
  · rw [← hbefore]
    exact List.prefix_iff_eq_take.mp h.trace
  · rename_i hquiet
    have hnone : before.2 = [] := List.eq_nil_of_length_eq_zero hbefore
    rw [h.untraced (Bool.eq_false_iff.mpr hquiet), hnone]
    exact List.take_nil.symm

namespace Run

variable {r : Run α} {status : SolveStatus} {last : Engine α} {budget : Nat}

theorem outcome_grows (houtcome : r.outcome? t budget = some (status, last)) :
    Grows t r.engine.records last.records := by
  refine outcome_induction (motive := fun _ r => Grows t r.engine.records last.records)
    (fun _ r _ hlast => ?_) (fun _ r _ _ ih => ?_) houtcome
  · rw [hlast]
    exact Grows.refl _
  · exact (counted_step r).grows.trans ih

/-- How a run with a limit ends if it ends with `last` without one: in the same way, or stopped
by the limit with what was recorded up to it. -/
def EndsLimited (limit : Nat) (status : SolveStatus) (last : Engine α)
    (outcome : Option (SolveStatus × Engine α)) : Prop :=
  last.records.1 ≤ limit ∧ outcome = some (status, last) ∨
    limit ≤ last.records.1 ∧ ∃ e, outcome = some (.iterationLimit, e) ∧
      e.records = (limit, last.records.2.take limit)

/-- A run with a limit ends as the run without one does, if there are no more basis changes in it
than the limit allows.  Otherwise, and possibly if there are just as many, it is stopped by the
limit. -/
theorem outcome_limited (h : w.Keeps t) (hlimit : w.limit = some limit)
    (hnone : t.parameters.iterationLimit = none)
    (houtcome : r.outcome? t budget = some (status, last)) :
    ((∀ final, r.stage ≠ .done final) → Complete t r.engine.records) →
    r.engine.records.1 ≤ limit →
    EndsLimited limit status last (r.outcome? (t.reword w) budget) := by
  refine outcome_induction (motive := fun budget r =>
    ((∀ final, r.stage ≠ .done final) → Complete t r.engine.records) →
    r.engine.records.1 ≤ limit →
    EndsLimited limit status last (r.outcome? (t.reword w) budget))
    (fun budget r hstage hlast _ hcount => ?_)
    (fun budget r hgoes houtcome ih hcomplete hcount => ?_) houtcome
  · rw [outcome_done hstage, hlast]
    exact Or.inl ⟨hlast ▸ hcount, rfl⟩
  · have hcounted := counted_step (t := t) r
    have hnext : (∀ final, (r.step t).stage ≠ .done final) →
        Complete t (r.step t).engine.records := fun hgoes' =>
      hcounted.complete (hgoes' .numericalError) (hcomplete hgoes)
    rw [outcome_succ hgoes]
    rcases Nat.lt_or_ge r.engine.records.1 limit with hbelow | hreached
    · rw [step_below_limit h hlimit hnone hbelow]
      exact ih hnext (hcounted.le_succ.trans hbelow)
    · have hcount : r.engine.records.1 = limit := Nat.le_antisymm hcount hreached
      rcases step_at_limit h ((atIterationLimit_reword hlimit _).trans (decide_eq_true hreached)) with
        ⟨hsame, hrecords⟩ | ⟨e, hstop, hrecords⟩
      · rw [hsame]
        exact ih hnext (by rw [hrecords, hcount])
      · have hgrows : Grows t r.engine.records last.records :=
          hcounted.grows.trans (outcome_grows houtcome)
        refine Or.inr ⟨hcount ▸ hgrows.count, e, ?_, ?_⟩
        · rw [hstop]
          exact outcome_done rfl budget
        · rw [hrecords, ← hcount, ← hgrows.take_eq (hcomplete hgoes)]

theorem records_begin (basis : Basis) : (begin t basis).engine.records = (0, []) :=
  records_proceed (records_prepare _) _ _

theorem complete_begin (basis : Basis) : Complete t (begin t basis).engine.records := by
  rw [records_begin]
  unfold Complete
  split
  · rfl
  · rfl

end Run

/-! ## Solves -/

/-- A solution at which the limit has stopped a solve that would lead to another one. -/
structure Solution.CutOff (s : Solution α) (lp : LinearProgram α) (limit : Nat)
    (s' : Solution α) : Prop where
  status : s'.status = .iterationLimit
  iterations : s'.statistics.iterations = limit
  objectiveTrace : s'.statistics.objectiveTrace = s.statistics.objectiveTrace.take limit
  basis : s'.basis.validate lp = .ok ()

/-- What a solution says about basis changes and objective values was recorded in the run. -/
theorem records_solution (e : Engine α) (status : SolveStatus) :
    (((e.conclude t).solution t status).statistics.iterations,
      ((e.conclude t).solution t status).statistics.objectiveTrace) = e.records :=
  records_of_held (held_conclude e)

/-- An iteration limit changes nothing about a solve that ends below it.  A solve that would go
on beyond it is stopped after just as many iterations, with what it has traced by then and with a
valid basis.  If the limit is just reached either may happen. -/
theorem solve_limited [MirroredScalar α] {d : Draft α} (hd : d.Canonical) (hreflexive : d.Reflexive)
    {lp : LinearProgram α} (hbuild : d.build = .ok lp) {basis : Basis} {p : Parameters α}
    {budget : Nat} {s : Solution α}
    (hsolve : solveWithBasis budget lp basis { p with iterationLimit := none } = .ok (some s))
    (limit : Nat) :
    let limited := solveWithBasis budget lp basis { p with iterationLimit := some limit }
    (s.statistics.iterations < limit → limited = .ok (some s)) ∧
    (limit < s.statistics.iterations → ∃ s', limited = .ok (some s') ∧ s.CutOff lp limit s') ∧
    (limit = s.statistics.iterations →
      limited = .ok (some s) ∨ ∃ s', limited = .ok (some s') ∧ s.CutOff lp limit s') := by
  intro limited
  obtain ⟨hp, hbasis, last, houtcome, hs⟩ := exists_of_solve hsolve
  let t : Job α := ⟨lp, { p with iterationLimit := none }⟩
  let w : Wording α := ⟨lp.sense, lp.offset, lp.costs, some limit⟩
  have hkeeps : w.Keeps t := rfl
  have hlimited : limited = .ok (((Run.begin t basis).outcome? (t.reword w) budget).map
      fun ended => (ended.2.conclude t).solution t ended.1) := by
    refine (solveWithBasis_of_validate (p := { p with iterationLimit := some limit }) hp hbasis
      budget).trans ?_
    rw [show Job.mk lp { p with iterationLimit := some limit } = t.reword w from rfl,
      Run.begin_reword hkeeps, conclude_reword hkeeps]
    rfl
  have hcount : s.statistics.iterations = last.records.1 := by
    rw [hs]
    exact congrArg Prod.fst (records_solution last s.status)
  have htrace : s.statistics.objectiveTrace = last.records.2 := by
    rw [hs]
    exact congrArg Prod.snd (records_solution last s.status)
  have hstart : (Run.begin t basis).engine.records.1 ≤ limit := by
    rw [Run.records_begin]
    exact Nat.zero_le _
  have hends : s.statistics.iterations ≤ limit ∧ limited = .ok (some s) ∨
      limit ≤ s.statistics.iterations ∧ ∃ s', limited = .ok (some s') ∧ s.CutOff lp limit s' := by
    rw [hcount]
    rcases Run.outcome_limited hkeeps rfl rfl houtcome
      (fun _ => Run.complete_begin basis) hstart with ⟨hle, hsame⟩ | ⟨hle, e, hstop, he⟩
    · refine Or.inl ⟨hle, ?_⟩
      rw [hlimited, hsame, hs]
      rfl
    · have hsolve' : limited = .ok (some ((e.conclude t).solution t .iterationLimit)) := by
        rw [hlimited, hstop]
        rfl
      refine Or.inr ⟨hle, _, hsolve', rfl, ?_, ?_, ?_⟩
      · exact (congrArg Prod.fst (records_solution e .iterationLimit)).trans (congrArg Prod.fst he)
      · rw [htrace]
        exact (congrArg Prod.snd (records_solution e .iterationLimit)).trans (congrArg Prod.snd he)
      · exact validate_basis_of_solve hd hbuild hsolve' hreflexive
  refine ⟨fun hlt => ?_, fun hlt => ?_, fun _ => ?_⟩
  · rcases hends with ⟨-, hsame⟩ | ⟨hle, -⟩
    · exact hsame
    · omega
  · rcases hends with ⟨hle, -⟩ | ⟨-, hstop⟩
    · omega
    · exact hstop
  · exact hends.imp And.right And.right

/-- The triangle is solved with one basis change, and not with none. -/
theorem solve_limited_triangle : ∃ (lp : LinearProgram (Exact 0)) (s s' : Solution (Exact 0)),
    Draft.triangle.build = .ok lp ∧
    solveWithBasis 12 lp (Basis.slack lp) .default = .ok (some s) ∧ s.status = .optimal ∧
    s.statistics.iterations = 1 ∧
    solveWithBasis 12 lp (Basis.slack lp) { Parameters.default with iterationLimit := some 2 } =
      .ok (some s) ∧
    solveWithBasis 12 lp (Basis.slack lp) { Parameters.default with iterationLimit := some 0 } =
      .ok (some s') ∧ s.CutOff lp 0 s' := by
  obtain ⟨lp, s, hbuild, hsolve, hs⟩ := exists_of_any_solution Draft.triangle .default 12
    (fun _ s => decide (s.status = .optimal ∧ s.statistics.iterations = 1)) (by decide +kernel)
  obtain ⟨hstatus, hcount⟩ := of_decide_eq_true hs
  have hlimited := fun limit => solve_limited Draft.triangle.canonical_exact
    Draft.reflexive_triangle hbuild (p := .default) hsolve limit
  obtain ⟨s', hsolve', hcut⟩ := (hlimited 0).2.1 (by omega)
  exact ⟨lp, s, s', hbuild, hsolve, hstatus, hcount, (hlimited 2).1 (by omega), hsolve', hcut⟩

end DualSimplex
