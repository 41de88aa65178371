import DualSimplex.Proofs.Engine.Tallied

/-!
# Multipliers that are kept up to date

The multipliers and reduced costs are changed with every basis change, and computed from
the costs only when a basis is factored anew or the costs are changed as a whole.  With
exact numbers it makes no difference, as long as no ratio test has cut off a step.
-/

namespace DualSimplex

open Scalar Exact

/-! ## Runs -/

namespace Run

variable {t : Job (Exact 0)} {r : Run (Exact 0)} {full : Prop}

/-- On the way to the next boundary no step is cut off. -/
def StepsFully (t : Job (Exact 0)) (r : Run (Exact 0)) : Prop :=
  r.stage.Iterates → r.engine.StepsFully t

theorem tallied_proceed {p : Progress (Exact 0)} (hp : p.engine.Tallied t full)
    (r : Run (Exact 0)) (stage : Stage) : (r.proceed p stage).engine.Tallied t full := by
  cases p with
  | going e => exact hp
  | stopped e status => exact hp

section Steps

variable (ht : t.WellFormed) (hpivot : 0 < t.parameters.pivotTolerance.value)

include ht hpivot

theorem Answers.tallied {r' : Run (Exact 0)} {s : Step (Exact 0)} (hsettles : s.Settles t)
    (hs : s.engine.Tallied t full) (hanswers : r.Answers t s r') : r'.engine.Tallied t full := by
  cases hanswers with
  | next => exact hs
  | stopped => exact hs
  | reject => exact tallied_proceed (Engine.Settled.tallied_rejectRay ht hpivot hsettles hs) r _
  | accept =>
    exact Engine.Tallied.congr_settled hs hsettles (Engine.Settled.withRays hsettles _ _) rfl
  | acceptInstead =>
    exact Engine.Tallied.congr_settled hs hsettles (Engine.Settled.withRays hsettles _ _) rfl
  | leave => exact Engine.Settled.tallied_leaveAuxiliary ht hsettles hs
  | toReview => exact hs
  | undo _ hundo => exact Engine.Settled.tallied_undoRelaxations ht hsettles hs hundo
  | feasible => exact hs

/-- A step keeps the duals up to date, whatever happens in it but a step that is cut off. -/
theorem tallied_step (h : r.Settles t) (htallied : r.engine.Tallied t full) :
    (r.step t).engine.Tallied t (full ∧ r.StepsFully t) := by
  by_cases hgoing : ∀ status, r.stage ≠ .done status
  · have hsettled := h.settled hgoing
    have hmoves := moves_step t r
    generalize r.step t = r' at hmoves ⊢
    cases hmoves with
    | stay => exact htallied.mono And.left
    | needsPhaseOne => exact htallied.mono And.left
    | settle => exact (htallied.settleReducedCosts hsettled.sound).mono And.left
    | enterAuxiliary => exact (hsettled.tallied_enterAuxiliary ht htallied).mono And.left
    | perturb => exact htallied.perturbAll.mono And.left
    | enterMain => exact htallied.mono And.left
    | enterFeasibility => exact (hsettled.tallied_dropCosts ht htallied).mono And.left
    | review => exact hsettled.tallied_reviewed ht
    | iterate hiterates hanswers =>
      have hadvanced := hsettled.tallied_advance ht hpivot htallied
      exact (hanswers.tallied ht hpivot (hsettled.advance ht hpivot) hadvanced).mono
        fun hfull => ⟨hfull.1, hfull.2 hiterates⟩
  · obtain ⟨status, hdone⟩ := not_forall_not.mp hgoing
    rw [step_of_done hdone]
    exact htallied.mono And.left

theorem tallied_begin {basis : Basis} (hbasis : basis.Valid t.program) :
    (begin t basis).engine.Tallied t True := by
  have hstart := Engine.faithful_start ht hbasis
  have hrenewed := hstart.tallied_renew ht hpivot (Engine.tallied_start t basis)
  have hsettles := hstart.renew ht hpivot
  refine tallied_proceed ?_ _ _
  unfold Engine.prepare
  generalize (Engine.start t basis).renew t = p at hrenewed hsettles ⊢
  cases p with
  | stopped e status => exact hrenewed
  | going e =>
    have hsettled : e.Settled t := hsettles
    show Engine.Tallied t True (if _ then _ else _)
    split
    · exact hrenewed.1.weighRows hsettled.sound
    · exact hrenewed.1

theorem tallied_iterate_step {basis : Basis} (hbasis : basis.Valid t.program) {n : Nat}
    (hn : ((step t)^[n] (begin t basis)).engine.Tallied t full) (k : Nat) :
    ((step t)^[n + k] (begin t basis)).engine.Tallied t (full ∧
      ∀ i, n ≤ i → i < n + k → ((step t)^[i] (begin t basis)).StepsFully t) := by
  induction k with
  | zero => exact hn.mono And.left
  | succ k ih =>
    have hsettles := settles_iterate_step ht hpivot hbasis (n + k)
    rw [← Nat.add_assoc, Function.iterate_succ_apply']
    exact (tallied_step ht hpivot hsettles ih).mono fun hfull =>
      ⟨⟨hfull.1, fun i hi hik => hfull.2 i hi (by omega)⟩, hfull.2 (n + k) (by omega) (by omega)⟩

end Steps

end Run

namespace Engine

/-! ## Checks that can be run -/

instance (t : Job (Exact 0)) (e : Engine (Exact 0)) : Decidable (e.Priced t) :=
  decidable_of_iff ((∀ j, j < t.size → (e.reducedCostOf j).value =
      (e.costOf j).value - t.worth (arrayAt e.multipliers) j) ∧
    ∀ j, j < t.size → e.statusOf j = .basic → (e.reducedCostOf j).value = 0)
    ⟨fun h => ⟨h.1, h.2⟩, fun h => ⟨h.reducedCost, h.basic⟩⟩

instance (t : Job (Exact 0)) (e : Engine (Exact 0)) : Decidable (e.StepsFully t) :=
  decidable_of_iff ((e.pivot? t).all fun s => decide (0 ≤ s.2.direction.value *
      (s.2.row.entry t s.2.entering).value * (s.1.reducedCostOf s.2.entering).value))
    ⟨fun h e' x hx => by
      rw [hx] at h
      exact of_decide_eq_true h, fun h => by
      cases hx : e.pivot? t with
      | none => rfl
      | some s => exact decide_eq_true (h s.1 s.2 hx)⟩

end Engine

instance (s : Stage) : Decidable s.Iterates :=
  inferInstanceAs (Decidable (_ ∨ _ ∨ _))

instance (t : Job (Exact 0)) (r : Run (Exact 0)) : Decidable (r.StepsFully t) :=
  inferInstanceAs (Decidable (_ → _))

/-- In a basis change the equations of the duals are kept for all variables but the entering
one, and for that just if its ratio is not negative, in which case the step would be cut off.
While no step is cut off, from the start or from any boundary at which the equations hold, the
multipliers and reduced costs are at every boundary what a computation from scratch would give.
A renewal always leads to such duals, and if it keeps the basis it does not change them. -/
theorem Run.duals_at_boundaries {d : Draft (Exact 0)} {lp : LinearProgram (Exact 0)}
    (hbuild : d.build = .ok lp) {basis : Basis} (hbasis : basis.validate lp = .ok ())
    {p : Parameters (Exact 0)} (hp : p.validate = .ok ()) :
    let t : Job (Exact 0) := ⟨lp, p⟩
    let r := fun k => (step t)^[k] (begin t basis)
    (∀ k e x, (r k).stage.Iterates → (r k).engine.pivot? t = some (e, x) → e.Priced t →
      (r (k + 1)).engine = (e.performExchange t x).engine ∧
      (∀ j, j < t.size → x.entering ≠ j → ((e.applyExchange t x).1.reducedCostOf j).value =
        ((e.applyExchange t x).1.costOf j).value -
          t.worth (arrayAt (e.applyExchange t x).1.multipliers) j) ∧
      (∀ j, j < t.size → (e.applyExchange t x).1.statusOf j = .basic →
        ((e.applyExchange t x).1.reducedCostOf j).value = 0) ∧
      ((e.applyExchange t x).1.Priced t ↔ 0 ≤ x.direction.value *
        (x.row.entry t x.entering).value * (e.reducedCostOf x.entering).value)) ∧
    (∀ n k, n = 0 ∨ (r n).engine.Priced t →
      (∀ i, n ≤ i → i < n + k → (r i).StepsFully t) →
      (r (n + k)).engine.factorValid = true → (r (n + k)).engine.DualsSolved t) ∧
    (∀ k e, (r k).engine.renew t = .going e → e.DualsSolved t ∧
      ((r k).engine.factorValid = true → (r k).engine.Priced t →
        e.basicIndex = (r k).engine.basicIndex →
        (∀ i, i < t.rowCount → arrayAt e.multipliers i = arrayAt (r k).engine.multipliers i) ∧
        ∀ j, j < t.size → (e.reducedCostOf j).value = ((r k).engine.reducedCostOf j).value)) ∧
    ∀ k, (∀ status, (r k).stage ≠ .done status) → (r k).engine.factorValid = true := by
  intro t r
  have ht : t.WellFormed := Job.wellFormed_of_build d.canonical_exact hbuild hp
  have hpivot : 0 < t.parameters.pivotTolerance.value := Parameters.pivotTolerance_pos hp
  have hvalid := Basis.valid_of_validate ht.program hbasis
  have hruns : ∀ k, (r k).Settles t := settles_iterate_step ht hpivot hvalid
  have hbegin := tallied_begin ht hpivot hvalid
  have htables : ∀ k, (r k).engine.Tabled t := fun k => by
    have htallied := tallied_iterate_step ht hpivot hvalid (n := 0) hbegin k
    rw [Nat.zero_add] at htallied
    exact htallied.toTabled
  refine ⟨fun k e x hstage hx hpriced => ?_, fun n k hn hsteps hfactor => ?_,
    fun k e hrenew => ?_, fun k hgoes => ((hruns k).settled hgoes).valid⟩
  · have hsettled := (hruns k).settled hstage.ne_done
    obtain ⟨-, -, -, -, -, -, hadvance⟩ := hsettled.sound.of_pivot ht hx
    have hgiven : (r k).engine.Tallied t False := ⟨htables k, False.elim⟩
    obtain ⟨htallied, hrow, hnodup, hlt, hfull⟩ := hsettled.duals_of_pivot ht hpivot hgiven hx
    obtain ⟨hchanging, hfits, -, -⟩ := hsettled.of_pivot ht hpivot hx
    refine ⟨?_, fun j hj hne => ?_, fun j hj hbasic => ?_, ?_⟩
    · show ((step t)^[k + 1] (begin t basis)).engine = _
      rw [Function.iterate_succ_apply']
      exact engine_step_of_advance hstage hadvance
    · exact hpriced.reducedCost_applyExchange ht hchanging.sound hfits htallied.toTabled hrow hj hne
    · exact hpriced.basic_applyExchange ht hchanging.sound hfits htallied.toTabled hrow hnodup hlt
        hj hbasic
    · rw [← hfull]
      exact hpriced.applyExchange_iff ht hchanging.sound hfits htallied.toTabled hrow hnodup hlt
  · have hstart : (r n).engine.Tallied t True := by
      rcases hn with rfl | hpriced
      · exact hbegin
      · exact ⟨htables n, fun _ _ => hpriced⟩
    have htallied := tallied_iterate_step ht hpivot hvalid hstart k
    have hfaithful := (hruns (n + k)).faithful
    exact (hfaithful.current hfactor).dualsSolved ht hfaithful.sound
      (htallied.priced ⟨trivial, hsteps⟩ hfactor)
  · have hfaithful := (hruns k).faithful
    have hgiven : (r k).engine.Tallied t False := ⟨htables k, False.elim⟩
    have hrenewed := hfaithful.tallied_renew ht hpivot hgiven
    have hsettles := hfaithful.renew ht hpivot
    rw [hrenew] at hrenewed hsettles
    have hsettled : e.Settled t := hsettles
    have hpriced := hrenewed.1.priced trivial hsettled.valid
    refine ⟨(hsettled.current hsettled.valid).dualsSolved ht hsettled.sound hpriced,
      fun hfactor hold hindex => ?_⟩
    exact (hfaithful.current hfactor).priced_unique hfaithful.sound hsettled.sound hold hpriced
      hindex hrenewed.2

/-- The first basis change is not cut off, and the duals that it leads to are what a
computation from scratch gives. -/
theorem Run.duals_at_boundaries_triangle : ∃ lp, Draft.triangle.build = .ok lp ∧
    (Basis.slack lp).validate lp = .ok () ∧
    let t : Job (Exact 0) := ⟨lp, .default⟩
    let r := fun k => (step t)^[k] (begin t (Basis.slack lp))
    (∃ e x, (r 2).engine.pivot? t = some (e, x) ∧ (e.applyExchange t x).1.Priced t) ∧
      (r 3).engine.DualsSolved t := by
  obtain ⟨lp, hbuild, hrun⟩ := exists_of_any_toOption (x := Draft.triangle.build)
    (P := fun lp => ((Basis.slack lp).validate lp).toOption.isSome &&
      let t : Job (Exact 0) := ⟨lp, .default⟩
      let r := fun k => (step t)^[k] (begin t (Basis.slack lp))
      decide ((r 2).stage = .auxiliary ∧ (r 3).engine.factorValid = true ∧
        (r 0).StepsFully t ∧ (r 1).StepsFully t ∧ (r 2).StepsFully t) &&
        ((r 2).engine.pivot? t).any fun s : Engine (Exact 0) × Exchange (Exact 0) =>
          decide (s.1.Priced t))
    (by decide +kernel)
  rw [Bool.and_eq_true, Bool.and_eq_true, Option.any_eq_true] at hrun
  obtain ⟨hbasis, hrun, ⟨e, x⟩, hpivot, hpriced⟩ := hrun
  have hbasis := eq_ok_of_isSome hbasis
  obtain ⟨hstage, hfactor, hfirst, hsecond, hthird⟩ := of_decide_eq_true hrun
  have hpriced := of_decide_eq_true hpriced
  obtain ⟨hchange, hduals, -⟩ := duals_at_boundaries hbuild hbasis Parameters.validate_default
  refine ⟨lp, hbuild, hbasis, ⟨e, x, hpivot, ?_⟩,
    hduals 0 3 (Or.inl rfl) (fun i _ hi => ?_) hfactor⟩
  · exact (hchange 2 e x (Or.inl hstage) hpivot hpriced).2.2.2.mpr
      (hthird (Or.inl hstage) e x hpivot)
  · match i, hi with
    | 0, _ => exact hfirst
    | 1, _ => exact hsecond
    | 2, _ => exact hthird

/-- A column with a cost that is negative within the tolerance has to reach two. -/
def Draft.bargain : Draft (Exact 0) :=
  { (blank 2 3).withMatrix #[0, 1, 2, 4] #[0, 1, 0, 1] #[1, 1, 0.5, 2.0] with
    costs := #[-1e-8, 0, 1.99e-7]
    rowLower := #[.finite (2 : Nat), .finite (1 : Nat)] }

/-- The equations of the duals hold, the first basis change cuts its step off, and afterwards
they do not hold.  At the next boundary the multipliers are not those of the basis. -/
theorem Run.duals_cut_off : ∃ lp, Draft.bargain.build = .ok lp ∧
    (Basis.slack lp).validate lp = .ok () ∧
    let p : Parameters (Exact 0) := { Parameters.default with perturbation := false }
    let t : Job (Exact 0) := ⟨lp, p⟩
    let r := fun k => (step t)^[k] (begin t (Basis.slack lp))
    p.validate = .ok () ∧ (r 2).stage.Iterates ∧ (∃ e x, (r 2).engine.pivot? t = some (e, x) ∧
      e.Priced t ∧ ¬(e.applyExchange t x).1.Priced t) ∧
    (r 3).engine.factorValid = true ∧
    arrayAt (r 3).engine.multipliers 0 = 0 ∧
    arrayAt ((r 3).engine.solveDuals t).multipliers 0 = -1e-8 := by
  have hsorted : ∀ j, j < 3 → ((Draft.bargain.matrix.line j).filter fun s =>
      !(s.2 == 0)).Pairwise fun s s' => decide (s.1 ≤ s'.1) = true := by decide +kernel
  -- the sort that `build` uses does not evaluate
  have hlines : (List.range Draft.bargain.columnCount).map (fun j =>
      Draft.tidy (Draft.bargain.matrix.line j)) = (List.range 3).map fun j =>
      (Draft.bargain.matrix.line j).filter fun s => !(s.2 == 0) :=
    List.map_congr_left fun j hj =>
      List.mergeSort_of_pairwise (hsorted j (List.mem_range.mp hj))
  obtain ⟨lp, hbuild, hrun⟩ := exists_of_any_toOption (x := Draft.bargain.build)
    (P := fun lp => ((Basis.slack lp).validate lp).toOption.isSome &&
      let p : Parameters (Exact 0) := { Parameters.default with perturbation := false }
      let t : Job (Exact 0) := ⟨lp, p⟩
      let r := fun k => (step t)^[k] (begin t (Basis.slack lp))
      p.validate.toOption.isSome && (decide ((r 2).stage.Iterates ∧
        (r 3).engine.factorValid = true ∧ arrayAt (r 3).engine.multipliers 0 = 0 ∧
        arrayAt ((r 3).engine.solveDuals t).multipliers 0 = -1e-8) &&
        ((r 2).engine.pivot? t).any fun s : Engine (Exact 0) × Exchange (Exact 0) =>
          decide (s.1.Priced t ∧ ¬(s.1.applyExchange t s.2).1.Priced t)))
    (by unfold Draft.build; rw [hlines]; decide +kernel)
  rw [Bool.and_eq_true, Bool.and_eq_true, Bool.and_eq_true, Option.any_eq_true] at hrun
  obtain ⟨hbasis, hparameters, hrun, ⟨e, x⟩, hpivot, hpriced⟩ := hrun
  obtain ⟨hstage, hfactor, hstale, hnew⟩ := of_decide_eq_true hrun
  exact ⟨lp, hbuild, eq_ok_of_isSome hbasis, eq_ok_of_isSome hparameters, hstage,
    ⟨e, x, hpivot, of_decide_eq_true hpriced⟩, hfactor, hstale, hnew⟩

end DualSimplex
