import DualSimplex.Proofs.Engine.Kept

/-!
# Alarms that are never raised

An engine counts how often the two computations of a pivot element differ, and how often fresh
factors leave a residual.  With exact numbers both counts stay at zero.
-/

namespace DualSimplex

open Scalar Exact

namespace Engine

variable {t : Job (Exact 0)} {e e' : Engine (Exact 0)}

/-- Neither a pivot element nor fresh factors have been found wrong. -/
structure Quiet (e : Engine (Exact 0)) : Prop where
  mismatches : e.statistics.timesMet .pivotMismatch = 0
  residuals : e.statistics.timesMet .residualTooLarge = 0

theorem Quiet.of_core (h : e.Quiet) (hcore : e'.core = e.core) : e'.Quiet where
  mismatches := (congrArg Core.mismatches hcore).trans h.mismatches
  residuals := (congrArg Core.residuals hcore).trans h.residuals

theorem Quiet.of_events (h : e.Quiet) (hevents : e'.statistics.events = e.statistics.events) :
    e'.Quiet where
  mismatches := (congrArg (List.count Difficulty.pivotMismatch) hevents).trans h.mismatches
  residuals := (congrArg (List.count Difficulty.residualTooLarge) hevents).trans h.residuals

theorem Quiet.of_note (h : e.Quiet) (event : Difficulty) (hmismatch : event ≠ .pivotMismatch)
    (hresidual : event ≠ .residualTooLarge)
    (hevents : e'.statistics.events = event :: e.statistics.events) : e'.Quiet where
  mismatches := by
    unfold Statistics.timesMet
    rw [hevents, List.count_cons_of_ne hmismatch]
    exact h.mismatches
  residuals := by
    unfold Statistics.timesMet
    rw [hevents, List.count_cons_of_ne hresidual]
    exact h.residuals

theorem Quiet.weighRows (h : e.Quiet) : (e.weighRows t).Quiet :=
  h.of_events (weighRows_keeps (fun e => e.statistics.events) (fun _ _ => rfl) (fun _ _ => rfl) e)

theorem Quiet.applyExchange (h : e.Quiet) (x : Exchange (Exact 0)) :
    (e.applyExchange t x).1.Quiet where
  mismatches := (congrArg (fun s => s.mismatches) (held_applyExchange e x)).trans h.mismatches
  residuals := (congrArg (fun s => s.residuals) (held_applyExchange e x)).trans h.residuals

section Renewal

variable (ht : t.WellFormed) (hpivot : 0 < t.parameters.pivotTolerance.value)

include ht hpivot

/-- Singular bases and growing factors may be met, but no residual. -/
theorem Faithful.quiet_factorBasis (h : e.Faithful t) (hquiet : e.Quiet) (attempts : Nat)
    (repaired : Bool) : (Engine.factorBasis t attempts repaired e).Ends Quiet Quiet := by
  have hattempts := attempts_factorBasis (t := t) attempts repaired e
  generalize Engine.factorBasis t attempts repaired e = factored at hattempts ⊢
  have hresidual : ∀ {e : Engine (Exact 0)} {summary}, e.Faithful t →
      (e.factor.factorAnew (e.basisMatrix t)).2 = .ok summary →
        ¬tolerableResidual < (e.attempt t).factor.residual (e.basisMatrix t) := by
    intro e summary h hok
    have hzero : ((e.attempt t).factor.residual (e.basisMatrix t)).value = 0 :=
      FactoredBasis.value_residual_factorAnew (squareColumns_basisMatrix ht h.sound.toPlaced)
        (h.tolerance ▸ hpivot) (Prod.ext rfl hok)
    rw [lt_iff, hzero]
    exact not_lt.mpr (by norm_num : (0 : ℚ) ≤ 1e-8)
  induction hattempts with
  | giveUp => exact hquiet
  | accept => exact hquiet.of_events rfl
  | tolerate hok hlarge => exact absurd hlarge (hresidual h hok)
  | raise hok hlarge => exact absurd hlarge (hresidual h hok)
  | @repair _ e pairs _ hsingular _ ih =>
    refine ih (h.repair ht hpivot hsingular)
      (hquiet.of_note .singularBasis (by decide) (by decide) ?_)
    exact congrArg Statistics.events
      (statistics_admitLogicals ((e.attempt t).note .singularBasis) pairs)
  | escalate _ _ ih =>
    exact ih ((h.attempt ht hpivot).1.of_standing (standing_note _ _))
      (hquiet.of_note .pivotThresholdEscalation (by decide) (by decide) rfl)

theorem Faithful.quiet_renew (h : e.Faithful t) (hquiet : e.Quiet) :
    (e.renew t).Keeps Quiet Quiet := by
  have hends := h.quiet_factorBasis ht hpivot hquiet maxAttempts false
  unfold Engine.renew
  generalize Engine.factorBasis t maxAttempts false e = factored at hends ⊢
  cases factored with
  | failed e' => exact hends
  | done e' repaired =>
    have hsolved : (((({ e' with factorValid := true } : Engine (Exact 0)).solveValues
        t).solveDuals t).recordResiduals t).Quiet := by
      refine Quiet.of_events (e := e') hends ?_
      show (({ e' with factorValid := true } : Engine (Exact 0)).solveValues t).statistics.events = _
      rw [solveValues_eq]
      rfl
    show Quiet (if _ then _ else _)
    split
    · unfold Engine.renewWeights
      split
      · exact hsolved.weighRows
      · exact hsolved.of_events rfl
    · exact hsolved

theorem kept_quiet : Kept t Quiet Quiet where
  of_core hcore h := h.of_core hcore
  weaken h := h
  renew h hquiet := h.quiet_renew ht hpivot hquiet
  weighRows _ hquiet := hquiet.weighRows
  update {_ _ x _} _ _ hquiet _ := (hquiet.applyExchange x).of_events rfl
  discard {_ _ x} _ _ hquiet :=
    (hquiet.applyExchange x).of_note .updateSingular (by decide) (by decide) rfl

end Renewal

theorem quiet_start (t : Job (Exact 0)) (basis : Basis) : (start t basis).Quiet :=
  ⟨rfl, rfl⟩

end Engine

namespace Run

variable {t : Job (Exact 0)}

theorem quiet_begin (ht : t.WellFormed) (hpivot : 0 < t.parameters.pivotTolerance.value)
    {basis : Basis} (hbasis : basis.Valid t.program) :
    (begin t basis).Keeps Engine.Quiet Engine.Quiet := by
  have hkept := Engine.kept_quiet ht hpivot
  have hstart := Engine.faithful_start ht hbasis
  refine hkept.proceed ?_ _ _
  refine (hkept.renew hstart (Engine.quiet_start t basis)).map fun e he => ?_
  split
  · exact he.weighRows
  · exact he

end Run

/-- Whatever position a variable leaves from at an iteration boundary and whatever variable the
ratio test selects for it, the pivot element of the column is that of the row and larger than
the pivot tolerance.  So the basis change that is tried is relied on, and the update of the
factors is never unstable.  Any matrix whose fresh factors are accepted leaves no residual, and
neither do the factors at a boundary.  In the whole run and in its result, neither a wrong pivot
element nor a residual is counted. -/
theorem Run.alarms_never_raised {d : Draft (Exact 0)} {lp : LinearProgram (Exact 0)}
    (hbuild : d.build = .ok lp) {basis : Basis} (hbasis : basis.validate lp = .ok ())
    {p : Parameters (Exact 0)} (hp : p.validate = .ok ()) (k : Nat) :
    let t : Job (Exact 0) := ⟨lp, p⟩
    let r := (step t)^[k] (begin t basis)
    (∀ e, (∀ status, r.stage ≠ .done status) → r.engine.renewIfDue t = .going e →
      (∀ position entering, position < t.rowCount → e.Selects t position entering →
        (e.columnElement t position entering).value = (e.rowElement t position entering).value ∧
        p.pivotTolerance.value < |(e.columnElement t position entering).value|) ∧
      ∀ e' x, e.exchange? t = some (e', x) →
        e.Selects t x.position x.entering ∧
        x.pivot = e.columnElement t x.position x.entering ∧
        x.row.entry t x.entering = e.rowElement t x.position x.entering ∧
        Engine.isDoubtful t x = false ∧ ∀ diagonal expected,
          (e'.applyExchange t x).1.factor.update x.position x.pivot ≠
            .error (.unstable diagonal expected)) ∧
    (∀ f f' : FactoredBasis (Exact 0), ∀ columns summary, SquareColumns columns →
      0 < f.parameters.pivotTolerance.value → f.factorAnew columns = (f', .ok summary) →
      (f'.residual columns).value = 0) ∧
    (r.engine.factorValid = true → (r.engine.factor.residual (r.engine.basisMatrix t)).value = 0) ∧
    r.engine.Quiet ∧ (r.engine.conclude t).Quiet := by
  intro t r
  have ht : t.WellFormed := Job.wellFormed_of_build d.canonical_exact hbuild hp
  have hpivot : 0 < t.parameters.pivotTolerance.value := Parameters.pivotTolerance_pos hp
  have hvalid := Basis.valid_of_validate ht.program hbasis
  have hruns : r.Settles t := settles_iterate_step ht hpivot hvalid k
  have hquiet : r.engine.Quiet :=
    ((Engine.kept_quiet ht hpivot).iterate_step ht hpivot hvalid (quiet_begin ht hpivot hvalid)
      k).always
  refine ⟨fun e hgoes hdue => ⟨fun position entering hposition hselects => ?_,
    fun e' x hexchange => ?_⟩, fun f f' columns summary hcolumns htolerance hfactor => ?_,
    fun hfactor => ?_, hquiet, ?_⟩
  · have hsettles := (hruns.settled hgoes).renewIfDue ht hpivot
    rw [hdue] at hsettles
    have hsettled : e.Settled t := hsettles
    have heq := hsettled.columnElement_eq ht hposition (hselects.lt_size hsettled.sound)
    exact ⟨heq, heq ▸ hselects.lt_rowElement⟩
  · have hsettles := (hruns.settled hgoes).renewIfDue ht hpivot
    rw [hdue] at hsettles
    have hsettled : e.Settled t := hsettles
    have hx := hsettled.sound.decided_of_exchange ht hexchange
    exact ⟨hx.selects, hx.pivot_eq_columnElement, hx.entry_eq_rowElement,
      hx.isDoubtful_eq_false ht hsettled hpivot, hx.update_ne_unstable ht hsettled⟩
  · exact FactoredBasis.value_residual_factorAnew hcolumns htolerance hfactor
  · exact (hruns.faithful.current hfactor).value_residual ht hruns.faithful.sound
  · exact hquiet.of_core (Engine.core_of_held (Engine.held_conclude _))

/-- The first basis change of a run: its element in the row and in the column. -/
theorem Run.alarms_never_raised_triangle : ∃ lp, Draft.triangle.build = .ok lp ∧
    (Basis.slack lp).validate lp = .ok () ∧
    let t : Job (Exact 0) := ⟨lp, .default⟩
    let r := (step t)^[2] (begin t (Basis.slack lp))
    r.engine.Quiet ∧ ∃ e e' x, r.engine.renewIfDue t = .going e ∧
      e.exchange? t = some (e', x) ∧ x.pivot.value = (x.row.entry t x.entering).value ∧
      Engine.isDoubtful t x = false := by
  obtain ⟨lp, hbuild, hrun⟩ := exists_of_any_toOption (x := Draft.triangle.build)
    (P := fun lp => ((Basis.slack lp).validate lp).toOption.isSome &&
      let t : Job (Exact 0) := ⟨lp, .default⟩
      let r := (step t)^[2] (begin t (Basis.slack lp))
      decide (r.stage = .auxiliary) && r.engine.factor.renewalReason?.isNone &&
        (r.engine.exchange? t).any fun s => decide (s.2.position < t.rowCount))
    (by decide +kernel)
  rw [Bool.and_eq_true, Bool.and_eq_true, Bool.and_eq_true, Option.any_eq_true] at hrun
  obtain ⟨hbasis, ⟨hstage, hdue⟩, ⟨e', x⟩, hexchange, hposition⟩ := hrun
  have hbasis := eq_ok_of_isSome hbasis
  have hstage := of_decide_eq_true hstage
  have hposition := of_decide_eq_true hposition
  let t : Job (Exact 0) := ⟨lp, .default⟩
  let r := (step t)^[2] (begin t (Basis.slack lp))
  have hdue : r.engine.renewIfDue t = .going r.engine := by
    unfold Engine.renewIfDue
    rw [Option.isNone_iff_eq_none.mp hdue]
  obtain ⟨hpivots, -, -, hquiet, -⟩ :=
    alarms_never_raised hbuild hbasis Parameters.validate_default 2
  obtain ⟨helement, hexchanges⟩ := hpivots r.engine
    (fun status hdone => Stage.noConfusion (hstage.symm.trans hdone)) hdue
  obtain ⟨hselects, hcolumn, hrow, hreliable, -⟩ := hexchanges e' x hexchange
  refine ⟨lp, hbuild, hbasis, hquiet, r.engine, e', x, hdue, hexchange, ?_, hreliable⟩
  rw [hcolumn, hrow]
  exact (helement x.position x.entering hposition hselects).1

end DualSimplex
