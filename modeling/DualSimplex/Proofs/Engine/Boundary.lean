import Mathlib.Logic.Function.Iterate
import DualSimplex.Proofs.Engine.Iteration
import DualSimplex.Proofs.Engine.Moves

/-!
# Iteration boundaries

Every engine that a run comes by at the boundary of an iteration is consistent,
whatever phases, repairs, cycles and reviews lie behind it.
-/

namespace DualSimplex

open Scalar

variable {α : Type} [Scalar α]

namespace Engine

variable {t : Job α} {e e' : Engine α} [OrderedScalar α]

/-! ## Changing the bounds of all variables -/

omit [Scalar α] [OrderedScalar α] in
theorem mem_nonbasic {j : Nat} : j ∈ e.nonbasic t ↔ j < t.size ∧ e.statusOf j ≠ .basic := by
  unfold Engine.nonbasic Job.indices Engine.isBasic VariableStatus.isBasic
  rw [List.mem_filter, List.mem_range]
  simp

omit [OrderedScalar α] in
theorem proper_getD {bounds : Array (Interval α)} (h : ∀ b ∈ bounds, b.Canonical) (j : Nat) :
    (bounds.getD j { lower := .negInf, upper := .posInf }).Proper := by
  by_cases hj : j < bounds.size
  · rw [getD_eq_getElem hj]
    exact (h _ (Array.getElem_mem hj)).proper
  · rw [getD_of_size_le (Nat.le_of_not_lt hj)]
    exact Interval.canonical_unbounded.proper

/-- An engine whose resting variables have all been put to rest anew. -/
theorem sound_foldl_rest {f : Engine α → Nat → VariableStatus} (hshaped : e.Shaped t)
    (hplaced : e.Placed t) (hweights : e.weights.Bounded) (hfactor : e.factor.WellFormed t.rowCount)
    (hallows : ∀ e' : Engine α, e'.bounds = e.bounds → ∀ j, j < t.size →
      (e'.boundsOf j).allows (f e' j) = true)
    (hbasic : ∀ e' : Engine α, ∀ j, e'.statusOf j ≠ .basic → f e' j ≠ .basic) :
    ((e.nonbasic t).foldl (fun e j => e.rest j (f e j)) e).Sound t := by
  have hsetting : ((e.nonbasic t).foldl (fun e j => e.rest j (f e j)) e).setting = e.setting :=
    foldl_keeps setting (fun e j => setting_rest e j _) _ _
  have hrests := rests_foldl_rest (f := f) (l := e.nonbasic t) hshaped
    (fun e' he' j hj => hallows e' he' j (mem_nonbasic.mp hj).1) fun j hj => by
      refine restsAt_of_basic ?_
      by_contra hstatus
      exact hj (mem_nonbasic.mpr ⟨hshaped.lt_of_statusOf_ne hstatus, hstatus⟩)
  have hstatus := statusOf_foldl_rest hbasic (l := e.nonbasic t) (e := e)
    fun j hj => (mem_nonbasic.mp hj).2
  exact ⟨hrests, hplaced.of_statuses (basicIndex_congr hsetting) hstatus,
    by rw [weights_congr hsetting]; exact hweights,
    hfactor.congr (lu_congr hsetting) (spike_congr hsetting)⟩

/-! ## Phase one -/

theorem canonical_auxiliary (b : Interval α) : b.auxiliary.Canonical := by
  have hzero := OrderedScalar.isFinite_zero (α := α)
  have hone := OrderedScalar.isFinite_one (α := α)
  have hthousand := OrderedScalar.isFinite_thousand (α := α)
  have hneg : ∀ x : α, isFinite x = true → isFinite (-x) = true :=
    fun x hx => (OrderedScalar.isFinite_neg x).trans hx
  unfold Interval.auxiliary
  cases b.kind with
  | lower => exact Interval.canonical_between hzero hone
  | upper => exact Interval.canonical_between (hneg _ hone) hzero
  | free => exact Interval.canonical_between (hneg _ hthousand) hthousand
  | boxed => exact Interval.canonical_between hzero hzero
  | fixed => exact Interval.canonical_between hzero hzero

theorem isFinite_auxiliary (b : Interval α) :
    b.auxiliary.lower.isFinite = true ∧ b.auxiliary.upper.isFinite = true := by
  have hcanonical := canonical_auxiliary b
  have hfinite : ∃ x y, b.auxiliary = .between x y := by
    unfold Interval.auxiliary
    cases b.kind with
    | lower => exact ⟨_, _, rfl⟩
    | upper => exact ⟨_, _, rfl⟩
    | free => exact ⟨_, _, rfl⟩
    | boxed => exact ⟨_, _, rfl⟩
    | fixed => exact ⟨_, _, rfl⟩
  obtain ⟨x, y, he⟩ := hfinite
  rw [he] at hcanonical ⊢
  exact ⟨hcanonical.lower x rfl, hcanonical.upper y rfl⟩

omit [OrderedScalar α] in
theorem allows_feasibleStatus {b : Interval α} (hlower : b.lower.isFinite = true)
    (hupper : b.upper.isFinite = true) (reducedCost : α) :
    b.allows (feasibleStatus b reducedCost) = true := by
  unfold feasibleStatus
  split
  · assumption
  · split
    · exact hlower
    · exact hupper

omit [OrderedScalar α] in
theorem feasibleStatus_ne_basic (b : Interval α) (reducedCost : α) :
    feasibleStatus b reducedCost ≠ .basic := by
  unfold feasibleStatus
  split
  · exact nofun
  · split
    · exact nofun
    · exact nofun

omit [OrderedScalar α] in
theorem allows_finalStatus (b : Interval α) (reducedCost : α) :
    b.allows (finalStatus b reducedCost) = true ∧ finalStatus b reducedCost ≠ .basic := by
  unfold finalStatus Interval.kind
  cases hlower : b.lower.isFinite <;> cases hupper : b.upper.isFinite <;>
    cases hpoint : b.isPoint <;> by_cases hcost : reducedCost < 0 <;>
    simp [Interval.allows, hlower, hupper, hpoint, hcost]

/-- The auxiliary problem before the basic values are brought up to date. -/
def restAuxiliary (t : Job α) (e : Engine α) : Engine α :=
  let e := { e with
    phase := .one
    relaxed := []
    bounds := t.bounds.map Interval.auxiliary }
  (e.nonbasic t).foldl
    (fun e j => e.rest j (feasibleStatus (e.boundsOf j) (e.reducedCostOf j))) e

theorem Sound.restAuxiliary (ht : t.WellFormed) (h : e.Sound t) : (e.restAuxiliary t).Sound t := by
  have hbounds : ∀ j, j < t.size → ∃ b : Interval α,
      (t.bounds.map Interval.auxiliary).getD j { lower := .negInf, upper := .posInf } =
        b.auxiliary := by
    intro j hj
    have hj : j < t.bounds.size := ht.size_bounds.symm ▸ hj
    have hmap : j < (t.bounds.map Interval.auxiliary).size := Array.size_map.symm ▸ hj
    refine ⟨t.bounds[j], ?_⟩
    rw [getD_eq_getElem hmap]
    exact Array.getElem_map ..
  refine sound_foldl_rest (f := fun e j => feasibleStatus (e.boundsOf j) (e.reducedCostOf j))
    ⟨h.size_status, h.size_value, ?_, ?_, nofun⟩ (h.toPlaced.of_statuses rfl fun _ => Iff.rfl)
    h.weights h.factor (fun e' he' j hj => ?_) fun e' j hj => ?_
  · exact Array.size_map.trans ht.size_bounds
  · refine proper_getD fun b hb => ?_
    obtain ⟨c, -, rfl⟩ := Array.mem_map.mp hb
    exact canonical_auxiliary c
  · obtain ⟨b, hb⟩ := hbounds j hj
    have hb : e'.boundsOf j = b.auxiliary := by
      unfold Engine.boundsOf
      rw [he']
      exact hb
    rw [hb]
    exact allows_feasibleStatus (isFinite_auxiliary b).1 (isFinite_auxiliary b).2 _
  · exact feasibleStatus_ne_basic _ _

theorem Sound.enterAuxiliary (ht : t.WellFormed) (h : e.Sound t) : (e.enterAuxiliary t).Sound t :=
  (h.restAuxiliary ht).solveValues

omit [OrderedScalar α] in
theorem Shaped.programBounds [OrderedScalar α] (ht : t.WellFormed) (h : e.Shaped t) :
    Shaped t { e with phase := .two, relaxed := [], bounds := t.bounds } where
  size_status := h.size_status
  size_value := h.size_value
  size_bounds := ht.size_bounds
  proper := proper_getD fun _ => ht.canonical_bounds
  relaxed := nofun

theorem Sound.restoreBounds (ht : t.WellFormed) (h : e.Sound t) : (e.restoreBounds t).Sound t := by
  refine sound_foldl_rest (f := fun e j => if (e.boundsOf j).allows (e.statusOf j) then
      e.statusOf j else (e.boundsOf j).restingStatus)
    (h.toShaped.programBounds ht) (h.toPlaced.of_statuses rfl fun _ => Iff.rfl) h.weights h.factor
    (fun e' _ j _ => ?_) fun e' j hj => ?_
  · split
    · assumption
    · exact Interval.allows_restingStatus _
  · split
    · exact hj
    · exact Interval.restingStatus_ne_basic _

/-- The program after phase one, before the basic values are brought up to date. -/
def restFinally (t : Job α) (e : Engine α) : Engine α :=
  ((e.restoreBounds t).nonbasic t).foldl
    (fun e j => e.rest j (finalStatus (e.boundsOf j) (e.reducedCostOf j))) (e.restoreBounds t)

omit [OrderedScalar α] in
/-- The direction that phase one has found is kept if it is a primal ray.  It is only
looked at if some reduced cost is of the wrong sign. -/
theorem leaveAuxiliary_cases (e : Engine α) :
    ((∀ j ∈ (e.restoreBounds t).nonbasic t,
        ¬t.parameters.dualTolerance < (e.restFinally t).dualInfeasibility j) ∧
      e.leaveAuxiliary t = .dualFeasible ((e.restFinally t).solveValues t)) ∨
    (isPrimalRay t.program (e.value.take t.columnCount) t.parameters.primalTolerance = true ∧
      e.leaveAuxiliary t = .ray { (e.restFinally t).solveValues t with
        primalRay := some (e.value.take t.columnCount) }) ∨
    e.leaveAuxiliary t = .dualFeasible
      ((((e.restFinally t).solveValues t).note .unboundedRayRejected).settleReducedCosts t) := by
  unfold Engine.leaveAuxiliary
  dsimp only
  split
  · rename_i hfeasible
    rw [Bool.not_eq_true', List.any_eq_false] at hfeasible
    exact Or.inl ⟨fun j hj => of_decide_eq_false (Bool.eq_false_iff.mpr (hfeasible j hj)), rfl⟩
  · split
    · rename_i hray
      exact Or.inr (Or.inl ⟨hray, rfl⟩)
    · exact Or.inr (Or.inr rfl)

theorem Sound.restFinally (ht : t.WellFormed) (h : e.Sound t) : (e.restFinally t).Sound t := by
  have hrestored := h.restoreBounds ht
  exact sound_foldl_rest
    (f := fun e j => finalStatus (e.boundsOf j) (e.reducedCostOf j)) hrestored.toShaped
    hrestored.toPlaced hrestored.weights hrestored.factor
    (fun e' _ j _ => (allows_finalStatus _ _).1) fun e' j _ => (allows_finalStatus _ _).2

theorem Sound.leaveAuxiliary (ht : t.WellFormed) (h : e.Sound t) :
    (e.leaveAuxiliary t).engine.Sound t := by
  have hvalues := (h.restFinally ht).solveValues
  rcases leaveAuxiliary_cases (t := t) e with heq | heq | heq
  · rw [heq.2]
    exact hvalues
  · rw [heq.2]
    exact hvalues.withRays _ _
  · rw [heq]
    exact (hvalues.of_standing (standing_note _ _)).settleReducedCosts

/-! ## Recoveries and verdicts -/

theorem Sound.rejectRay (ht : t.WellFormed) (h : e.Sound t) : (e.rejectRay t).engine.Sound t := by
  have h := h.of_standing (standing_note e .unboundedRayRejected)
  unfold Engine.rejectRay Engine.recover
  split
  · rename_i e' hundo
    exact (h.undoRelaxations hundo).solveValues
  · refine Progress.engine_andThen (h.of_standing (standing_countRecovery _)) fun e he => ?_
    exact (he.of_standing (standing_raiseThreshold e)).renewAndSettle ht

theorem Sound.prepare (ht : t.WellFormed) (h : e.Sound t) : (e.prepare t).engine.Sound t := by
  refine Progress.engine_andThen (h.renew ht) fun e he => ?_
  show Sound t (if _ then _ else _)
  split
  · exact he.weighRows
  · exact he

theorem Sound.withoutRelaxations (h : e.Sound t) : (e.withoutRelaxations t).Sound t := by
  unfold Engine.withoutRelaxations
  split
  · rename_i e' hundo
    exact ((h.undoRelaxations hundo).of_standing (standing_resetCosts _)).solveValues
  · exact h.of_standing (standing_resetCosts e)

theorem Sound.foldl_flip (h : e.Sound t) {l : List Nat} (hl : ∀ j ∈ l, e.hasTwoBounds j = true) :
    (l.foldl Engine.flip e).Sound t := by
  induction l generalizing e with
  | nil => exact h
  | cons j l ih =>
    exact ih (h.flip (hl j List.mem_cons_self)) fun k hk => hl k (List.mem_cons_of_mem j hk)

theorem Sound.foldl_wronglyResting (h : e.Sound t) :
    ((e.wronglyResting t).foldl Engine.flip e).Sound t :=
  h.foldl_flip fun _ hj => (List.mem_filter.mp hj).2

theorem Sound.reviewed (h : e.Sound t) : (e.reviewed t).Sound t := by
  have h := h.withoutRelaxations.of_standing (standing_solveDuals (t := t) _)
  unfold Engine.reviewed
  dsimp only
  split
  · exact h.foldl_wronglyResting
  · exact h.foldl_wronglyResting.solveValues

omit [OrderedScalar α] in
theorem Sound.refreshValues (h : e.Sound t) : (e.refreshValues t).Sound t := by
  unfold Engine.refreshValues
  split
  · exact h.solveValues
  · exact h

theorem Sound.conclude (ht : t.WellFormed) (h : e.Sound t) : (e.conclude t).Sound t := by
  obtain ⟨e₁, e₂, hbounds, hundo, hstanding, -⟩ := conclude_cases (t := t) e
  have h₁ : e₁.Sound t := by
    rcases hbounds with ⟨-, rfl⟩ | ⟨-, rfl⟩
    · exact (h.restoreBounds ht).refreshValues
    · exact h
  have h₂ : e₂.Sound t := by
    rcases hundo with ⟨-, rfl⟩ | ⟨e', hundo, rfl⟩
    · exact h₁
    · exact (h₁.undoRelaxations hundo).refreshValues
  exact h₂.of_standing hstanding

/-! ## The start -/

section Start

variable (ht : t.WellFormed) {basis : Basis} (hbasis : basis.Valid t.program)

omit [OrderedScalar α] in
theorem boundsOf_start (ht : t.WellFormed) (j : Nat) : (start t basis).boundsOf j =
    if j < t.columnCount then t.program.columnBounds.getD j { lower := .negInf, upper := .posInf }
    else (t.program.rowBounds.getD (j - t.columnCount)
      { lower := .negInf, upper := .posInf }).neg :=
  ht.getD_bounds j

omit [OrderedScalar α] in
theorem statusOf_start (hbasis : basis.Valid t.program) (j : Nat) : (start t basis).statusOf j =
    if j < t.columnCount then basis.columns.getD j .basic
    else (basis.rows.getD (j - t.columnCount) .basic).opposite := by
  refine (Matrix.getD_append ..).trans ?_
  have hsize : basis.columns.size = t.columnCount := hbasis.size_columns
  rw [hsize]
  by_cases hj : j < t.columnCount
  · rw [if_pos hj, if_pos hj]
  · rw [if_neg hj, if_neg hj]
    exact getD_map VariableStatus.opposite _ _ .basic

include ht hbasis

theorem allows_start (j : Nat) :
    ((start t basis).boundsOf j).allows ((start t basis).statusOf j) = true := by
  rw [boundsOf_start ht, statusOf_start hbasis]
  split
  · exact hbasis.columns j _
  · exact Interval.allows_neg (hbasis.rows _ _)

omit ht [OrderedScalar α] in
theorem size_status_start : (start t basis).status.size = t.size := by
  refine Array.size_append.trans ?_
  rw [Array.size_map, hbasis.size_columns, hbasis.size_rows]
  rfl

theorem rests_start : (start t basis).Rests t := by
  have hsize : (start t basis).value.size = t.size := by
    refine Array.size_zipWith.trans ?_
    rw [ht.size_bounds]
    exact (congrArg _ (size_status_start hbasis)).trans (min_self _)
  refine ⟨⟨size_status_start hbasis, hsize, ht.size_bounds, ?_, nofun⟩, fun j => ?_⟩
  · exact proper_getD fun _ => ht.canonical_bounds
  · have hallows := allows_start ht hbasis j
    refine ⟨hallows, fun hstatus => ?_⟩
    have hj : j < t.size := by
      by_contra hge
      refine hstatus (getD_of_size_le ?_ _)
      rw [size_status_start hbasis]
      omega
    have hvalue : (start t basis).valueOf j =
        ((start t basis).boundsOf j).restingValue ((start t basis).statusOf j) := by
      have hvalue : j < (start t basis).value.size := hsize ▸ hj
      have hbound : j < (start t basis).bounds.size := ht.size_bounds.symm ▸ hj
      have hstatus : j < (start t basis).status.size := (size_status_start hbasis).symm ▸ hj
      unfold Engine.valueOf Engine.boundsOf Engine.statusOf
      rw [getD_eq_getElem hvalue, getD_eq_getElem hbound, getD_eq_getElem hstatus]
      exact Array.getElem_zipWith ..
    rw [hvalue]
    exact Interval.beq_restingValue hallows

omit ht [OrderedScalar α] in
theorem placed_start : (start t basis).Placed t := by
  have hindex : (start t basis).basicIndex.toList =
      t.indices.filter fun j => ((start t basis).statusOf j).isBasic := List.toList_toArray ..
  have hstatus := toList_status (size_status_start hbasis)
  refine ⟨?_, ?_, fun j hj => ?_, fun j hj => ?_⟩
  · rw [← Array.length_toList, hindex, ← List.countP_eq_length_filter]
    have hstart : (start t basis).status.toList =
        basis.columns.toList ++ basis.rows.toList.map VariableStatus.opposite := by
      refine Array.toList_append.trans ?_
      rw [Array.toList_map]
    have hopposite : VariableStatus.isBasic ∘ VariableStatus.opposite = VariableStatus.isBasic :=
      funext VariableStatus.isBasic_opposite
    have hcount : (start t basis).status.toList.countP VariableStatus.isBasic = t.rowCount := by
      rw [hstart, List.countP_append, List.countP_map, hopposite, ← List.countP_append]
      exact hbasis.count
    rw [hstatus, List.countP_map] at hcount
    exact hcount
  · rw [hindex]
    exact List.nodup_range.filter _
  · rw [hindex] at hj
    exact List.mem_range.mp (List.mem_filter.mp hj).1
  · rw [hindex, List.mem_filter]
    constructor
    · intro hbasic
      exact of_decide_eq_true hbasic.2
    · intro hbasic
      exact ⟨List.mem_range.mpr hj, decide_eq_true hbasic⟩

theorem sound_start : (start t basis).Sound t :=
  ⟨rests_start ht hbasis, placed_start hbasis, EdgeWeights.bounded_ofRule _ _,
    FactoredBasis.wellFormed_identity _ _⟩

end Start

/-- What has to hold of an engine between two iterations.  A value outside the
basis is the bound that the status names, zero without bounds. -/
structure Consistent (t : Job α) (e : Engine α) : Prop where
  size_status : e.status.size = t.columnCount + t.rowCount
  size_value : e.value.size = t.columnCount + t.rowCount
  size_bounds : e.bounds.size = t.columnCount + t.rowCount
  size_basicIndex : e.basicIndex.size = t.rowCount
  nodup : e.basicIndex.toList.Nodup
  lt : ∀ j ∈ e.basicIndex, j < t.columnCount + t.rowCount
  basic_iff : ∀ j, j < t.columnCount + t.rowCount → (e.statusOf j = .basic ↔ j ∈ e.basicIndex)
  allows : ∀ j, e.statusOf j ≠ .basic → (e.boundsOf j).allows (e.statusOf j) = true
  value : ∀ j, e.statusOf j ≠ .basic →
    (e.valueOf j == (e.boundsOf j).restingValue (e.statusOf j)) = true
  one_le_weight : ∀ weights, e.weights.weights? = some weights → ∀ w ∈ weights, 1 ≤ w
  devex_weight_le : ∀ weights resets, e.weights = .devex weights resets → ∀ w ∈ weights, w ≤ 1e7

omit [OrderedScalar α] in
theorem Sound.consistent (h : e.Sound t) : e.Consistent t where
  size_status := h.size_status
  size_value := h.size_value
  size_bounds := h.size_bounds
  size_basicIndex := h.size_basicIndex
  nodup := h.nodup
  lt j hj := h.lt j (Array.mem_toList_iff.mpr hj)
  basic_iff j hj := (h.mem_iff j hj).symm.trans Array.mem_toList_iff
  allows j _ := (h.rests j).allows
  value j hj := (h.rests j).value hj
  one_le_weight := h.weights.one_le
  devex_weight_le := h.weights.le_limit

end Engine

/-! ## Runs -/

namespace Run

variable [OrderedScalar α] {t : Job α}

omit [Scalar α] [OrderedScalar α] in
theorem engine_proceed {P : Engine α → Prop} {p : Progress α} (hp : P p.engine) (r : Run α)
    (stage : Stage) : P (r.proceed p stage).engine := by
  cases p with
  | going e => exact hp
  | stopped e status => exact hp

theorem sound_begin (ht : t.WellFormed) {basis : Basis} (hbasis : basis.Valid t.program) :
    (begin t basis).engine.Sound t :=
  engine_proceed ((Engine.sound_start ht hbasis).prepare ht) _ _

theorem Answers.sound (ht : t.WellFormed) {r r' : Run α} {s : Step α} (hs : s.engine.Sound t)
    (hanswers : r.Answers t s r') : r'.engine.Sound t := by
  cases hanswers with
  | next => exact hs
  | stopped => exact hs
  | reject => exact engine_proceed (Engine.Sound.rejectRay ht hs) _ _
  | accept => exact Engine.Sound.withRays hs _ _
  | acceptInstead => exact Engine.Sound.withRays hs _ _
  | leave => exact Engine.Sound.leaveAuxiliary ht hs
  | toReview => exact hs
  | undo _ hundo => exact (Engine.Sound.undoRelaxations hs hundo).solveValues
  | feasible => exact hs

/-- A step to the next boundary. -/
theorem sound_step (ht : t.WellFormed) {r : Run α} (h : r.engine.Sound t) :
    (r.step t).engine.Sound t := by
  have hmoves := moves_step t r
  generalize r.step t = r' at hmoves ⊢
  cases hmoves with
  | stay => exact h
  | needsPhaseOne => exact h
  | settle => exact h.settleReducedCosts
  | enterAuxiliary => exact h.enterAuxiliary ht
  | perturb => exact h.of_standing (Engine.standing_perturbAll _)
  | enterMain => exact h
  | enterFeasibility => exact h.of_standing (Engine.standing_dropCosts _)
  | review => exact h.reviewed
  | iterate _ hanswers => exact hanswers.sound ht (h.advance ht)

theorem sound_iterate_step (ht : t.WellFormed) {basis : Basis} (hbasis : basis.Valid t.program)
    (k : Nat) : ((step t)^[k] (begin t basis)).engine.Sound t := by
  induction k with
  | zero => exact sound_begin ht hbasis
  | succ k ih =>
    rw [Function.iterate_succ_apply']
    exact sound_step ht ih

end Run

/-- A job that was accepted is well formed. -/
theorem Job.wellFormed_of_build {d : Draft α} [OrderedScalar α] (hd : d.Canonical)
    {lp : LinearProgram α} (hbuild : d.build = .ok lp) {p : Parameters α} {u : Unit}
    (hp : p.validate = .ok u) : (Job.mk lp p).WellFormed where
  program := Draft.wellFormed_build hd hbuild
  isFinite_primalTolerance := (Parameters.tolerances_of_validate hp).1.1
  primalTolerance_pos := (Parameters.tolerances_of_validate hp).1.2

/-- The engine is consistent at the start of a solve, at every boundary of an
iteration, after a renewal of the factors that is due there, and when the solve is
concluded there. -/
theorem Run.consistent_at_boundaries [OrderedScalar α] {d : Draft α} (hd : d.Canonical)
    {lp : LinearProgram α} (hbuild : d.build = .ok lp) {basis : Basis}
    (hbasis : basis.validate lp = .ok ()) {p : Parameters α} (hp : p.validate = .ok ()) (k : Nat) :
    (Engine.start ⟨lp, p⟩ basis).Consistent ⟨lp, p⟩ ∧
    ((step ⟨lp, p⟩)^[k] (begin ⟨lp, p⟩ basis)).engine.Consistent ⟨lp, p⟩ ∧
    (((step ⟨lp, p⟩)^[k] (begin ⟨lp, p⟩ basis)).engine.renewIfDue ⟨lp, p⟩).engine.Consistent
      ⟨lp, p⟩ ∧
    (((step ⟨lp, p⟩)^[k] (begin ⟨lp, p⟩ basis)).engine.conclude ⟨lp, p⟩).Consistent ⟨lp, p⟩ := by
  have ht := Job.wellFormed_of_build hd hbuild hp
  have hvalid : basis.Valid (Job.mk lp p).program := Basis.valid_of_validate ht.program hbasis
  have hrun := sound_iterate_step ht hvalid k
  exact ⟨(Engine.sound_start ht hvalid).consistent, hrun.consistent,
    (hrun.renewIfDue ht).consistent, (hrun.conclude ht).consistent⟩

/-- Minimize `y - x` where neither is negative and `x + y` is three at most. -/
def Draft.triangle : Draft (Exact 0) :=
  { (blank 1 2).withMatrix #[0, 1, 2] #[0, 0] #[1, 1] with
    costs := #[-1, 1]
    rowUpper := #[.finite (3 : Nat)] }

theorem Parameters.validate_default :
    (Parameters.default : Parameters (Exact 0)).validate = .ok () :=
  eq_ok_of_isSome (by decide +kernel)

theorem Run.consistent_at_boundaries_triangle : ∃ lp,
    Draft.triangle.build = .ok lp ∧ (Basis.slack lp).validate lp = .ok () ∧
    ((step ⟨lp, .default⟩)^[3] (begin ⟨lp, .default⟩ (Basis.slack lp))).engine.Consistent
      ⟨lp, .default⟩ := by
  have hparameters : (Parameters.default : Parameters (Exact 0)).validate = .ok () := by
    have hok : (Parameters.default : Parameters (Exact 0)).validate.toOption.isSome = true := by
      decide +kernel
    cases h : (Parameters.default : Parameters (Exact 0)).validate with
    | error e => rw [h] at hok; exact absurd hok Bool.false_ne_true
    | ok u => rfl
  have hok : (Draft.triangle.build.toOption.all fun lp =>
      ((Basis.slack lp).validate lp).toOption.isSome) = true ∧
      Draft.triangle.build.toOption.isSome = true := by decide +kernel
  cases hbuild : Draft.triangle.build with
  | error e =>
    rw [hbuild] at hok
    exact absurd hok.2 Bool.false_ne_true
  | ok lp =>
    rw [hbuild] at hok
    have hbasis : (Basis.slack lp).validate lp = .ok () := by
      cases h : (Basis.slack lp).validate lp with
      | error e =>
        have hvalid := hok.1
        rw [show (Except.ok lp).toOption.all _ = ((Basis.slack lp).validate lp).toOption.isSome
          from rfl, h] at hvalid
        exact absurd hvalid Bool.false_ne_true
      | ok u => rfl
    have hcanonical : Draft.triangle.Canonical := by
      constructor <;> exact fun _ _ _ _ => Or.inl rfl
    exact ⟨lp, rfl, hbasis,
      (consistent_at_boundaries hcanonical hbuild hbasis hparameters 3).2.1⟩

end DualSimplex
