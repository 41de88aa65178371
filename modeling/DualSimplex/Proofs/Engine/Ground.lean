import DualSimplex.Proofs.Engine.Boundary

/-!
# What relaxations and phases can be taken back to

Relaxed bounds are kept on a stack.  The bounds that the stack leads back to, the
phase and the rays make up the ground of an engine, and a step within a phase does
not move it, whatever it relaxes, repairs or renews.
-/

namespace DualSimplex

open Scalar

variable {α : Type}

/-- The bounds with relaxations taken back, the latest first. -/
def unwind (bounds : Array (Interval α)) (relaxed : List (Nat × Interval α)) :
    Array (Interval α) :=
  relaxed.foldl (fun bs r => bs.setIfInBounds r.1 r.2) bounds

/-- Taking back the latest relaxation gives the bounds before it. -/
theorem unwind_relax (bounds : Array (Interval α)) (relaxed : List (Nat × Interval α)) (j : Nat)
    (b default : Interval α) :
    unwind (bounds.setIfInBounds j b) ((j, bounds.getD j default) :: relaxed) =
      unwind bounds relaxed := by
  have hback : (bounds.setIfInBounds j b).setIfInBounds j (bounds.getD j default) = bounds := by
    rw [Array.setIfInBounds_setIfInBounds]
    refine Array.ext Array.size_setIfInBounds fun i hi hi' => ?_
    rw [Array.getElem_setIfInBounds]
    split
    · rename_i hij
      subst hij
      exact getD_eq_getElem hi' default
    · rfl
  exact congrArg (unwind · relaxed) hback

/-- What an engine stands on. -/
structure Ground (α : Type) where
  phase : Phase
  bounds : Array (Interval α)
  dualRay : Option (Array α)
  primalRay : Option (Array α)

/-- The status of a solve that has given up or was stopped. -/
def SolveStatus.Inconclusive (s : SolveStatus) : Prop :=
  s = .iterationLimit ∨ s = .timeLimit ∨ s = .userInterrupt ∨ s = .numericalError

namespace Engine

def ground (e : Engine α) : Ground α where
  phase := e.phase
  bounds := unwind e.bounds e.relaxed
  dualRay := e.dualRay
  primalRay := e.primalRay

theorem ground_of_setting {e e' : Engine α} (h : e'.setting = e.setting) :
    e'.ground = e.ground :=
  congrArg (fun s : Setting α => Ground.mk s.phase (unwind s.bounds s.relaxed) s.dualRay
    s.primalRay) h

theorem ground_of_standing {e e' : Engine α} (h : e'.standing = e.standing) :
    e'.ground = e.ground :=
  ground_of_setting (setting_congr h)

/-- Without relaxations the engine stands on its bounds. -/
theorem bounds_of_ground {e : Engine α} {g : Ground α} (h : e.ground = g)
    (hrelaxed : e.relaxed = []) : e.bounds = g.bounds := by
  rw [← h]
  unfold ground
  rw [hrelaxed]
  rfl

variable [Scalar α] {t : Job α} {e e' : Engine α}

/-! ## Relaxations -/

theorem ground_relaxBound (e : Engine α) (j : Nat) : (e.relaxBound j).ground = e.ground := by
  have hkeep : ∀ b, ({ e with
      relaxed := (j, e.boundsOf j) :: e.relaxed }.setBounds j b).ground = e.ground := by
    intro b
    have hback := unwind_relax e.bounds e.relaxed j b { lower := .negInf, upper := .posInf }
    exact congrArg (Ground.mk e.phase · e.dualRay e.primalRay) hback
  unfold Engine.relaxBound
  dsimp only
  split
  · exact hkeep _
  · split
    · exact hkeep _
    · rfl

theorem ground_foldl_relaxBound (l : List Nat) (e : Engine α) :
    (l.foldl Engine.relaxBound e).ground = e.ground :=
  foldl_keeps ground ground_relaxBound l e

/-- Where variables rest does not matter for the bounds that come back. -/
theorem bounds_foldl_undoRelaxation (l : List (Nat × Interval α)) (e : Engine α) :
    (l.foldl (fun e r => e.undoRelaxation r.1 r.2) e).bounds = unwind e.bounds l ∧
    (l.foldl (fun e r => e.undoRelaxation r.1 r.2) e).phase = e.phase ∧
    (l.foldl (fun e r => e.undoRelaxation r.1 r.2) e).dualRay = e.dualRay ∧
    (l.foldl (fun e r => e.undoRelaxation r.1 r.2) e).primalRay = e.primalRay := by
  induction l generalizing e with
  | nil => exact ⟨rfl, rfl, rfl, rfl⟩
  | cons r l ih =>
    have hstep := setting_undoRelaxation e r.1 r.2
    obtain ⟨hbounds, hphase, hdual, hprimal⟩ := ih (e.undoRelaxation r.1 r.2)
    rw [bounds_congr hstep] at hbounds
    exact ⟨hbounds, hphase.trans (congrArg Setting.phase hstep),
      hdual.trans (congrArg Setting.dualRay hstep),
      hprimal.trans (congrArg Setting.primalRay hstep)⟩

theorem ground_undoRelaxations (hundo : e.undoRelaxations? = some e') :
    e'.ground = e.ground ∧ e'.relaxed = [] := by
  rw [(of_undoRelaxations hundo).2]
  obtain ⟨hbounds, hphase, hdual, hprimal⟩ := bounds_foldl_undoRelaxation e.relaxed e
  refine ⟨?_, rfl⟩
  show Ground.mk _ _ _ _ = Ground.mk _ _ _ _
  rw [← hbounds, ← hphase, ← hdual, ← hprimal]
  rfl

end Engine

/-! ## Steps that may have to give up -/

/-- A step that stands on `g`.  If it gives up it does not claim anything of the
program. -/
def Progress.Stands (g : Ground α) : Progress α → Prop
  | .going e => e.ground = g
  | .stopped e status => e.ground = g ∧ status.Inconclusive

namespace Progress

variable {g : Ground α} {p : Progress α}

theorem Stands.andThen (hp : p.Stands g) {f : Engine α → Progress α}
    (hf : ∀ e : Engine α, e.ground = g → (f e).Stands g) : (p.andThen f).Stands g := by
  cases p with
  | going e => exact hf e hp
  | stopped e status => exact hp

theorem Stands.map (hp : p.Stands g) {f : Engine α → Engine α}
    (hf : ∀ e : Engine α, e.ground = g → (f e).ground = g) : (p.map f).Stands g :=
  hp.andThen hf

end Progress

namespace Engine

variable [Scalar α] {t : Job α} {e e' : Engine α} {g : Ground α}

omit [Scalar α] in
theorem stands_countRecovery (h : e.ground = g) : e.countRecovery.Stands g := by
  unfold Engine.countRecovery
  dsimp only
  split
  · exact ⟨h, Or.inr (Or.inr (Or.inr rfl))⟩
  · exact h

/-! ## Renewal -/

section Renewal

variable {γ : Type} (f : Engine α → γ)
  (hsetting : ∀ e e' : Engine α, e'.setting = e.setting → f e' = f e)
  (hbasis : ∀ (e : Engine α) basicIndex factor factorValid weights, f { e with
    basicIndex := basicIndex
    factor := factor
    factorValid := factorValid
    weights := weights } = f e)

include hsetting hbasis

theorem admitLogicals_keeps (e : Engine α) (pairs : List (Nat × Nat)) :
    f (e.admitLogicals t pairs) = f e := by
  have hdropped : ({ e with factorValid := false }.dropDependent pairs).setting =
      ({ e with factorValid := false } : Engine α).setting :=
    foldl_keeps setting (fun e j => setting_rest e j _) _ _
  rw [admitLogicals_eq, admitRows_eq]
  refine (foldl_keeps f (fun e u => ?_) pairs _).trans ((hsetting _ _ hdropped).trans
    (hbasis e e.basicIndex e.factor false e.weights))
  have hplaced := hbasis e (e.basicIndex.setIfInBounds u.1 (t.columnCount + u.2)) e.factor
    e.factorValid e.weights
  refine Eq.trans ?_ hplaced
  exact hsetting _ _ rfl

theorem renewWeights_keeps (e : Engine α) : f (e.renewWeights t) = f e := by
  have hweights : ∀ (e : Engine α) weights, f { e with weights := weights } = f e :=
    fun e => hbasis e e.basicIndex e.factor e.factorValid
  unfold Engine.renewWeights
  split
  · exact weighRows_keeps f
      (fun e position => hsetting _ _ (setting_congr (standing_inverseRow e position))) hweights e
  · exact hweights e _

/-- A renewal touches the basis, its factors and weights, and where the variables stand. -/
theorem renew_keeps (e : Engine α) : match e.renew t with
    | .going e' => f e' = f e
    | .stopped e' status => f e' = f e ∧ status = .numericalError := by
  have hstanding : ∀ e e' : Engine α, e'.standing = e.standing → f e' = f e :=
    fun e e' h => hsetting e e' (setting_congr h)
  have hattempt : ∀ e : Engine α, f (e.attempt t) = f e := fun e =>
    hbasis e e.basicIndex _ e.factorValid e.weights
  have hends := ends_factorBasis (t := t) (P := fun e' => f e' = f e) (Q := fun e' => f e' = f e)
    (fun _ _ hs he => (hstanding _ _ hs).trans he) (fun _ _ hs he => (hstanding _ _ hs).trans he)
    (fun _ he => he) (fun e _ he _ => (hattempt e).trans he)
    (fun e pairs he _ => (admitLogicals_keeps f hsetting hbasis _ pairs).trans
      ((hstanding _ _ (standing_note _ _)).trans ((hattempt e).trans he)))
    (fun e _ _ he _ => (hattempt e).trans he) maxAttempts false rfl
  unfold Engine.renew
  generalize Engine.factorBasis t maxAttempts false e = factored at hends ⊢
  cases factored with
  | failed e' => exact ⟨hends, rfl⟩
  | done e' repaired =>
    have hvalid : f { e' with factorValid := true } = f e :=
      (hbasis e' e'.basicIndex e'.factor true e'.weights).trans hends
    have hvalues := (hsetting _ _ (setting_solveValues (t := t) _)).trans hvalid
    have hduals := (hstanding _ _ (standing_solveDuals (t := t) _)).trans hvalues
    have hrecord := (hstanding _ _ (standing_recordResiduals (t := t) _)).trans hduals
    show f (if _ then _ else _) = f e
    split
    · exact (renewWeights_keeps f hsetting hbasis _).trans hrecord
    · exact hrecord

end Renewal

/-- What the attempts at factoring a basis leave alone. -/
theorem factorBasis_keeps {γ : Type} (f : Engine α → γ)
    (hfactor : ∀ (e : Engine α) factor, f { e with factor := factor } = f e)
    (hnote : ∀ (e : Engine α) event, f (e.note event) = f e)
    (hadmits : ∀ (e : Engine α) pairs, f (e.admitLogicals t pairs) = f e)
    (haccept : ∀ (e : Engine α) summary, f (e.acceptFactor summary) = f e)
    (attempts : Nat) (repaired : Bool) (e : Engine α) :
    (factorBasis t attempts repaired e).Ends (fun e' => f e' = f e) fun e' => f e' = f e := by
  have hattempts := attempts_factorBasis (t := t) attempts repaired e
  have hattempt : ∀ e : Engine α, f (e.attempt t) = f e := fun e => hfactor e _
  generalize Engine.factorBasis t attempts repaired e = factored at hattempts ⊢
  induction hattempts with
  | giveUp => exact rfl
  | accept => exact (haccept _ _).trans (hattempt _)
  | tolerate => exact (haccept _ _).trans ((hnote _ _).trans (hattempt _))
  | raise _ _ _ _ ih =>
    rw [hnote, hfactor, hnote, hattempt] at ih
    exact ih
  | repair _ _ ih =>
    rw [hadmits, hnote, hattempt] at ih
    exact ih
  | escalate _ _ ih =>
    rw [hnote, hattempt] at ih
    exact ih

theorem ground_weighRows (e : Engine α) : (e.weighRows t).ground = e.ground :=
  weighRows_keeps ground (fun e position => ground_of_standing (standing_inverseRow e position))
    (fun _ _ => rfl) e

theorem stands_renew (h : e.ground = g) : (e.renew t).Stands g := by
  have hkeeps := renew_keeps (t := t) ground (fun _ _ => ground_of_setting) (fun _ _ _ _ _ => rfl) e
  generalize e.renew t = p at hkeeps ⊢
  cases p with
  | going e' => exact hkeeps.trans h
  | stopped e' status => exact ⟨hkeeps.1.trans h, Or.inr (Or.inr (Or.inr hkeeps.2))⟩

theorem setting_settleReducedCosts (e : Engine α) :
    (e.settleReducedCosts t).setting = e.setting := by
  have hfold := foldl_keeps setting (fun (e : Engine α) j =>
    show (if e.hasTwoBounds j then e.flip j else e.adjustCost j).setting = e.setting by
      split
      · exact setting_flip e j
      · rfl) (e.dualInfeasible t) e
  unfold Engine.settleReducedCosts
  dsimp only
  split
  · rfl
  · split
    · exact (setting_solveValues _).trans hfold
    · exact hfold

theorem stands_renewAndSettle (h : e.ground = g) : (e.renewAndSettle t).Stands g :=
  (stands_renew h).map fun e he => (ground_of_setting (setting_settleReducedCosts e)).trans he

/-! ## Iterations -/

theorem stands_leaveCycle (h : e.ground = g) : (e.leaveCycle t).Stands g := by
  refine (stands_renewAndSettle ((ground_of_standing (standing_note e _)).trans h)).map
    fun e he => ?_
  split
  · exact (ground_of_standing (standing_perturbAll e)).trans he
  · exact (ground_foldl_relaxBound _ e).trans he

variable {x : Exchange α}

theorem stands_updateFactor (h : e.ground = g) (quality : WeightQuality) :
    (e.updateFactor t x quality).Stands g := by
  unfold Engine.updateFactor
  split
  · show Engine.ground (if _ then _ else _) = g
    split
    · exact (ground_weighRows _).trans h
    · exact h
  · exact stands_renewAndSettle h

variable [OrderedScalar α]

theorem Sound.stands_performExchange (ht : t.WellFormed) (hsound : e.Sound t) (hx : e.Fits t x)
    (h : e.ground = g) : (e.performExchange t x).Stands g := by
  have hsetting := setting_applyExchange ht hsound hx
  have happlied : (e.applyExchange t x).1.ground = g := by
    refine Eq.trans ?_ h
    exact congrArg (fun s : Setting α => Ground.mk s.phase (unwind s.bounds s.relaxed) s.dualRay
      s.primalRay) hsetting
  refine Progress.Stands.andThen ((stands_updateFactor happlied (e.applyExchange t x).2).map
    fun e he => ?_) fun e he => ?_
  · exact (ground_of_standing (standing_traceObjective e)).trans he
  · unfold Engine.watchCycle
    dsimp only
    split
    · exact stands_leaveCycle he
    · exact he

theorem Sound.stands_tryExchange (ht : t.WellFormed) (hsound : e.Sound t) (hx : e.Fits t x)
    (h : e.ground = g) : (e.tryExchange t x).Stands g := by
  have hnote := hsound.of_standing (standing_note e .pivotMismatch)
  have hx' := hx.congr (setting_congr (standing_note e .pivotMismatch))
  have h' : (e.note .pivotMismatch).ground = g := h
  unfold Engine.tryExchange
  dsimp only
  split
  · split
    · exact stands_renewAndSettle h'
    · split
      · exact (stands_countRecovery h').map fun e he => (ground_relaxBound e _).trans he
      · exact hnote.stands_performExchange ht hx' h'
  · exact hsound.stands_performExchange ht hx h

/-- No basic variable violates its bounds. -/
def Feasible (t : Job α) (e : Engine α) : Prop :=
  ∀ x ∈ e.infeasibilities t, (x == 0) = true

end Engine

/-- An iteration that stands on `g`. -/
def Step.Stands [Scalar α] (t : Job α) (g : Ground α) : Step α → Prop
  | .next e => e.ground = g
  | .solved e => e.ground = g ∧ e.Feasible t
  | .unbounded e _ => e.ground = g
  | .stopped e status => e.ground = g ∧ status.Inconclusive

theorem Progress.Stands.toStep [Scalar α] {t : Job α} {g : Ground α} {p : Progress α}
    (hp : p.Stands g) : p.toStep.Stands t g := by
  cases p with
  | going e => exact hp
  | stopped e status => exact hp

/-- A search that finds nothing has passed over everything. -/
theorem foldl_eq_none {β γ : Type} {f : Option β → γ → Option β} {P : γ → Prop}
    (hf : ∀ best u, f best u = none → best = none ∧ P u) {l : List γ} {best : Option β}
    (h : l.foldl f best = none) : best = none ∧ ∀ u ∈ l, P u := by
  induction l generalizing best with
  | nil => exact ⟨h, nofun⟩
  | cons u l ih =>
    obtain ⟨hstep, hl⟩ := ih h
    obtain ⟨hbest, hu⟩ := hf best u hstep
    refine ⟨hbest, fun v hv => ?_⟩
    rcases List.mem_cons.mp hv with rfl | hv
    · exact hu
    · exact hl v hv

/-- If no position is chosen all infeasibilities are zero. -/
theorem EdgeWeights.of_choosePosition_eq_none [Scalar α] {w : EdgeWeights α}
    {infeasibilities : Array α} {basicIndex : Array Nat}
    (h : w.choosePosition infeasibilities basicIndex = none) :
    ∀ x ∈ infeasibilities, (x == 0) = true := by
  unfold choosePosition at h
  have hnone := foldl_eq_none (P := fun u : α × Nat => (u.1 == 0) = true) (fun best u hu => ?_)
    (Option.map_eq_none_iff.mp h)
  · intro x hx
    obtain ⟨p, hp, rfl⟩ := List.getElem_of_mem (Array.mem_toList_iff.mpr hx)
    exact hnone.2 (infeasibilities.toList[p], p)
      (List.mem_zipIdx_iff_getElem?.mpr (List.getElem?_eq_getElem hp))
  · obtain ⟨x, position⟩ := u
    dsimp only at hu
    split at hu
    · rename_i hzero
      exact ⟨hu, hzero⟩
    · split at hu
      · exact absurd hu nofun
      · split at hu
        · exact absurd hu nofun
        · exact absurd hu nofun

/-- If all infeasibilities are zero no position is chosen. -/
theorem EdgeWeights.choosePosition_eq_none [Scalar α] {w : EdgeWeights α} {infeasibilities : Array α}
    {basicIndex : Array Nat} (h : ∀ x ∈ infeasibilities, (x == 0) = true) :
    w.choosePosition infeasibilities basicIndex = none := by
  unfold choosePosition
  refine Option.map_eq_none_iff.mpr (List.foldlRecOn infeasibilities.toList.zipIdx _
    (motive := fun best => best = none) rfl fun best hbest u hu => ?_)
  have hzero := h u.1 (Array.mem_toList_iff.mp (List.fst_mem_of_mem_zipIdx hu))
  dsimp only
  rw [if_pos hzero, hbest]

/-- A feasible engine has nothing to iterate for. -/
theorem Engine.Feasible.iterate [Scalar α] {t : Job α} {e : Engine α} (h : e.Feasible t) :
    e.iterate t = .solved e := by
  unfold Engine.iterate
  dsimp only
  rw [EdgeWeights.choosePosition_eq_none h]

namespace Engine

variable [Scalar α] [OrderedScalar α] {t : Job α} {e e' : Engine α} {g : Ground α}

theorem Sound.stands_iterate (ht : t.WellFormed) (hsound : e.Sound t) (h : e.ground = g) :
    (e.iterate t).Stands t g := by
  rcases hsound.iterate_cases with hsolved | hleaves
  · rw [hsolved.2]
    exact ⟨h, EdgeWeights.of_choosePosition_eq_none hsolved.1⟩
  · obtain ⟨position, delta, hposition, hdelta, hviolated, heq⟩ := hleaves
    rw [heq]
    obtain ⟨e', hsame, hcases⟩ := hsound.iterateAt_cases ht hposition hdelta hviolated
    have hsound := hsound.of_standing hsame
    have h := (ground_of_standing hsame).trans h
    rcases hcases with hunbounded | hlimit | hexchange
    · obtain ⟨ray, heq⟩ := hunbounded
      rw [heq]
      exact h
    · rw [hlimit]
      exact ⟨h, Or.inl rfl⟩
    · obtain ⟨x, -, hx, heq⟩ := hexchange
      rw [heq]
      exact (Sound.stands_tryExchange ht (hsound.ftranEntering ht hx.entering_lt).1 hx h).toStep

theorem Sound.stands_advance (ht : t.WellFormed) (hsound : e.Sound t) (h : e.ground = g) :
    (e.advance t).Stands t g := by
  unfold Engine.advance
  split
  · rename_i status hlimit
    refine ⟨h, ?_⟩
    unfold limitReached? at hlimit
    split at hlimit
    · exact Or.inr (Or.inr (Or.inl (Option.some.inj hlimit).symm))
    · split at hlimit
      · exact Or.inr (Or.inl (Option.some.inj hlimit).symm)
      · exact absurd hlimit nofun
  · have hdue : (e.renewIfDue t).engine.Sound t ∧ (e.renewIfDue t).Stands g := by
      refine ⟨hsound.renewIfDue ht, ?_⟩
      unfold Engine.renewIfDue
      split
      · exact stands_renewAndSettle h
      · exact h
    generalize e.renewIfDue t = p at hdue ⊢
    obtain ⟨hsound, hstands⟩ := hdue
    cases p with
    | going e => exact Sound.stands_iterate ht hsound hstands
    | stopped e status => exact hstands

end Engine

/-! ## Phases and verdicts -/

/-- The bounds that belong to a phase. -/
def Job.phaseBounds [Scalar α] (t : Job α) : Phase → Array (Interval α)
  | .one => t.bounds.map Interval.auxiliary
  | .two => t.bounds

/-- What an engine in a phase stands on, with the rays that have been found. -/
def Job.ground [Scalar α] (t : Job α) (phase : Phase) (dualRay primalRay : Option (Array α)) :
    Ground α where
  phase := phase
  bounds := t.phaseBounds phase
  dualRay := dualRay
  primalRay := primalRay

namespace Engine

variable [Scalar α] {t : Job α} {e e' : Engine α} {g : Ground α}

theorem setting_foldl_rest (f : Engine α → Nat → VariableStatus) (l : List Nat) (e : Engine α) :
    (l.foldl (fun e j => e.rest j (f e j)) e).setting = e.setting :=
  foldl_keeps setting (fun e j => setting_rest e j (f e j)) l e

theorem setting_enterAuxiliary (e : Engine α) : (e.enterAuxiliary t).setting =
    ({ e with phase := .one, relaxed := [], bounds := t.bounds.map Interval.auxiliary } :
      Engine α).setting :=
  (setting_solveValues _).trans (setting_foldl_rest
    (fun e j => feasibleStatus (e.boundsOf j) (e.reducedCostOf j)) _ _)

theorem ground_enterAuxiliary (e : Engine α) :
    (e.enterAuxiliary t).ground = t.ground .one e.dualRay e.primalRay :=
  ground_of_setting (setting_enterAuxiliary e)

theorem setting_restoreBounds (e : Engine α) : (e.restoreBounds t).setting =
    ({ e with phase := .two, relaxed := [], bounds := t.bounds } : Engine α).setting :=
  setting_foldl_rest (fun e j => if (e.boundsOf j).allows (e.statusOf j) then e.statusOf j
    else (e.boundsOf j).restingStatus) _ _

theorem ground_restoreBounds (e : Engine α) :
    (e.restoreBounds t).ground = t.ground .two e.dualRay e.primalRay :=
  ground_of_setting (setting_restoreBounds e)

theorem setting_restFinally (e : Engine α) : ((e.restFinally t).solveValues t).setting =
    ({ e with phase := .two, relaxed := [], bounds := t.bounds } : Engine α).setting :=
  (setting_solveValues _).trans ((setting_foldl_rest
    (fun e j => finalStatus (e.boundsOf j) (e.reducedCostOf j)) _ _).trans
      (setting_restoreBounds e))

/-- Phase one ends on the bounds of the program. -/
theorem limits_leaveAuxiliary (e : Engine α) :
    (e.leaveAuxiliary t).engine.bounds = t.bounds ∧ (e.leaveAuxiliary t).engine.relaxed = [] := by
  have hsetting := setting_restFinally (t := t) e
  have hlimits := And.intro (bounds_congr hsetting) (relaxed_congr hsetting)
  rcases leaveAuxiliary_cases (t := t) e with heq | heq | heq
  · rw [heq.2]
    exact hlimits
  · rw [heq.2]
    exact hlimits
  · have hsettled := setting_settleReducedCosts (t := t)
      (((e.restFinally t).solveValues t).note .unboundedRayRejected)
    rw [heq]
    exact ⟨(bounds_congr hsettled).trans hlimits.1, (relaxed_congr hsettled).trans hlimits.2⟩


/-- If phase one keeps a direction this is a primal ray. -/
theorem ground_leaveAuxiliary (h : e.ground = t.ground .one none none) :
    match e.leaveAuxiliary t with
    | .dualFeasible e' => e'.ground = t.ground .two none none
    | .ray e' => ∃ direction,
        isPrimalRay t.program direction t.parameters.primalTolerance = true ∧
        e'.ground = t.ground .two none (some direction) := by
  have hvalues : ((e.restFinally t).solveValues t).ground = t.ground .two none none := by
    have hground := ground_of_setting (setting_restFinally (t := t) e)
    have hdual : e.dualRay = none := congrArg Ground.dualRay h
    have hprimal : e.primalRay = none := congrArg Ground.primalRay h
    refine hground.trans ?_
    show t.ground .two e.dualRay e.primalRay = _
    rw [hdual, hprimal]
  rcases leaveAuxiliary_cases (t := t) e with heq | heq | heq
  · rw [heq.2]
    exact hvalues
  · rw [heq.2]
    refine ⟨_, heq.1, ?_⟩
    exact congrArg (fun g : Ground α => { g with
      primalRay := some (e.value.take t.columnCount) }) hvalues
  · rw [heq]
    exact (ground_of_setting (setting_settleReducedCosts _)).trans hvalues

theorem ground_solveUndone (hundo : e.undoRelaxations? = some e') :
    (e'.solveValues t).ground = e.ground :=
  (ground_of_setting (setting_solveValues e')).trans (ground_undoRelaxations hundo).1

/-- A review moves variables only. -/
theorem setting_reviewed (e : Engine α) :
    (e.reviewed t).setting = (e.withoutRelaxations t).setting := by
  have hduals := setting_congr (standing_solveDuals (t := t) (e.withoutRelaxations t))
  refine Eq.trans ?_ hduals
  unfold Engine.reviewed
  dsimp only
  generalize (e.withoutRelaxations t).solveDuals t = e'
  have hflips : ((e'.wronglyResting t).foldl Engine.flip e').setting = e'.setting :=
    foldl_keeps setting setting_flip _ _
  split
  · exact hflips
  · exact (setting_solveValues _).trans hflips

/-- A review takes all relaxations back. -/
theorem ground_reviewed (e : Engine α) :
    (e.reviewed t).ground = e.ground ∧ (e.reviewed t).relaxed = [] := by
  have hundone : (e.withoutRelaxations t).ground = e.ground ∧
      (e.withoutRelaxations t).relaxed = [] := by
    unfold Engine.withoutRelaxations
    split
    · rename_i e' hundo
      obtain ⟨hground, hrelaxed⟩ := ground_undoRelaxations hundo
      have hsetting := setting_solveValues (t := t) (resetCosts t e')
      exact ⟨(ground_of_setting hsetting).trans hground, (relaxed_congr hsetting).trans hrelaxed⟩
    · rename_i hundo
      have hrelaxed := relaxed_of_undoRelaxations hundo
      exact ⟨rfl, hrelaxed⟩
  have hsetting := setting_reviewed (t := t) e
  exact ⟨(ground_of_setting hsetting).trans hundone.1, (relaxed_congr hsetting).trans hundone.2⟩

theorem setting_refreshValues (e : Engine α) : (e.refreshValues t).setting = e.setting := by
  unfold Engine.refreshValues
  split
  · exact setting_solveValues e
  · rfl

/-- At the end nothing is left of phases, relaxations and changed costs. -/
theorem ground_conclude (h : e.ground.bounds = t.phaseBounds e.ground.phase) :
    (e.conclude t).ground = t.ground .two e.dualRay e.primalRay ∧ (e.conclude t).relaxed = [] ∧
    (e.conclude t).cost = t.costs := by
  obtain ⟨e₁, e₂, hbounds, hundo, hstanding, hcost, -⟩ := conclude_cases (t := t) e
  have h₁ : e₁.ground = t.ground .two e.dualRay e.primalRay := by
    rcases hbounds with ⟨-, rfl⟩ | ⟨hphase, rfl⟩
    · exact (ground_of_setting (setting_refreshValues _)).trans (ground_restoreBounds e)
    · have hground : e₁.ground.bounds = t.phaseBounds .two := by
        rw [h]
        exact congrArg t.phaseBounds hphase
      exact congr (congr (congr (congrArg Ground.mk hphase) hground) rfl) rfl
  have h₂ : e₂.ground = t.ground .two e.dualRay e.primalRay ∧ e₂.relaxed = [] := by
    rcases hundo with ⟨hrelaxed, rfl⟩ | ⟨e', hundo, rfl⟩
    · exact ⟨h₁, hrelaxed⟩
    · obtain ⟨hground, hrelaxed⟩ := ground_undoRelaxations hundo
      have hsetting := setting_refreshValues (t := t) e'
      exact ⟨(ground_of_setting hsetting).trans (hground.trans h₁),
        (relaxed_congr hsetting).trans hrelaxed⟩
  exact ⟨(ground_of_standing hstanding).trans h₂.1,
    (relaxed_congr (setting_congr hstanding)).trans h₂.2, hcost⟩

theorem stands_rejectRay (h : e.ground = g) : (e.rejectRay t).Stands g := by
  unfold Engine.rejectRay Engine.recover
  split
  · rename_i e' hundo
    exact (ground_solveUndone hundo).trans h
  · refine (stands_countRecovery (e := e.note .unboundedRayRejected) h).andThen fun e he => ?_
    exact stands_renewAndSettle ((ground_of_standing (standing_raiseThreshold e)).trans he)

theorem stands_prepare (h : e.ground = g) : (e.prepare t).Stands g := by
  refine (stands_renew h).map fun e he => ?_
  split
  · exact (ground_weighRows e).trans he
  · exact he

theorem relaxed_prepare (e : Engine α) : (e.prepare t).engine.relaxed = e.relaxed := by
  have hkeeps := renew_keeps (t := t) relaxed (fun _ _ => relaxed_congr) (fun _ _ _ _ _ => rfl) e
  unfold Engine.prepare
  generalize e.renew t = p at hkeeps ⊢
  cases p with
  | stopped e' status => exact hkeeps.1
  | going e' =>
    show Engine.relaxed (if _ then _ else _) = _
    split
    · exact (weighRows_keeps relaxed (fun _ _ => rfl) (fun _ _ => rfl) e').trans hkeeps
    · exact hkeeps

end Engine
end DualSimplex
