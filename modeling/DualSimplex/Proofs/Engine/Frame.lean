import DualSimplex.Engine.Run

/-!
# What the steps of an engine leave alone

Most steps change costs, multipliers, reduced costs or records, and nothing of
where the variables stand.
-/

namespace DualSimplex

open Scalar

/-- What a basis is looked at with: the working bounds, the basic variables, their
weights and their factors.  The rays that were found stand beside it. -/
structure Setting (α : Type) where
  bounds : Array (Interval α)
  relaxed : List (Nat × Interval α)
  phase : Phase
  basicIndex : Array Nat
  weights : EdgeWeights α
  factorValid : Bool
  lu : LU α
  spike : SparseVector α
  parameters : FactorPolicy α
  dualRay : Option (Array α)
  primalRay : Option (Array α)

/-- The setting and where the variables stand in it. -/
structure Standing (α : Type) extends Setting α where
  status : Array VariableStatus
  value : Array α

namespace Engine

variable {α : Type} [Scalar α] {t : Job α} {e e' : Engine α}

def setting (e : Engine α) : Setting α where
  bounds := e.bounds
  relaxed := e.relaxed
  phase := e.phase
  basicIndex := e.basicIndex
  weights := e.weights
  factorValid := e.factorValid
  lu := e.factor.lu
  spike := e.factor.spike
  parameters := e.factor.parameters
  dualRay := e.dualRay
  primalRay := e.primalRay

def standing (e : Engine α) : Standing α where
  toSetting := e.setting
  status := e.status
  value := e.value

section Fields

omit [Scalar α]

theorem setting_congr (h : e'.standing = e.standing) : e'.setting = e.setting :=
  congrArg Standing.toSetting h

theorem status_congr (h : e'.standing = e.standing) : e'.status = e.status :=
  congrArg Standing.status h

theorem value_congr (h : e'.standing = e.standing) : e'.value = e.value :=
  congrArg Standing.value h

theorem bounds_congr (h : e'.setting = e.setting) : e'.bounds = e.bounds :=
  congrArg Setting.bounds h

theorem relaxed_congr (h : e'.setting = e.setting) : e'.relaxed = e.relaxed :=
  congrArg Setting.relaxed h

theorem basicIndex_congr (h : e'.setting = e.setting) : e'.basicIndex = e.basicIndex :=
  congrArg Setting.basicIndex h

theorem weights_congr (h : e'.setting = e.setting) : e'.weights = e.weights :=
  congrArg Setting.weights h

theorem lu_congr (h : e'.setting = e.setting) : e'.factor.lu = e.factor.lu :=
  congrArg Setting.lu h

theorem spike_congr (h : e'.setting = e.setting) : e'.factor.spike = e.factor.spike :=
  congrArg Setting.spike h

theorem boundsOf_congr (h : e'.setting = e.setting) (j : Nat) : e'.boundsOf j = e.boundsOf j := by
  unfold boundsOf
  rw [bounds_congr h]

theorem basicAt_congr (h : e'.setting = e.setting) (position : Nat) :
    e'.basicAt position = e.basicAt position := by
  unfold basicAt
  rw [basicIndex_congr h]

theorem statusOf_congr (h : e'.status = e.status) (j : Nat) : e'.statusOf j = e.statusOf j := by
  unfold statusOf
  rw [h]

end Fields

theorem valueOf_congr (h : e'.value = e.value) (j : Nat) : e'.valueOf j = e.valueOf j := by
  unfold valueOf
  rw [h]

/-! ## Steps that leave the standing alone -/

omit [Scalar α] in
/-- What each of many steps leaves alone is left alone by all of them. -/
theorem foldl_keeps {β γ : Type} (g : Engine α → γ) {f : Engine α → β → Engine α}
    (hf : ∀ e x, g (f e x) = g e) (l : List β) (e : Engine α) : g (l.foldl f e) = g e := by
  induction l generalizing e with
  | nil => rfl
  | cons x l ih => exact (ih (f e x)).trans (hf e x)

/-- Weighing the rows takes solves with the factors, and then new weights. -/
theorem weighRows_keeps {γ : Type} (g : Engine α → γ)
    (hrow : ∀ (e : Engine α) (position : Nat), g (e.inverseRow t position).1 = g e)
    (hweights : ∀ (e : Engine α) (w : EdgeWeights α), g { e with weights := w } = g e)
    (e : Engine α) : g (e.weighRows t) = g e := by
  unfold Engine.weighRows
  refine (hweights _ _).trans ?_
  refine List.foldlRecOn (List.range t.rowCount) _
    (motive := fun s : Engine α × Array α => g s.1 = g e) rfl fun s hs position _ => ?_
  exact (hrow s.1 position).trans hs

omit [Scalar α] in
@[simp] theorem standing_note (e : Engine α) (event : Difficulty) :
    (e.note event).standing = e.standing := rfl

omit [Scalar α] in
@[simp] theorem standing_addTicks (e : Engine α) (ticks : Float) :
    (e.addTicks ticks).standing = e.standing := rfl

@[simp] theorem standing_ftran (e : Engine α) (rhs : SparseVector α) :
    (e.ftran rhs).1.standing = e.standing := rfl

@[simp] theorem standing_btran (e : Engine α) (rhs : SparseVector α) :
    (e.btran rhs).1.standing = e.standing := rfl

@[simp] theorem standing_solveDuals (e : Engine α) : (e.solveDuals t).standing = e.standing := rfl

@[simp] theorem standing_dropCosts (e : Engine α) : (e.dropCosts t).standing = e.standing := rfl

@[simp] theorem standing_resetCosts (e : Engine α) : (resetCosts t e).standing = e.standing := rfl

@[simp] theorem standing_recordResiduals (e : Engine α) :
    (e.recordResiduals t).standing = e.standing := rfl

@[simp] theorem standing_inverseRow (e : Engine α) (position : Nat) :
    (e.inverseRow t position).1.standing = e.standing := rfl

@[simp] theorem standing_price (e : Engine α) (rho : SparseVector α) :
    (e.price t rho).1.standing = e.standing := rfl

omit [Scalar α] in
@[simp] theorem standing_acceptFactor (e : Engine α) (summary : FactorSummary α) :
    (e.acceptFactor summary).standing = e.standing := rfl

@[simp] theorem standing_adjustCost (e : Engine α) (j : Nat) :
    (e.adjustCost j).standing = e.standing := rfl

omit [Scalar α] in
@[simp] theorem standing_countPivot (e : Engine α) (flips : Nat) :
    (e.countPivot flips).standing = e.standing := rfl

@[simp] theorem standing_traceObjective (e : Engine α) :
    (e.traceObjective t).standing = e.standing := by
  unfold traceObjective
  split
  · rfl
  · rfl

@[simp] theorem standing_perturb (e : Engine α) (j : Nat) :
    (e.perturb j).standing = e.standing := by
  unfold perturb
  split
  · rfl
  · rfl

@[simp] theorem standing_perturbAll (e : Engine α) : (e.perturbAll t).standing = e.standing :=
  foldl_keeps standing standing_perturb t.indices e

theorem standing_lowerReducedCost (e : Engine α) (j : Nat) (amount : α) :
    (e.lowerReducedCost j amount).standing = e.standing := by
  unfold lowerReducedCost
  split
  · rfl
  · rfl

theorem standing_dualStep (e : Engine α) (r : PivotRow α) (signedStep : α) :
    (e.dualStep t r signedStep).standing = e.standing := by
  refine (foldl_keeps standing (fun e x => ?_) _ _).trans
    (foldl_keeps standing (fun e x => ?_) _ _)
  · exact standing_lowerReducedCost e _ _
  · exact standing_lowerReducedCost e _ _

@[simp] theorem standing_moveDuals (e : Engine α) (x : Exchange α) :
    (e.moveDuals t x).standing = e.standing := by
  have hstep : ∀ b : Bool, (if b = true then e else
      e.dualStep t x.row (x.step * x.direction)).standing = e.standing := by
    intro b
    cases b
    · exact standing_dualStep e x.row _
    · rfl
  exact hstep _

@[simp] theorem standing_tau (e : Engine α) (rho : SparseVector α) :
    (e.tau? t rho).1.standing = e.standing := by
  unfold tau?
  split
  · rfl
  · rfl

theorem standing_raise {raised : FactoredBasis α} (h : e.factor.raise? = some raised) :
    ({ e with factor := raised } : Engine α).standing = e.standing := by
  rw [FactoredBasis.eq_of_raise h]
  rfl

@[simp] theorem standing_raiseThreshold (e : Engine α) :
    e.raiseThreshold.standing = e.standing := by
  unfold raiseThreshold
  split
  · rename_i raised h
    exact standing_raise h
  · rfl

/-- A ray that is kept proves that the program is infeasible. -/
theorem of_acceptRay {ray : Array α} (h : e.acceptRay? t ray = some e') :
    isDualRay t.program ray = true ∧ e' = { e with dualRay := some ray } := by
  unfold acceptRay? at h
  split at h
  · rename_i hray
    exact ⟨hray, (Option.some.inj h).symm⟩
  · exact absurd h nofun

/-! ## Steps that move values -/

omit [Scalar α] in
theorem foldl_setValue {β : Type} (key : β → Nat) (f : β → α) (l : List β) (e : Engine α) :
    l.foldl (fun e x => e.setValue (key x) (f x)) e =
      { e with value := l.foldl (fun a x => a.setIfInBounds (key x) (f x)) e.value } := by
  induction l generalizing e with
  | nil => rfl
  | cons x l ih => exact ih (e.setValue (key x) (f x))

theorem solveValues_eq (e : Engine α) : e.solveValues t =
    { (e.ftran (e.nonbasicActivity t)).1 with
      value := e.basicIndex.toList.zipIdx.foldl
        (fun a x => a.setIfInBounds x.1 ((e.ftran (e.nonbasicActivity t)).2.get x.2)) e.value } :=
  foldl_setValue Prod.fst (fun x => (e.ftran (e.nonbasicActivity t)).2.get x.2)
    e.basicIndex.toList.zipIdx (e.ftran (e.nonbasicActivity t)).1

theorem lowerBasicValues_eq (e : Engine α) (amounts : List (Nat × α)) : e.lowerBasicValues amounts =
    { e with
      value := amounts.foldl (fun a x => a.modify (e.basicAt x.1) (· - x.2)) e.value } := by
  induction amounts generalizing e with
  | nil => rfl
  | cons x amounts ih => exact ih _

@[simp] theorem setting_solveValues (e : Engine α) : (e.solveValues t).setting = e.setting := by
  rw [solveValues_eq]
  rfl

@[simp] theorem status_solveValues (e : Engine α) : (e.solveValues t).status = e.status := by
  rw [solveValues_eq]
  rfl

@[simp] theorem setting_lowerBasicValues (e : Engine α) (amounts : List (Nat × α)) :
    (e.lowerBasicValues amounts).setting = e.setting := by
  rw [lowerBasicValues_eq]
  rfl

@[simp] theorem status_lowerBasicValues (e : Engine α) (amounts : List (Nat × α)) :
    (e.lowerBasicValues amounts).status = e.status := by
  rw [lowerBasicValues_eq]

/-- Passing bounds takes flips, a solve with the factors, and then new values. -/
theorem flipPassed_keeps {γ : Type} (g : Engine α → γ)
    (hflip : ∀ (e : Engine α) (j : Nat), g (e.flip j) = g e)
    (hsolve : ∀ (e : Engine α) (rhs : SparseVector α), g (e.ftran rhs).1 = g e)
    (hvalue : ∀ (e : Engine α) (value : Array α), g { e with value := value } = g e)
    (e : Engine α) (flips : List Nat) : g (e.flipPassed t flips) = g e := by
  unfold Engine.flipPassed
  split
  · rfl
  · have hfold := List.foldlRecOn flips (flipInto t) (b := (e, t.zeroRow))
      (motive := fun s => g s.1 = g e) rfl fun s hs j _ => by
        unfold Engine.flipInto
        dsimp only
        split
        · exact (hflip s.1 j).trans hs
        · exact (hflip s.1 j).trans hs
        · exact hs
    dsimp only
    rw [lowerBasicValues_eq]
    exact (hvalue _ _).trans ((hsolve _ _).trans hfold)

@[simp] theorem setting_rest (e : Engine α) (j : Nat) (s : VariableStatus) :
    (e.rest j s).setting = e.setting := rfl

@[simp] theorem setting_flip (e : Engine α) (j : Nat) : (e.flip j).setting = e.setting := rfl

@[simp] theorem setting_restAgain (e : Engine α) (j : Nat) :
    (e.restAgain j).setting = e.setting := rfl

theorem setting_undoRelaxation (e : Engine α) (j : Nat) (b : Interval α) :
    (e.undoRelaxation j b).setting = (e.setBounds j b).setting := by
  unfold undoRelaxation
  dsimp only
  split
  · rfl
  · exact setting_restAgain (e.setBounds j b) j

/-! ## The end of a run -/

theorem of_undoRelaxations (hundo : e.undoRelaxations? = some e') : e.relaxed ≠ [] ∧
    e' = { e.relaxed.foldl (fun e r => e.undoRelaxation r.1 r.2) e with relaxed := [] } := by
  unfold undoRelaxations? at hundo
  split at hundo
  · exact absurd hundo nofun
  · rename_i hsome
    exact ⟨fun hnil => hsome (List.isEmpty_iff.mpr hnil), (Option.some.inj hundo).symm⟩

theorem relaxed_of_undoRelaxations (hundo : e.undoRelaxations? = none) : e.relaxed = [] := by
  unfold undoRelaxations? at hundo
  split at hundo
  · rename_i hempty
    exact List.isEmpty_iff.mp hempty
  · exact absurd hundo nofun

/-- The bounds of the auxiliary problem are taken back first, then the relaxations, and
the costs last. -/
theorem conclude_cases (e : Engine α) : ∃ e₁ e₂ : Engine α,
    (e.phase = .one ∧ e₁ = (e.restoreBounds t).refreshValues t ∨ e.phase = .two ∧ e₁ = e) ∧
    (e₁.relaxed = [] ∧ e₂ = e₁ ∨
      ∃ e', e₁.undoRelaxations? = some e' ∧ e₂ = e'.refreshValues t) ∧
    (e.conclude t).standing = e₂.standing ∧ (e.conclude t).cost = t.costs ∧
    (e₂.factorValid = true → e.conclude t = (resetCosts t e₂).solveDuals t) := by
  have hcosts : ∀ e₂ : Engine α, ∀ e', e' = (if (resetCosts t e₂).factorValid then
      (resetCosts t e₂).solveDuals t else resetCosts t e₂) →
      e'.standing = e₂.standing ∧ e'.cost = t.costs ∧
        (e₂.factorValid = true → e' = (resetCosts t e₂).solveDuals t) := by
    rintro e₂ e' rfl
    split
    · exact ⟨rfl, rfl, fun _ => rfl⟩
    · rename_i hinvalid
      exact ⟨rfl, rfl, fun hvalid => absurd hvalid hinvalid⟩
  unfold Engine.conclude
  dsimp only
  refine ⟨if e.phase = .one then (e.restoreBounds t).refreshValues t else e, ?_⟩
  have hbounds : e.phase = .one ∧ (if e.phase = .one then (e.restoreBounds t).refreshValues t
      else e) = (e.restoreBounds t).refreshValues t ∨ e.phase = .two ∧
      (if e.phase = .one then (e.restoreBounds t).refreshValues t else e) = e := by
    cases hphase : e.phase with
    | one => exact Or.inl ⟨rfl, if_pos rfl⟩
    | two => exact Or.inr ⟨rfl, if_neg nofun⟩
  generalize (if e.phase = .one then (e.restoreBounds t).refreshValues t else e) = e₁ at hbounds ⊢
  cases hundo : e₁.undoRelaxations? with
  | some e' => exact ⟨_, hbounds, Or.inr ⟨e', rfl, rfl⟩, hcosts _ _ rfl⟩
  | none => exact ⟨_, hbounds, Or.inl ⟨relaxed_of_undoRelaxations hundo, rfl⟩, hcosts _ _ rfl⟩

/-- Without relaxations in phase two a run ends where it stands. -/
theorem conclude_of_relaxed_nil (hphase : e.phase = .two) (hrelaxed : e.relaxed = []) :
    (e.conclude t).standing = e.standing ∧
      (e.factorValid = true → e.conclude t = (resetCosts t e).solveDuals t) := by
  obtain ⟨e₁, e₂, hbounds, hundo, hstanding, -, hduals⟩ := conclude_cases (t := t) e
  have h₁ : e₁ = e := by
    rcases hbounds with ⟨hone, -⟩ | ⟨-, hsame⟩
    · exact absurd (hone.symm.trans hphase) nofun
    · exact hsame
  have h₂ : e₂ = e := by
    rcases hundo with ⟨-, hsame⟩ | ⟨e', hundo, -⟩
    · exact hsame.trans h₁
    · exact absurd (h₁ ▸ hrelaxed) (of_undoRelaxations hundo).1
  rw [h₂] at hstanding hduals
  exact ⟨hstanding, hduals⟩

end Engine
end DualSimplex
