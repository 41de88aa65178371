import DualSimplex.Proofs.Engine.Kept
import DualSimplex.Proofs.Engine.Reload
import DualSimplex.Proofs.SteepestEdge

/-!
# Weights of steepest edge pricing through a run

The factors stand for a basis matrix, and a row that is solved for with them is a row of its
inverse.  So weighing the rows finds their norms, a basis change has what an update of the
weights relies on, and at every boundary of a run the weights are at least as large as the norms.
-/

section

open Matrix BasisInverse

namespace DualSimplex

open Scalar Exact

namespace Engine

variable {t : Job (Exact 0)} {e e' : Engine (Exact 0)} {x : Exchange (Exact 0)}

/-- The basis matrix: a column of the program for each basis position. -/
def basis (t : Job (Exact 0)) (e : Engine (Exact 0)) : Square t.rowCount :=
  Matrix.of fun i p => coefficient (t.column (e.basicAt p)) i

theorem basis_congr (hindex : e'.basicIndex = e.basicIndex) : e'.basis t = e.basis t := by
  unfold basis basicAt
  rw [hindex]

/-! ## The inverse of the basis matrix -/

/-- What combines the columns of the basis to a vector is the product of the inverse with it. -/
theorem eq_inv_basis_mulVec (hunit : IsUnit (e.basis t).det) {f g : Nat → ℚ}
    (hf : ∀ i, i < t.rowCount → ∑ p ∈ Finset.range t.rowCount,
      coefficient (t.column (e.basicAt p)) i * f p = g i) (p : Fin t.rowCount) :
    f p = ((e.basis t)⁻¹ *ᵥ fun i => g i) p := by
  have hmul : e.basis t *ᵥ (fun p => f p) = fun i : Fin t.rowCount => g i := by
    funext i
    rw [← hf i i.isLt, Finset.sum_range]
    rfl
  rw [← hmul, Matrix.mulVec_mulVec, Matrix.nonsing_inv_mul _ hunit, Matrix.one_mulVec]

section Current

variable (hcurrent : e.Current t) (h : e.Sound t)

include hcurrent h

/-- The rows that are solved for are those of the inverse. -/
theorem Current.inverse : IsUnit (e.basis t).det ∧ ∀ p i : Fin t.rowCount,
    (e.basis t)⁻¹ p i = (e.inverseRow t p).2.valueAt i := by
  let rows : Square t.rowCount := Matrix.of fun p i => (e.inverseRow t p).2.valueAt i
  have hleft : rows * e.basis t = 1 := by
    ext p q
    have hworth := hcurrent.worth_priceRow h p.isLt q.isLt
    unfold Job.worth at hworth
    rw [Finset.sum_range] at hworth
    rw [Matrix.mul_apply, Matrix.one_apply]
    simp only [Fin.ext_iff]
    rw [← hworth]
    exact Finset.sum_congr rfl fun i _ => mul_comm _ _
  refine ⟨Matrix.isUnit_det_of_left_inverse hleft, fun p i => ?_⟩
  rw [Matrix.inv_eq_left_inv hleft]
  rfl

theorem Current.rowNorm_eq (p : Fin t.rowCount) :
    rowNorm (e.basis t)⁻¹ p = (e.inverseRow t p).2.normSquared.value := by
  have hlisted := hcurrent.listed_btran h (listed_unitRow p.isLt)
  unfold rowNorm
  rw [SparseVector.Listed.value_normSquared (v := (e.inverseRow t p).2) hlisted, Finset.sum_range]
  exact Finset.sum_congr rfl fun i _ => by rw [(hcurrent.inverse h).2]

end Current

/-! ## Computed weights -/

theorem weights_weighRows (e : Engine (Exact 0)) : (e.weighRows t).weights =
    e.weights.withNorms ((List.range t.rowCount).map fun position =>
      larger (e.inverseRow t position).2.normSquared 1).toArray := by
  have hfold : ∀ (l : List Nat) (e' : Engine (Exact 0)) (found : Array (Exact 0)),
      e'.factor.lu = e.factor.lu → e'.weights = e.weights →
      let s := l.foldl (fun s position => ((s.1.inverseRow t position).1,
        s.2.push (larger (s.1.inverseRow t position).2.normSquared 1))) (e', found)
      s.1.weights = e.weights ∧ s.2 = found ++ (l.map fun position =>
        larger (e.inverseRow t position).2.normSquared 1).toArray := by
    intro l
    induction l with
    | nil => exact fun e' found _ hweights => ⟨hweights, (Array.append_empty).symm⟩
    | cons position l ih =>
      intro e' found hlu hweights
      have hrow : (e'.inverseRow t position).2 = (e.inverseRow t position).2 :=
        congrArg (fun lu => LU.btran lu (t.zeroRow.setOnly position 1)) hlu
      obtain ⟨hkept, hfound⟩ := ih (e'.inverseRow t position).1
        (found.push (larger (e'.inverseRow t position).2.normSquared 1)) hlu hweights
      refine ⟨hkept, hfound.trans ?_⟩
      rw [hrow]
      simp
  obtain ⟨hweights, hfound⟩ := hfold (List.range t.rowCount) e #[] rfl rfl
  rw [Array.empty_append] at hfound
  rw [← hfound, ← hweights]
  rfl

/-- There are weights of steepest edge pricing, one for each row of the inverse of the basis
matrix, and they are at least one and at least as large as the squared norms of the rows. -/
def CoversNorms (t : Job (Exact 0)) (e : Engine (Exact 0)) : Prop :=
  ∃ ws, e.weights = .steepestEdge ws ∧ ws.size = t.rowCount ∧
    ∀ i : Fin t.rowCount, max 1 (rowNorm (e.basis t)⁻¹ i) ≤ arrayAt ws i

theorem CoversNorms.congr (h : e.CoversNorms t) (hindex : e'.basicIndex = e.basicIndex)
    (hweights : e'.weights = e.weights) : e'.CoversNorms t := by
  obtain ⟨ws, hws, hsize, hle⟩ := h
  refine ⟨ws, hweights.trans hws, hsize, fun i => ?_⟩
  rw [basis_congr hindex]
  exact hle i

theorem CoversNorms.areNorms (h : e.CoversNorms t) : e.weights.areNorms = true := by
  obtain ⟨ws, hws, -⟩ := h
  rw [hws]
  rfl

/-- Weighing the rows finds their norms. -/
theorem Current.coversNorms_weighRows (hcurrent : e.Current t) (h : e.Sound t)
    (hnorms : e.weights.areNorms = true) : (e.weighRows t).CoversNorms t := by
  have hindex : (e.weighRows t).basicIndex = e.basicIndex :=
    weighRows_keeps Engine.basicIndex (fun _ _ => rfl) (fun _ _ => rfl) e
  have hweights := weights_weighRows (t := t) e
  generalize hfound : ((List.range t.rowCount).map fun position =>
    larger (e.inverseRow t position).2.normSquared 1) = found at hweights
  have hlength : found.length = t.rowCount := by
    rw [← hfound, List.length_map, List.length_range]
  obtain ⟨ws, hws⟩ : ∃ ws, e.weights = .steepestEdge ws := by
    revert hnorms
    cases e.weights with
    | dantzig => exact nofun
    | devex ws resets => exact nofun
    | steepestEdge ws => exact fun _ => ⟨ws, rfl⟩
  rw [hws] at hweights
  refine ⟨found.toArray, hweights, hlength, fun i => ?_⟩
  have hget : arrayAt found.toArray i =
      (larger (e.inverseRow t i).2.normSquared (1 : Exact 0)).value := by
    rw [arrayAt, getD_toArray, ← hfound]
    simp
  rw [basis_congr hindex, hget, value_larger, ← hcurrent.rowNorm_eq h, max_comm]
  exact le_rfl

/-! ## Basis changes -/

section Decided

variable (ht : t.WellFormed) (hpivot : 0 < t.parameters.pivotTolerance.value) (h : e.Settled t)
  (hx : e.Decided t e' x)

include ht hpivot h hx

/-- A basis change solves for what the update of the weights relies on. -/
theorem Decided.solved (hnorms : e'.weights.areNorms = true) : ∃ tau,
    (e'.tau? t x.row.rho).2 = some tau ∧
    EdgeWeights.Solved (e'.basis t) (fun i => coefficient (t.column x.entering) i)
      ⟨x.position, hx.fits.position_lt⟩ x.column tau := by
  obtain ⟨he', hentered⟩ := hx.entered ht h hpivot
  have hcurrent := he'.current he'.valid
  obtain ⟨hunit, -⟩ := hcurrent.inverse he'.sound
  have hrho : x.row.rho = (e.inverseRow t x.position).2 := by
    rw [hx.row_eq]
    rfl
  have hlisted : x.row.rho.Listed t.rowCount := by
    rw [hrho]
    exact (h.current h.valid).listed_btran h.sound (listed_unitRow hx.fits.position_lt)
  have hrow : ∀ i : Fin t.rowCount, x.row.rho.valueAt i =
      ((e'.basis t)⁻¹ᵀ *ᵥ Pi.single ⟨x.position, hx.fits.position_lt⟩ 1) i := by
    intro i
    have hindex : e'.basicIndex = e.basicIndex := by
      rw [hx.engine_eq]
      rfl
    rw [Matrix.mulVec_single_one, Matrix.col_apply, Matrix.transpose_apply, basis_congr hindex,
      hrho, ((h.current h.valid).inverse h.sound).2]
  obtain ⟨-, htau⟩ := hcurrent.ftran he'.sound (listed_zeroRow.assign hlisted)
  have htau := fun i hi => (htau i hi).trans (listed_zeroRow.valueAt_assign hlisted i)
  refine ⟨(e'.ftran (t.zeroRow.assign x.row.rho)).2, ?_, hentered.listed,
    eq_inv_basis_mulVec hunit hentered.solves, fun p => ?_⟩
  · unfold Engine.tau?
    rw [if_pos hnorms]
  · rw [eq_inv_basis_mulVec hunit htau p]
    exact congrArg (fun v => ((e'.basis t)⁻¹ *ᵥ v) p) (funext hrow)

/-- A basis change updates the weights along with the basis. -/
theorem Decided.coversNorms (hcovers : e'.CoversNorms t) :
    (e'.applyExchange t x).1.CoversNorms t := by
  obtain ⟨he', hentered⟩ := hx.entered ht h hpivot
  obtain ⟨hunit, -⟩ := (he'.current he'.valid).inverse he'.sound
  obtain ⟨tau, htau, hsolved⟩ := hx.solved ht hpivot h hcovers.areNorms
  obtain ⟨weights, hweights, hsize, hle⟩ := hcovers
  have hheld := held_applyExchange (t := t) e' x
  have hindex : (e'.applyExchange t x).1.basicIndex =
      e'.basicIndex.setIfInBounds x.position x.entering := congrArg (fun s => s.basicIndex) hheld
  have hnew : (e'.applyExchange t x).1.weights =
      (e'.weights.update x.position x.column (e'.tau? t x.row.rho).2).1 :=
    congrArg (fun s => s.weights) hheld
  have hbasis : (e'.applyExchange t x).1.basis t = (e'.basis t).updateCol
      ⟨x.position, hx.fits.position_lt⟩ fun i => coefficient (t.column x.entering) i := by
    have hlt : x.position < e'.basicIndex.size := he'.sound.size_basicIndex ▸ hx.fits.position_lt
    ext i p
    unfold Engine.basis basicAt
    rw [hindex, Matrix.of_apply, getD_setIfInBounds_of_lt hlt, Matrix.updateCol_apply]
    by_cases hp : x.position = p
    · rw [if_pos hp, if_pos (Fin.ext hp.symm)]
    · rw [if_neg hp, if_neg fun heq => hp (congrArg Fin.val heq).symm]
      rfl
  have hne : ((e'.basis t)⁻¹ *ᵥ fun i => coefficient (t.column x.entering) i)
      ⟨x.position, hx.fits.position_lt⟩ ≠ 0 := by
    rw [← hsolved.column]
    exact hentered.pivot_ne
  obtain ⟨ws, hws, hsize, hle⟩ := hsolved.le_update hunit hne hsize hle
  refine ⟨ws, ?_, hsize, fun i => ?_⟩
  · rw [hnew, hweights, htau]
    exact hws
  · rw [hbasis]
    exact hle i

end Decided

/-! ## Renewal -/

/-- The attempts at factoring a basis leave the weights alone.  Factors that are still said to
be valid belong to the basis from before, unless an attempt has succeeded. -/
theorem weights_factorBasis (attempts : Nat) (repaired : Bool) (e : Engine (Exact 0)) :
    (factorBasis t attempts repaired e).Ends
      (fun e' => e'.weights = e.weights ∧
        (e'.factorValid = true → e.factorValid = true ∧ e'.basicIndex = e.basicIndex))
      fun e' => e'.weights = e.weights := by
  have hweights := factorBasis_keeps (t := t) Engine.weights (fun _ _ => rfl) (fun _ _ => rfl)
    weights_admitLogicals (fun _ _ => rfl) attempts repaired e
  have hpricing := pricing_factorBasis (t := t) attempts repaired e
  generalize Engine.factorBasis t attempts repaired e = factored at hweights hpricing ⊢
  cases factored with
  | failed e' => exact ⟨hweights, hpricing.2⟩
  | done e' repaired => exact hweights

theorem setting_renewed (e : Engine (Exact 0)) : (e.renewed t false).setting =
    ({ e with factorValid := true } : Engine (Exact 0)).setting := by
  unfold Engine.renewed
  dsimp only
  rw [if_neg Bool.false_ne_true]
  refine (setting_congr ?_).trans (setting_solveValues (t := t) _)
  exact (standing_recordResiduals _).trans (standing_solveDuals _)

section Renewal

variable (ht : t.WellFormed) (hpivot : 0 < t.parameters.pivotTolerance.value)

include ht hpivot

/-- A renewal weighs the rows if it had to repair the basis.  If not it leaves both the basis
and the weights alone. -/
theorem Faithful.weights_renew (h : e.Faithful t) (hnorms : e.weights.areNorms = true) :
    (e.renew t).Keeps
      (fun e' => e'.CoversNorms t ∨ e'.basicIndex = e.basicIndex ∧ e'.weights = e.weights)
      fun e' => e'.weights = e.weights ∧
        (e'.factorValid = true → e.factorValid = true ∧ e'.basicIndex = e.basicIndex) := by
  have hends := h.factorBasis ht hpivot maxAttempts false
  have hweights := weights_factorBasis (t := t) maxAttempts false e
  have hunrepaired : ∀ e', Engine.factorBasis t maxAttempts false e = .done e' false →
      e'.basicIndex = e.basicIndex := fun e' hdone =>
    congrArg (fun s => s.1.2) (of_factorBasis_unrepaired hdone).2.1
  rw [renew_eq]
  generalize Engine.factorBasis t maxAttempts false e = factored at hends hweights hunrepaired ⊢
  cases factored with
  | failed e₁ => exact hweights
  | done e₁ repaired =>
    have hweights : e₁.weights = e.weights := hweights
    cases repaired with
    | false =>
      have hindex := hunrepaired e₁ rfl
      have hsame := setting_renewed (t := t) e₁
      exact Or.inr ⟨(basicIndex_congr hsame).trans hindex,
        (congrArg Setting.weights hsame).trans hweights⟩
    | true =>
      have hvalid : Aligned t { e₁ with factorValid := true } :=
        ⟨hends.1.sound.withFactorValid true, fun _ => hends.2.congr rfl rfl, hends.1.tolerance⟩
      have hsettled := hvalid.solveValues ht rfl
      have hsame := setting_solveValues (t := t) { e₁ with factorValid := true }
      unfold Engine.renewed
      dsimp only
      rw [if_pos rfl]
      generalize Engine.solveValues t { e₁ with factorValid := true } = e₂ at hsettled hsame ⊢
      have hstanding : ((e₂.solveDuals t).recordResiduals t).standing = e₂.standing :=
        (standing_recordResiduals _).trans (standing_solveDuals _)
      have hsettled := hsettled.of_standing hstanding
      have hsame := (setting_congr hstanding).trans hsame
      generalize (e₂.solveDuals t).recordResiduals t = e₃ at hsettled hsame ⊢
      have hweights : e₃.weights = e.weights := (congrArg Setting.weights hsame).trans hweights
      have hnorms : e₃.weights.areNorms = true := hweights ▸ hnorms
      unfold Engine.renewWeights
      rw [if_pos hnorms]
      exact Or.inl ((hsettled.current hsettled.valid).coversNorms_weighRows hsettled.sound hnorms)

/-- A run keeps its weights at least as large as the norms of the rows, unless it has lost its
factors. -/
theorem kept_coversNorms :
    Kept t (CoversNorms t) fun e => e.factorValid = true → e.CoversNorms t where
  of_core hcore h := h.congr (congrArg Core.basicIndex hcore) (congrArg Core.weights hcore)
  weaken h _ := h
  renew {e} hfaithful h := by
    have hweights := hfaithful.weights_renew ht hpivot h.areNorms
    generalize e.renew t = p at hweights ⊢
    cases p with
    | going e' => exact hweights.elim id fun hsame => h.congr hsame.1 hsame.2
    | stopped e' status => exact fun hvalid => h.congr (hweights.2 hvalid).2 hweights.1
  weighRows h hcovers := (h.current h.valid).coversNorms_weighRows h.sound hcovers.areNorms
  update h hx hcovers _ := (hx.coversNorms ht hpivot h hcovers).congr rfl rfl
  discard h hx hcovers := (hx.coversNorms ht hpivot h hcovers).congr rfl rfl

end Renewal

/-! ## The start -/

/-- If all basic variables are logical the basis matrix is a permutation. -/
theorem Placed.rowNorm_of_logical (h : e.Placed t)
    (hlogical : ∀ p, p < t.rowCount → t.columnCount ≤ e.basicAt p) (p : Fin t.rowCount) :
    rowNorm (e.basis t)⁻¹ p = 1 := by
  have hproduct : ∀ p q : Fin t.rowCount, ∑ i, (e.basis t)ᵀ p i * e.basis t i q =
      if p = q then 1 else 0 := by
    intro p q
    obtain ⟨k, hk⟩ := Nat.exists_eq_add_of_le (hlogical p p.isLt)
    obtain ⟨l, hl⟩ := Nat.exists_eq_add_of_le (hlogical q q.isLt)
    have hlt : l < t.rowCount := Nat.lt_of_add_lt_add_left (hl ▸ h.basicAt_lt q.isLt)
    have hsum : ∑ i, (e.basis t)ᵀ p i * e.basis t i q =
        t.worth (coefficient (t.column (e.basicAt p))) (e.basicAt q) := by
      unfold Job.worth
      rw [Finset.sum_range]
      exact Finset.sum_congr rfl fun i _ => mul_comm _ _
    rw [hsum, hl, Job.worth_logical hlt, hk, Job.coefficient_logical]
    by_cases heq : p = q
    · subst heq
      rw [if_pos (by omega), if_pos rfl]
    · rw [if_neg fun hkl => heq (Fin.ext (h.basicAt_inj p.isLt q.isLt (by omega))), if_neg heq]
  have hleft : (e.basis t)ᵀ * e.basis t = 1 := by
    ext p q
    rw [Matrix.mul_apply, hproduct, Matrix.one_apply]
  have hself := hproduct p p
  rw [if_pos rfl] at hself
  unfold rowNorm
  rw [Matrix.inv_eq_left_inv hleft, ← hself]
  exact Finset.sum_congr rfl fun i _ => sq _

theorem Placed.coversNorms_of_logical (h : e.Placed t)
    (hlogical : ∀ p, p < t.rowCount → t.columnCount ≤ e.basicAt p)
    (hweights : e.weights = .steepestEdge (Array.replicate t.rowCount 1)) : e.CoversNorms t := by
  refine ⟨_, hweights, Array.size_replicate, fun i => ?_⟩
  have hone : arrayAt (Array.replicate t.rowCount (1 : Exact 0)) i = 1 := by
    rw [arrayAt, getD_eq_getElem (by rw [Array.size_replicate]; exact i.isLt),
      Array.getElem_replicate]
    rfl
  rw [h.rowNorm_of_logical hlogical, hone, max_self]

end Engine

namespace Run

variable {t : Job (Exact 0)}

/-- The weights at the start of a run are computed, or those of a basis of logical variables. -/
theorem coversNorms_begin (ht : t.WellFormed) (hpivot : 0 < t.parameters.pivotTolerance.value)
    (hrule : t.parameters.pricingRule = .steepestEdge) {basis : Basis}
    (hbasis : basis.Valid t.program) : (begin t basis).Keeps (Engine.CoversNorms t)
      fun e => e.factorValid = true → e.CoversNorms t := by
  have hkept := Engine.kept_coversNorms ht hpivot
  have hstart := Engine.faithful_start ht hbasis
  have hunit : (Engine.start t basis).weights =
      .steepestEdge (Array.replicate t.rowCount 1) := by
    unfold Engine.start
    dsimp only
    rw [hrule]
    rfl
  have hnorms : (Engine.start t basis).weights.areNorms = true := by
    rw [hunit]
    rfl
  refine hkept.proceed ?_ _ _
  have hsettles := hstart.renew ht hpivot
  have hweights := hstart.weights_renew ht hpivot hnorms
  unfold Engine.prepare
  generalize (Engine.start t basis).renew t = p at hsettles hweights ⊢
  cases p with
  | stopped e status =>
    exact fun hvalid => absurd (hweights.2 hvalid).1 Bool.false_ne_true
  | going e =>
    have hsettled : e.Settled t := hsettles
    have hnorms : e.weights.areNorms = true :=
      hweights.elim Engine.CoversNorms.areNorms fun hsame => hsame.2 ▸ hnorms
    show (if _ then _ else _ : Engine (Exact 0)).CoversNorms t
    split
    · exact (hsettled.current hsettled.valid).coversNorms_weighRows hsettled.sound hnorms
    · rename_i hskip
      rcases hweights with hcovers | ⟨-, hsame⟩
      · exact hcovers
      · refine hsettled.sound.coversNorms_of_logical (fun p hp => ?_) (hsame.trans hunit)
        rw [hnorms, Bool.true_and, Bool.not_eq_true, Array.any_eq_false'] at hskip
        have hmem := hskip _ (Array.mem_toList_iff.mp (hsettled.sound.basicAt_mem hp))
        exact Nat.le_of_not_lt fun hlt => hmem (decide_eq_true hlt)

end Run

/-- With steepest edge pricing the weights are at least one and at least the squared norms of the
rows of the inverse of the basis matrix, at every boundary that a run reaches before it is done,
also when the factors are renewed there, and at its end unless it has lost the factors.

An update that starts from the norms makes of each the new norm, but one at least, at the pivot,
at every position that the column lists, and wherever the weight is one at least.  At other
positions the row keeps its norm, and the weight stays what it is. -/
theorem Run.weights_cover_norms {d : Draft (Exact 0)} {lp : LinearProgram (Exact 0)}
    (hbuild : d.build = .ok lp) {basis : Basis} (hbasis : basis.validate lp = .ok ())
    {p : Parameters (Exact 0)} (hp : p.validate = .ok ()) (hrule : p.pricingRule = .steepestEdge)
    (k : Nat) :
    let t : Job (Exact 0) := ⟨lp, p⟩
    let r := (step t)^[k] (begin t basis)
    ((∀ status, r.stage ≠ .done status) → r.engine.factorValid = true ∧
      ∀ e, r.engine.renewIfDue t = .going e → IsUnit (e.basis t).det ∧ e.CoversNorms t) ∧
    (r.engine.factorValid = true →
      IsUnit (r.engine.basis t).det ∧ r.engine.CoversNorms t) ∧
    ∀ (m : Nat) (B : Square m) (a : Fin m → ℚ) (q : Fin m) (weights : Array (Exact 0))
      (column tau : SparseVector (Exact 0)),
      IsUnit B.det → IsUnit (B.updateCol q a).det →
      weights.size = m → (∀ i : Fin m, arrayAt weights i = rowNorm B⁻¹ i) →
      EdgeWeights.Solved B a q column tau → ∃ ws,
        ((EdgeWeights.steepestEdge weights).update q column (some tau)).1 = .steepestEdge ws ∧
        ws.size = m ∧ ∀ i : Fin m,
          (i = q ∨ i.val ∈ column.support ∨ 1 ≤ arrayAt weights i →
            arrayAt ws i = max 1 (rowNorm (B.updateCol q a)⁻¹ i)) ∧
          (i ≠ q → i.val ∉ column.support → rowNorm (B.updateCol q a)⁻¹ i = rowNorm B⁻¹ i ∧
            arrayAt ws i = arrayAt weights i) := by
  intro t r
  have ht : t.WellFormed := Job.wellFormed_of_build d.canonical_exact hbuild hp
  have hpivot : 0 < t.parameters.pivotTolerance.value := Parameters.pivotTolerance_pos hp
  have hvalid := Basis.valid_of_validate ht.program hbasis
  have hruns : r.Settles t := settles_iterate_step ht hpivot hvalid k
  have hkept := Engine.kept_coversNorms ht hpivot
  have hkeeps : r.Keeps (Engine.CoversNorms t) _ :=
    hkept.iterate_step ht hpivot hvalid (coversNorms_begin ht hpivot hrule hvalid) k
  refine ⟨fun hgoes => ⟨(hruns.settled hgoes).valid, fun e hdue => ?_⟩, fun hfactor => ?_,
    fun m B a q weights column tau hB hnew hsize hnorms hsolved => ?_⟩
  · have hsettles := (hruns.settled hgoes).renewIfDue ht hpivot
    have hcovers := hkept.renewIfDue (hruns.settled hgoes) (hkeeps.going hgoes)
    rw [hdue] at hsettles hcovers
    have hsettled : e.Settled t := hsettles
    exact ⟨((hsettled.current hsettled.valid).inverse hsettled.sound).1, hcovers⟩
  · exact ⟨((hruns.faithful.current hfactor).inverse hruns.faithful.sound).1,
      hkeeps.always hfactor⟩
  · have hne := pivot_ne_zero hB hnew
    obtain ⟨ws, hupdate, hsize, hvalue⟩ := hsolved.update_eq hB hne hsize hnorms
    refine ⟨ws, hupdate, hsize, fun i => ?_⟩
    rw [hvalue, hnorms]
    by_cases htouched : i = q ∨ i.val ∈ column.support
    · rw [if_pos htouched]
      exact ⟨fun _ => rfl, fun hi hlisted => absurd htouched (not_or.mpr ⟨hi, hlisted⟩)⟩
    · obtain ⟨hi, hlisted⟩ := not_or.mp htouched
      have hsame : rowNorm (B.updateCol q a)⁻¹ i = rowNorm B⁻¹ i := by
        rw [hsolved.rowNorm_eq hB hne, if_neg hi, if_neg hlisted]
      rw [if_neg htouched, hsame]
      refine ⟨fun hcases => (max_eq_right ?_).symm, fun _ _ => ⟨rfl, rfl⟩⟩
      exact (hcases.resolve_left hi).resolve_left hlisted

/-- The weights after the first basis change of a run, and an update with a pivot of two. -/
theorem Run.weights_cover_norms_triangle : ∃ lp, Draft.triangle.build = .ok lp ∧
    (Basis.slack lp).validate lp = .ok () ∧
    let t : Job (Exact 0) := ⟨lp, .default⟩
    let r := (step t)^[3] (begin t (Basis.slack lp))
    r.engine.statistics.iterations = 1 ∧ IsUnit (r.engine.basis t).det ∧
    r.engine.CoversNorms t ∧ ∃ ws,
      ((EdgeWeights.steepestEdge #[(1 : Exact 0)]).update 0
        (SparseVector.single 1 0 (ofRat 2)) (some (SparseVector.single 1 0 1))).1 =
          .steepestEdge ws ∧
      arrayAt ws 0 = max 1 (rowNorm ((1 : Square 1).updateCol 0 fun _ => 2)⁻¹ 0) := by
  obtain ⟨lp, hbuild, hrun⟩ := exists_of_any_toOption (x := Draft.triangle.build)
    (P := fun lp => ((Basis.slack lp).validate lp).toOption.isSome &&
      let t : Job (Exact 0) := ⟨lp, .default⟩
      let r := (step t)^[3] (begin t (Basis.slack lp))
      r.engine.factorValid && r.engine.statistics.iterations == 1)
    (by decide +kernel)
  rw [Bool.and_eq_true, Bool.and_eq_true, beq_iff_eq] at hrun
  obtain ⟨hbasis, hfactor, hiterations⟩ := hrun
  have hbasis := eq_ok_of_isSome hbasis
  obtain ⟨-, hcovers, hupdate⟩ := weights_cover_norms hbuild hbasis
    Parameters.validate_default rfl 3
  obtain ⟨hunit, hcovers⟩ := hcovers hfactor
  have hdet : IsUnit ((1 : Square 1).updateCol 0 fun _ => 2).det := by
    rw [Matrix.det_fin_one, Matrix.updateCol_self]
    norm_num
  have hsolved : EdgeWeights.Solved (1 : Square 1) (fun _ => 2) 0
      (SparseVector.single 1 0 (ofRat 2)) (SparseVector.single 1 0 1) := by
    refine ⟨SparseVector.listed_single (by decide) (by decide), fun i => ?_, fun i => ?_⟩
    · rw [SparseVector.valueAt_single (by decide), inv_one, Matrix.one_mulVec]
      exact if_pos (congrArg Fin.val (Subsingleton.elim 0 i))
    · rw [SparseVector.valueAt_single (by decide), inv_one, Matrix.transpose_one,
        Matrix.one_mulVec, Matrix.one_mulVec, Subsingleton.elim i 0]
      simp
  obtain ⟨ws, hws, -, hvalue⟩ := hupdate 1 1 (fun _ => 2) 0 #[1] _ _ (by simp) hdet rfl
    (fun i => by rw [Subsingleton.elim i 0]; simp [rowNorm, arrayAt]) hsolved
  exact ⟨lp, hbuild, hbasis, hiterations, hunit, hcovers, ws, hws,
    (hvalue 0).1 (Or.inl rfl)⟩

end DualSimplex

end
