import DualSimplex.Proofs.Engine.DualUpdate
import DualSimplex.Proofs.Factor.SelfChecks

/-!
# The pivot element

The element at which a basis change pivots is computed twice: as an entry of the row of the
leaving variable, which is solved for with the transposed factors and priced out over all
columns, and as an entry of the column of the entering variable, which is solved for with the
factors.  Both are the entry of the tableau, so with exact numbers they agree.
-/

namespace DualSimplex

open Scalar Exact

namespace Engine

/-- The pivot element as the pivot row has it. -/
def rowElement {α : Type} [Scalar α] (t : Job α) (e : Engine α) (position entering : Nat) : α :=
  (e.priceRow t position).2.entry t entering

/-- The pivot element as the column of the entering variable has it. -/
def columnElement {α : Type} [Scalar α] (t : Job α) (e : Engine α) (position entering : Nat) : α :=
  ((e.priceRow t position).1.ftranEntering t entering).2.get position

variable {t : Job (Exact 0)} {e e' : Engine (Exact 0)} {x : Exchange (Exact 0)}

/-- The ratio test on the row of a position selects a variable, whichever of the bounds the
leaving variable violates and however far it does. -/
def Selects (t : Job (Exact 0)) (e : Engine (Exact 0)) (position entering : Nat) : Prop :=
  ∃ direction slope alpha step : Exact 0, |direction.value| = 1 ∧
    ((e.ratioTest t (e.priceRow t position).2 direction).run slope t.parameters.dualTolerance
      t.parameters.primalTolerance).2 = .entering entering alpha step

/-! ## Both computations -/

/-- A column that is a combination of basic columns is worth as much as these together. -/
theorem worth_of_solves {x : Nat → ℚ} {j : Nat} (hx : ∀ i, i < t.rowCount →
    ∑ p ∈ Finset.range t.rowCount, coefficient (t.column (e.basicAt p)) i * x p =
      coefficient (t.column j) i) (y : Nat → ℚ) :
    t.worth y j = ∑ p ∈ Finset.range t.rowCount, t.worth y (e.basicAt p) * x p := by
  have hrow : ∀ i ∈ Finset.range t.rowCount, coefficient (t.column j) i * y i =
      ∑ p ∈ Finset.range t.rowCount, coefficient (t.column (e.basicAt p)) i * y i * x p := by
    intro i hi
    rw [← hx i (Finset.mem_range.mp hi), Finset.sum_mul]
    exact Finset.sum_congr rfl fun p _ => by ring
  unfold Job.worth
  rw [Finset.sum_congr rfl hrow, Finset.sum_comm]
  exact Finset.sum_congr rfl fun p _ => (Finset.sum_mul ..).symm

section Settled

variable (ht : t.WellFormed) (h : e.Settled t)

include ht h

omit ht in
theorem Settled.priceRow (position : Nat) : (e.priceRow t position).1.Settled t := by
  have hrow : (e.priceRow t position).1.standing = e.standing :=
    (standing_price _ _).trans (standing_inverseRow e position)
  exact h.of_standing hrow

/-- The row makes every basic variable but that of its position worth nothing, so of a column
it leaves the share of that position. -/
theorem Settled.columnElement_eq {position : Nat} (hposition : position < t.rowCount) {j : Nat}
    (hj : j < t.size) :
    (e.columnElement t position j).value = (e.rowElement t position j).value := by
  have hcurrent := h.current h.valid
  have hpriced := h.priceRow position
  obtain ⟨-, hsolves⟩ := (hpriced.current hpriced.valid).ftranEntering ht hpriced.sound hj
  have hworth := worth_of_solves hsolves (e.priceRow t position).2.rho.valueAt
  have hterm : ∀ p ∈ Finset.range t.rowCount,
      t.worth (e.priceRow t position).2.rho.valueAt ((e.priceRow t position).1.basicAt p) *
        ((e.priceRow t position).1.ftranEntering t j).2.valueAt p =
      if position = p then ((e.priceRow t position).1.ftranEntering t j).2.valueAt p else 0 := by
    intro p hp
    have hbasic : t.worth (e.priceRow t position).2.rho.valueAt
        ((e.priceRow t position).1.basicAt p) = if position = p then 1 else 0 :=
      hcurrent.worth_priceRow h.sound hposition (Finset.mem_range.mp hp)
    rw [hbasic, ite_mul, one_mul, zero_mul]
  rw [Finset.sum_congr rfl hterm, Finset.sum_ite_eq,
    if_pos (Finset.mem_range.mpr hposition)] at hworth
  exact hworth.symm.trans (hcurrent.value_priceRow ht h.sound hposition hj).symm

end Settled

/-! ## What the ratio test selects -/

/-- The entry of a candidate is larger than the pivot tolerance. -/
theorem lt_of_candidate {r : PivotRow (Exact 0)} {direction : Exact 0} {j : Nat}
    {c : Candidate (Exact 0)} (hdirection : |direction.value| = 1)
    (h : e.candidate? t r direction j = some c) :
    t.parameters.pivotTolerance.value < |(r.entry t j).value| := by
  unfold Engine.candidate? at h
  dsimp only at h
  split at h
  · exact absurd h nofun
  · rename_i moving hmoving
    split at h
    · exact absurd h nofun
    · rename_i hlarge
      have hunit := (of_movingSign hmoving).1
      have hlarge : t.parameters.pivotTolerance.value <
          moving.value * (direction.value * (r.entry t j).value) := not_le.mp hlarge
      calc t.parameters.pivotTolerance.value
          < moving.value * (direction.value * (r.entry t j).value) := hlarge
        _ ≤ |moving.value * (direction.value * (r.entry t j).value)| := le_abs_self _
        _ = |(r.entry t j).value| := by
          rw [abs_mul, abs_mul, hunit, hdirection, one_mul, one_mul]

theorem Selects.exists_candidate {position j : Nat} (h : e.Selects t position j) :
    ∃ direction c, |direction.value| = 1 ∧
      e.candidate? t (e.priceRow t position).2 direction j = some c := by
  obtain ⟨direction, slope, alpha, step, hdirection, hresult⟩ := h
  obtain ⟨passed, rest, last, hends, -, hlast, -⟩ := RatioTest.exists_endsAt hresult
  have hmem := hends.perm.mem_iff.mp (List.mem_append_right passed hends.mem)
  rw [candidates_ratioTest, List.mem_filterMap] at hmem
  obtain ⟨k, -, hcandidate⟩ := hmem
  have hk : k = j := (of_candidate hcandidate).1.symm.trans hlast
  exact ⟨direction, last, hdirection, hk ▸ hcandidate⟩

theorem Selects.lt_rowElement {position j : Nat} (h : e.Selects t position j) :
    t.parameters.pivotTolerance.value < |(e.rowElement t position j).value| := by
  obtain ⟨direction, c, hdirection, hcandidate⟩ := h.exists_candidate
  exact lt_of_candidate hdirection hcandidate

theorem Selects.lt_size {position j : Nat} (h : e.Selects t position j) (hsound : e.Sound t) :
    j < t.size := by
  obtain ⟨direction, c, -, hcandidate⟩ := h.exists_candidate
  exact hsound.lt_of_statusOf_ne (of_candidate hcandidate).2.2

theorem Decided.selects (hx : e.Decided t e' x) : e.Selects t x.position x.entering := by
  obtain ⟨alpha, slope, hresult, -⟩ := hx.found
  rw [hx.row_eq] at hresult
  exact ⟨x.direction, slope, alpha, x.step, hx.abs_direction, hresult⟩

/-! ## Basis changes that were decided on -/

theorem Decided.pivot_eq_columnElement (hx : e.Decided t e' x) :
    x.pivot = e.columnElement t x.position x.entering := by
  unfold Exchange.pivot columnElement
  rw [hx.column_eq]

theorem Decided.entry_eq_rowElement (hx : e.Decided t e' x) :
    x.row.entry t x.entering = e.rowElement t x.position x.entering := by
  unfold rowElement
  rw [hx.row_eq]

section Decided

variable (ht : t.WellFormed) (h : e.Settled t) (hx : e.Decided t e' x)

include ht h hx

/-- The pivot element of a basis change that was decided on. -/
theorem Decided.pivot_eq : x.pivot.value = (x.row.entry t x.entering).value ∧
    t.parameters.pivotTolerance.value < |x.pivot.value| := by
  have heq := h.columnElement_eq ht hx.fits.position_lt hx.fits.entering_lt
  rw [hx.pivot_eq_columnElement, hx.entry_eq_rowElement]
  exact ⟨heq, heq ▸ hx.selects.lt_rowElement⟩

/-- The pivot element is always relied on. -/
theorem Decided.isDoubtful_eq_false (hpivot : 0 < t.parameters.pivotTolerance.value) :
    isDoubtful t x = false := by
  obtain ⟨heq, hlarge⟩ := hx.pivot_eq ht h
  have hne : x.pivot.value ≠ 0 := abs_pos.mp (hpivot.trans hlarge)
  unfold isDoubtful isTooSmall
  rw [Bool.or_eq_false_iff]
  refine ⟨decide_eq_false fun hsmall => ?_,
    Bound.exceeds_discrepancy_of_ne_zero heq hne (by norm_num : (0 : ℚ) ≤ 1e-7)⟩
  rw [lt_iff, value_magnitude, Exact.abs_eq] at hsmall
  exact absurd hsmall (not_lt.mpr hlarge.le)

theorem Decided.tryExchange_eq (hpivot : 0 < t.parameters.pivotTolerance.value) :
    e'.tryExchange t x = e'.performExchange t x := by
  have hreliable := hx.isDoubtful_eq_false ht h hpivot
  unfold Engine.tryExchange
  rw [hreliable]
  exact if_neg Bool.false_ne_true

/-- The engine that makes the basis change has solved for the entering column. -/
theorem Decided.entered (hpivot : 0 < t.parameters.pivotTolerance.value) :
    e'.Settled t ∧ e'.Entered t x := by
  obtain ⟨-, hlarge⟩ := hx.pivot_eq ht h
  obtain ⟨hsettled, hentered⟩ := (h.priceRow x.position).ftranEntering ht hx.fits.entering_lt
    hx.column_eq.symm
  rw [hx.engine_eq]
  exact ⟨hsettled, hentered (abs_pos.mp (hpivot.trans hlarge))⟩

/-- The update of the factors may find the new diagonal value too small, but it finds the one
that the pivot element makes expect. -/
theorem Decided.update_ne_unstable (diagonal expected : Exact 0) :
    (e'.applyExchange t x).1.factor.update x.position x.pivot ≠
      .error (.unstable diagonal expected) := by
  have hpriced := h.priceRow x.position
  have hcurrent := hpriced.current hpriced.valid
  have hm : (e.priceRow t x.position).1.factor.lu.m = t.rowCount := hpriced.sound.factor.m_eq
  have hlisted := (valueAt_entering ht hx.fits.entering_lt).1
  have hspike := hcurrent.spike_ftranEntering ht hpriced.sound hx.fits.entering_lt
  have hsound := (hpriced.sound.ftranEntering ht hx.fits.entering_lt).1
  rw [← hx.engine_eq] at hspike hsound
  have hlu : e'.factor.lu = (e.priceRow t x.position).1.factor.lu := by
    rw [hx.engine_eq]
    rfl
  have hsetting := setting_applyExchange ht hsound hx.fits
  have hpivot : x.pivot.value = ((e.priceRow t x.position).1.factor.lu.ftran
      (t.zeroRow.addAll (t.column x.entering))).solution.valueAt x.position := by
    unfold Exchange.pivot
    rw [hx.column_eq]
    rfl
  have hstable := fun tolerance => hcurrent.solvable.update_ne_unstable (hm.symm ▸ hlisted)
    (hm.symm ▸ hx.fits.position_lt) hspike hpivot tolerance diagonal expected
  rw [← hlu] at hstable
  have hlu' : (e'.applyExchange t x).1.factor.lu = e'.factor.lu := congrArg Setting.lu hsetting
  have hspike' : (e'.applyExchange t x).1.factor.spike = e'.factor.spike :=
    congrArg Setting.spike hsetting
  unfold FactoredBasis.update
  rw [hlu', hspike']
  intro hc
  refine hstable (e'.applyExchange t x).1.factor.parameters.pivotTolerance ?_
  split at hc
  · exact absurd hc nofun
  · rename_i failure hfailure
    rw [hfailure, Except.error.inj hc]

end Decided

/-! ## Fresh factors -/

/-- The factors find no residual as long as they are those of the basis. -/
theorem Current.value_residual (hcurrent : e.Current t) (ht : t.WellFormed) (h : e.Sound t) :
    (e.factor.residual (e.basisMatrix t)).value = 0 := by
  have hm : e.factor.m = t.rowCount := h.factor.m_eq
  have hlength := length_basisMatrix h.toPlaced
  refine FactoredBasis.value_residual hcurrent.solvable
    (squareColumns_basisMatrix ht h.toPlaced) (hlength.trans hm.symm) fun i p hi hp => ?_
  rw [hm] at hi hp
  rw [hcurrent.matrixAt i p hi hp, getD_basisMatrix h.toPlaced hp]

end Engine
end DualSimplex
