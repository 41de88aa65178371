import DualSimplex.Proofs.Draft.Entries
import DualSimplex.Proofs.Engine.PhaseTwo
import DualSimplex.Proofs.Engine.RowNorms

/-!
# Starting from the basis of a smaller program

A program is extended by columns and rows at the end, and a basis of it by resting columns and
basic rows.  That is a basis of the larger program.  If only rows were added, the new basis matrix
is made of blocks: the old one, nothing beside it, and a unit matrix for the logical variables of
the new rows.  These variables cost nothing, so the new rows are worth nothing, and the duals are
those from before.
-/

section

open Matrix

namespace DualSimplex

open Scalar Exact

/-! ## Larger programs -/

section Extends

variable {α : Type} [Scalar α] {lp lp' : LinearProgram α} {columns rows : List (Interval α)}

/-- Columns and rows with these bounds were added to a program at the end.  What the new columns
cost and what stands in them and in the new rows is left open. -/
structure LinearProgram.Extends (lp' lp : LinearProgram α) (columns rows : List (Interval α)) :
    Prop where
  sense : lp'.sense = lp.sense
  columnCount : lp'.columnCount = lp.columnCount + columns.length
  costs : lp.costs.toList <+: lp'.costs.toList
  columnBounds : lp'.columnBounds = lp.columnBounds ++ columns.toArray
  rowBounds : lp'.rowBounds = lp.rowBounds ++ rows.toArray
  /-- As far as the old rows go, the old columns are what they were. -/
  entries : ∀ j, j < lp.columnCount →
    (lp'.columns.line j).filter (fun u => u.1 < lp.rowCount) = lp.columns.line j

deriving instance DecidableEq for Bound
deriving instance DecidableEq for Interval

instance [DecidableEq α] : Decidable (lp'.Extends lp columns rows) :=
  decidable_of_iff (lp'.sense = lp.sense ∧ lp'.columnCount = lp.columnCount + columns.length ∧
      lp.costs.toList <+: lp'.costs.toList ∧
      lp'.columnBounds = lp.columnBounds ++ columns.toArray ∧
      lp'.rowBounds = lp.rowBounds ++ rows.toArray ∧ ∀ j, j < lp.columnCount →
        (lp'.columns.line j).filter (fun u => u.1 < lp.rowCount) = lp.columns.line j)
    ⟨fun ⟨hsense, hcount, hcosts, hcolumns, hrows, hentries⟩ =>
      ⟨hsense, hcount, hcosts, hcolumns, hrows, hentries⟩,
    fun h => ⟨h.sense, h.columnCount, h.costs, h.columnBounds, h.rowBounds, h.entries⟩⟩

theorem LinearProgram.Extends.rowCount (h : lp'.Extends lp columns rows) :
    lp'.rowCount = lp.rowCount + rows.length := by
  unfold LinearProgram.rowCount
  rw [h.rowBounds]
  exact Array.size_append

/-! ## Bases of larger programs -/

namespace Basis

variable {b : Basis}

/-- A basis stays square if columns are added. -/
theorem basicCount_appendColumns (b : Basis) (bounds : List (Interval α)) :
    (b.appendColumns bounds).basicCount = b.basicCount := by
  have hresting : (bounds.map Interval.restingStatus).countP VariableStatus.isBasic = 0 := by
    refine List.countP_eq_zero.mpr fun s hs hbasic => ?_
    obtain ⟨b, -, rfl⟩ := List.mem_map.mp hs
    exact b.restingStatus_ne_basic (of_decide_eq_true hbasic)
  unfold basicCount appendColumns
  rw [Array.toList_append, List.countP_append, List.countP_append, List.countP_append, hresting,
    Nat.add_zero]

theorem appendColumns_nil (b : Basis) : b.appendColumns ([] : List (Interval α)) = b := by
  unfold appendColumns
  rw [List.map_nil, Array.append_empty]

theorem Valid.extend (hb : b.Valid lp) (h : lp'.Extends lp columns rows)
    (hsize : lp.columnBounds.size = lp.columnCount) :
    ((b.appendColumns columns).appendRows rows.length).Valid lp' where
  size_columns := by
    have hlength : (columns.map Interval.restingStatus).toArray.size = columns.length :=
      List.length_map _
    show (b.columns ++ _).size = _
    rw [Array.size_append, hlength, hb.size_columns, h.columnCount]
  size_rows := by
    show (b.rows ++ _).size = _
    rw [Array.size_append, Array.size_replicate, hb.size_rows, h.rowCount]
  count := by rw [basicCount_appendRows, basicCount_appendColumns, hb.count, h.rowCount]
  columns j d := by
    show Interval.allows _ ((b.columns ++ _).getD j _) = true
    rw [h.columnBounds, Matrix.getD_append, Matrix.getD_append, hsize, hb.size_columns]
    split
    · exact hb.columns j d
    · rw [getD_toArray, getD_toArray, List.getD_eq_getElem?_getD, List.getD_eq_getElem?_getD,
        List.getElem?_map]
      -- Past the new columns the default status is read, which any bounds allow.
      cases columns[j - lp.columnCount]? with
      | none => rfl
      | some b => exact b.allows_restingStatus
  rows i d := by
    show Interval.allows _ ((b.rows ++ _).getD i _) = true
    rw [h.rowBounds, Matrix.getD_append, Matrix.getD_append, hb.size_rows, getD_replicate, ite_self]
    show Interval.allows (if i < lp.rowCount then _ else _) _ = true
    split
    · exact hb.rows i d
    · rfl

end Basis

end Extends

/-! ## New rows -/

variable {t t' : Job (Exact 0)} {rows : List (Interval (Exact 0))} {basis : Basis}
  {e e' : Engine (Exact 0)}

namespace LinearProgram.Extends

section Rows

variable (h : t'.program.Extends t.program [] rows)

include h

theorem job_columnCount : t'.columnCount = t.columnCount := h.columnCount

theorem job_rowCount : t'.rowCount = t.rowCount + rows.length := h.rowCount

theorem job_size : t'.size = t.size + rows.length := by
  unfold Job.size
  rw [h.job_columnCount, h.job_rowCount, Nat.add_assoc]

theorem getD_costs (j : Nat) : t'.costs.getD j 0 = t.costs.getD j 0 := by
  have hcosts : t'.program.costs = t.program.costs :=
    Array.toList_inj.mp (h.costs.eq_of_length h.columnCount.symm).symm
  unfold Job.costs
  rw [Matrix.getD_append, Matrix.getD_append, getD_replicate, getD_replicate, ite_self, ite_self,
    hcosts, h.sense]

/-- In the old rows a variable has the entries that it had. -/
theorem coefficient_column {i j : Nat} (hi : i < t.rowCount) (hj : j < t.size) :
    coefficient (t'.column j) i = coefficient (t.column j) i := by
  by_cases hcolumn : j < t.columnCount
  · have hline : t'.column j = t'.program.columns.line j := if_pos (h.job_columnCount ▸ hcolumn)
    have hline' : t.column j = (t'.program.columns.line j).filter (fun u => u.1 < t.rowCount) :=
      (if_pos hcolumn).trans (h.entries j hcolumn).symm
    rw [hline, hline', coefficient_filter fun _ => decide_eq_true hi]
  · obtain ⟨k, rfl⟩ := Nat.exists_eq_add_of_le (Nat.le_of_not_lt hcolumn)
    rw [← h.job_columnCount, Job.coefficient_logical, h.job_columnCount, Job.coefficient_logical]

/-- What the old columns are worth if the new rows are worth nothing. -/
theorem worth_eq {y : Nat → ℚ} (hy : ∀ i, t.rowCount ≤ i → i < t'.rowCount → y i = 0) {j : Nat}
    (hj : j < t.size) : t'.worth y j = t.worth y j := by
  unfold Job.worth
  rw [h.job_rowCount, Finset.sum_range_add]
  have hnew : ∑ i ∈ Finset.range rows.length,
      coefficient (t'.column j) (t.rowCount + i) * y (t.rowCount + i) = 0 := by
    refine Finset.sum_eq_zero fun i hi => ?_
    have hlt : t.rowCount + i < t'.rowCount := by
      rw [h.job_rowCount]
      exact Nat.add_lt_add_left (Finset.mem_range.mp hi) _
    rw [hy _ (Nat.le_add_right _ _) hlt, mul_zero]
  rw [hnew, add_zero]
  exact Finset.sum_congr rfl fun i hi => by
    rw [h.coefficient_column (Finset.mem_range.mp hi) hj]

end Rows

end LinearProgram.Extends

namespace Engine

/-! ## The basis matrix -/

theorem status_start_appendRows (t t' : Job (Exact 0)) (basis : Basis) (count : Nat) :
    (start t' (basis.appendRows count)).status =
      (start t basis).status ++ Array.replicate count VariableStatus.basic := by
  show basis.columns ++ (basis.rows ++ Array.replicate count VariableStatus.basic).map _ =
    basis.columns ++ basis.rows.map _ ++ _
  rw [Array.map_append, Array.map_replicate, Array.append_assoc]
  rfl

theorem statusOf_start_appendRows (t t' : Job (Exact 0)) (basis : Basis) (count j : Nat) :
    (start t' (basis.appendRows count)).statusOf j = (start t basis).statusOf j := by
  unfold statusOf
  rw [status_start_appendRows t t', Matrix.getD_append, getD_replicate, ite_self]
  by_cases hj : j < (start t basis).status.size
  · rw [if_pos hj]
  · rw [if_neg hj, getD_of_size_le (Nat.le_of_not_lt hj)]

section Rows

variable (h : t'.program.Extends t.program [] rows) (hbasis : basis.Valid t.program)

include h hbasis

/-- The basis keeps its order, and the new logical variables come last. -/
theorem basicIndex_start_appendRows : (start t' (basis.appendRows rows.length)).basicIndex =
    (start t basis).basicIndex ++ ((List.range rows.length).map (t.size + ·)).toArray := by
  have hindex : ∀ (t : Job (Exact 0)) (basis : Basis), (start t basis).basicIndex =
      (t.indices.filter fun j => ((start t basis).statusOf j).isBasic).toArray := fun _ _ => rfl
  have hnew : ∀ j ∈ (List.range rows.length).map (t.size + ·),
      ((start t basis).statusOf j).isBasic = true := by
    intro j hj
    obtain ⟨k, -, rfl⟩ := List.mem_map.mp hj
    have hbasic : (start t basis).statusOf (t.size + k) = .basic :=
      getD_of_size_le ((size_status_start hbasis).trans_le (Nat.le_add_right _ _)) _
    rw [hbasic]
    rfl
  rw [hindex, hindex, List.append_toArray]
  simp only [statusOf_start_appendRows t t']
  unfold Job.indices
  rw [h.job_size, List.range_add, List.filter_append, List.filter_eq_self.mpr hnew]

theorem basicAt_start_appendRows {p : Nat} (hp : p < t'.rowCount) :
    (start t' (basis.appendRows rows.length)).basicAt p =
      if p < t.rowCount then (start t basis).basicAt p else t'.columnCount + p := by
  unfold basicAt
  rw [basicIndex_start_appendRows h hbasis, Matrix.getD_append,
    (placed_start hbasis).size_basicIndex]
  split
  · rfl
  · rename_i hold
    have hsize : t.size = t'.columnCount + t.rowCount := by
      rw [h.job_columnCount]
      rfl
    have hnew : p - t.rowCount < rows.length := by
      rw [h.job_rowCount] at hp
      omega
    rw [getD_toArray, List.getD_eq_getElem?_getD, List.getElem?_map, List.getElem?_range hnew]
    show t.size + (p - t.rowCount) = _
    omega

/-- The new basis matrix is made of blocks, so it is singular only if the old one was. -/
theorem det_basis_start_appendRows :
    ((start t' (basis.appendRows rows.length)).basis t').det = ((start t basis).basis t).det := by
  let place : Fin t.rowCount ⊕ Fin rows.length ≃ Fin t'.rowCount :=
    finSumFinEquiv.trans (finCongr h.job_rowCount.symm)
  have hat : ∀ p : Fin t.rowCount, (start t' (basis.appendRows rows.length)).basicAt
      (place (.inl p)) = (start t basis).basicAt p := fun p =>
    (basicAt_start_appendRows h hbasis (place (.inl p)).isLt).trans (if_pos p.isLt)
  have hatNew : ∀ k : Fin rows.length, (start t' (basis.appendRows rows.length)).basicAt
      (place (.inr k)) = t'.columnCount + (t.rowCount + k) := fun k =>
    (basicAt_start_appendRows h hbasis (place (.inr k)).isLt).trans
      (if_neg (Nat.not_lt_of_le (Nat.le_add_right _ _)))
  let below := of fun (i : Fin rows.length) (p : Fin t.rowCount) =>
    coefficient (t'.column ((start t basis).basicAt p)) (t.rowCount + i)
  have hblocks : ((start t' (basis.appendRows rows.length)).basis t').submatrix place place =
      fromBlocks ((start t basis).basis t) 0 below 1 := by
    ext i p
    rcases p with p | k
    · rcases i with i | i
      · show coefficient (t'.column (basicAt _ (place (.inl p)))) i = coefficient _ i
        rw [hat]
        exact h.coefficient_column i.isLt ((placed_start hbasis).basicAt_lt p.isLt)
      · show coefficient (t'.column (basicAt _ (place (.inl p)))) (t.rowCount + i) = _
        rw [hat]
        rfl
    · rcases i with i | i
      · show coefficient (t'.column (basicAt _ (place (.inr k)))) i = 0
        rw [hatNew, Job.coefficient_logical, if_neg (by omega)]
      · show coefficient (t'.column (basicAt _ (place (.inr k)))) (t.rowCount + i) = _
        rw [hatNew, Job.coefficient_logical, fromBlocks_apply₂₂, one_apply]
        simp only [Nat.add_left_cancel_iff, Fin.ext_iff, eq_comm]
  rw [← det_submatrix_equiv_self place, hblocks, det_fromBlocks_zero₁₂, det_one, mul_one]

end Rows

/-! ## The duals -/

namespace Reloaded

variable (hold : Reloaded t (start t basis) e) (hcost : e.cost = t.costs)
  (hnew : Reloaded t' (start t' (basis.appendRows rows.length)) e') (hcost' : e'.cost = t'.costs)
  (h : t'.program.Extends t.program [] rows)

include hold hnew

theorem statusOf_appendRows (j : Nat) : e'.statusOf j = e.statusOf j := by
  rw [statusOf_congr hnew.status, statusOf_congr hold.status, statusOf_start_appendRows t t']

theorem statusOf_appended {j : Nat} (hj : t.size ≤ j) : e'.statusOf j = .basic := by
  rw [hold.statusOf_appendRows hnew]
  by_contra hbasic
  exact absurd (hold.settled.sound.lt_of_statusOf_ne hbasic) (Nat.not_lt_of_le hj)

include h hcost'

/-- The logical variables of the new rows are basic and cost nothing. -/
theorem multipliers_appended {i : Nat} (hi : t.rowCount ≤ i) (hi' : i < t'.rowCount) :
    arrayAt e'.multipliers i = 0 := by
  have hlt : t'.columnCount + i < t'.size := Nat.add_lt_add_left hi' _
  have hle : t.size ≤ t'.columnCount + i := by
    rw [h.job_columnCount]
    exact Nat.add_le_add_left hi _
  have hcost : (e'.costOf (t'.columnCount + i)).value = 0 := by
    unfold costOf
    rw [hcost', h.getD_costs, getD_of_size_le (t.size_costs.trans_le hle)]
    rfl
  have hzero := hnew.priced.basic _ hlt (hold.statusOf_appended hnew hle)
  rw [hnew.priced.reducedCost _ hlt, Job.worth_logical hi', hcost] at hzero
  linarith

include hcost

/-- The duals of the larger program are duals of the smaller one, which are unique. -/
theorem duals_appendRows :
    (∀ i, i < t.rowCount → arrayAt e'.multipliers i = arrayAt e.multipliers i) ∧
    ∀ j, j < t.size → (e'.reducedCostOf j).value = (e.reducedCostOf j).value := by
  have hlt : ∀ {j}, j < t.size → j < t'.size := fun hj =>
    h.job_size ▸ Nat.lt_add_right rows.length hj
  have hcosts : ∀ j, e'.costOf j = e.costOf j := by
    intro j
    unfold costOf
    rw [hcost, hcost', h.getD_costs]
  have hpriced : (e.withDuals e').Priced t := by
    refine ⟨fun j hj => ?_, fun j hj hbasic => ?_⟩
    · refine (hnew.priced.reducedCost j (hlt hj)).trans ?_
      rw [hcosts, h.worth_eq (fun i => hold.multipliers_appended hnew hcost' h) hj]
      rfl
    · refine hnew.priced.basic j (hlt hj) ?_
      rwa [hold.statusOf_appendRows hnew]
  have hsound : (e.withDuals e').Sound t := hold.settled.sound.of_standing rfl
  have hunique := hold.current.priced_unique hold.settled.sound hsound hold.priced hpriced rfl rfl
  exact hunique

theorem dualWithin_appendRows {limit : ℚ} (hwithin : e.DualWithin limit) :
    e'.DualWithin limit := by
  obtain ⟨-, hreduced⟩ := hold.duals_appendRows hcost hnew hcost' h
  intro j
  by_cases hj : j < t.size
  · have hsame : (e'.dualInfeasibility j).value = (e.dualInfeasibility j).value := by
      unfold dualInfeasibility
      rw [hold.statusOf_appendRows hnew]
      exact VariableStatus.value_dualInfeasibility_congr _ (hreduced j hj)
    rw [hsame]
    exact hwithin j
  · unfold dualInfeasibility
    rw [hold.statusOf_appended hnew (Nat.le_of_not_lt hj)]
    exact hwithin.nonneg

end Reloaded

end Engine

/-! ## The start of a solve -/

/-- A basis that is extended along with its program is valid for the larger program.  With exact
numbers its basis matrix has the determinant of the old one if only rows were added.  If neither
matrix has to be repaired, the run on the larger program begins with the reduced costs of the old
columns and rows, and the new rows are worth nothing.  So no phase one is needed if no reduced
cost was of the wrong sign by more than the tolerance. -/
theorem restart_extended :
    (∀ {α : Type} [Scalar α] {d : Draft α} {lp lp' : LinearProgram α} {basis : Basis}
      {columns rows : List (Interval α)}, d.build = .ok lp → basis.validate lp = .ok () →
      lp'.Extends lp columns rows →
      ((basis.appendColumns columns).appendRows rows.length).validate lp' = .ok ()) ∧
    ∀ {d d' : Draft (Exact 0)} {lp lp' : LinearProgram (Exact 0)} {basis : Basis}
      {rows : List (Interval (Exact 0))} {p p' : Parameters (Exact 0)},
      d.build = .ok lp → d'.build = .ok lp' → basis.validate lp = .ok () → p.validate = .ok () →
      p'.validate = .ok () → lp'.Extends lp [] rows →
      let t : Job (Exact 0) := ⟨lp, p⟩
      let t' : Job (Exact 0) := ⟨lp', p'⟩
      let basis' := basis.appendRows rows.length
      ((Engine.start t' basis').basis t').det = ((Engine.start t basis).basis t).det ∧
      (basis.isFactored t = true → basis'.isFactored t' = true → ∃ e e',
        Run.begin t basis = ⟨e, .start, 0⟩ ∧ Run.begin t' basis' = ⟨e', .start, 0⟩ ∧
        (∀ j, j < lp.columnCount + lp.rowCount →
          (e'.reducedCostOf j).value = (e.reducedCostOf j).value) ∧
        (∀ i, i < lp.rowCount → arrayAt e'.multipliers i = arrayAt e.multipliers i) ∧
        (∀ i, lp.rowCount ≤ i → i < lp'.rowCount → arrayAt e'.multipliers i = 0) ∧
        ((∀ j, j < lp.columnCount + lp.rowCount →
            (e.dualInfeasibility j).value ≤ p'.dualTolerance.value) →
          e'.needsPhaseOne t' = false ∧
          (Run.begin t' basis').step t' = ⟨e', .enterMain, 0⟩)) := by
  refine ⟨fun hbuild hbasis hextends => ?_, ?_⟩
  · have hsize := Draft.size_columnBounds_of_build hbuild
    exact Basis.validate_of_valid ((Basis.valid_of_size hsize hbasis).extend hextends hsize)
  · intro d d' lp lp' basis rows p p' hbuild hbuild' hbasis hp hp' hextends t t' basis'
    have ht : t.WellFormed := Job.wellFormed_of_build d.canonical_exact hbuild hp
    have ht' : t'.WellFormed := Job.wellFormed_of_build d'.canonical_exact hbuild' hp'
    obtain ⟨-, -, -, hpivot⟩ := Parameters.tolerances_of_validate hp
    obtain ⟨-, ⟨-, hdual'⟩, -, hpivot'⟩ := Parameters.tolerances_of_validate hp'
    have hvalid := Basis.valid_of_validate ht.program hbasis
    have hvalid' : basis'.Valid lp' := by
      have hextended := hvalid.extend hextends ht.program.size_columnBounds
      rwa [Basis.appendColumns_nil] at hextended
    refine ⟨Engine.det_basis_start_appendRows hextends hvalid, fun hfactored hfactored' => ?_⟩
    obtain ⟨e, hbegin, hold, hcost⟩ := Run.reloaded_begin ht hpivot hvalid rfl hfactored
    obtain ⟨e', hbegin', hnew, hcost'⟩ := Run.reloaded_begin ht' hpivot' hvalid' rfl hfactored'
    obtain ⟨hmultipliers, hreduced⟩ := hold.duals_appendRows hcost hnew hcost' hextends
    refine ⟨e, e', hbegin, hbegin', hreduced, hmultipliers,
      fun i => hold.multipliers_appended hnew hcost' hextends, fun hwithin => ?_⟩
    have hwithin' := hold.dualWithin_appendRows hcost hnew hcost' hextends
      (hold.settled.sound.dualWithin_of_lt hdual'.le hwithin)
    refine ⟨hwithin'.needsPhaseOne hdual', ?_⟩
    rw [hbegin']
    exact Run.step_start_of_dualWithin rfl hdual' hwithin'

/-- The cheaper column of the cover is capped by a second row. -/
def Draft.capped : Draft (Exact 0) :=
  { (blank 2 2).withMatrix #[0, 2, 3] #[0, 1, 0] #[1, 1, 1] with
    costs := #[1, .ofRat 2]
    rowLower := #[.finite (3 : Nat), .negInf]
    rowUpper := #[.posInf, .finite (2 : Nat)] }

/-- Here the cap is one of a third column, which has an upper bound only. -/
def Draft.widened : Draft (Exact 0) :=
  { (blank 2 3).withMatrix #[0, 1, 2, 3] #[0, 0, 1] #[1, 1, 1] with
    costs := #[1, .ofRat 2, .ofRat 3]
    columnLower := #[.finite 0, .finite 0, .negInf]
    columnUpper := #[.posInf, .posInf, .finite (4 : Nat)]
    rowLower := #[.finite (3 : Nat), .negInf]
    rowUpper := #[.posInf, .finite (2 : Nat)] }

/-- The solved cover goes straight to phase two when the row is added that cuts off its
solution. -/
theorem restart_extended_capped : ∃ lp lp' wide : LinearProgram (Exact 0),
    Draft.cover.build = .ok lp ∧ Draft.capped.build = .ok lp' ∧ Draft.widened.build = .ok wide ∧
    let basis : Basis := ⟨#[.basic, .atLower], #[.atLower]⟩
    let upTo : Interval (Exact 0) := ⟨.negInf, .finite (4 : Nat)⟩
    ((basis.appendColumns [upTo]).appendRows 1).validate wide = .ok () ∧
    let t : Job (Exact 0) := ⟨lp, .default⟩
    let t' : Job (Exact 0) := ⟨lp', .default⟩
    ((Engine.start t' (basis.appendRows 1)).basis t').det =
      ((Engine.start t basis).basis t).det ∧
    ∃ e e', Run.begin t basis = ⟨e, .start, 0⟩ ∧
      Run.begin t' (basis.appendRows 1) = ⟨e', .start, 0⟩ ∧
      (e'.reducedCostOf 1).value = (e.reducedCostOf 1).value ∧
      arrayAt e'.multipliers 1 = 0 ∧
      (Run.begin t' (basis.appendRows 1)).step t' = ⟨e', .enterMain, 0⟩ := by
  let basis : Basis := ⟨#[.basic, .atLower], #[.atLower]⟩
  let cap : Interval (Exact 0) := ⟨.negInf, .finite (2 : Nat)⟩
  let upTo : Interval (Exact 0) := ⟨.negInf, .finite (4 : Nat)⟩
  have hsorted : ∀ j, j < 2 → ((Draft.capped.matrix.line j).filter fun s =>
      !(s.2 == 0)).Pairwise fun s s' => decide (s.1 ≤ s'.1) = true := by decide +kernel
  -- the sort that `build` uses does not evaluate
  have hlines : (List.range Draft.capped.columnCount).map (fun j =>
      Draft.tidy (Draft.capped.matrix.line j)) = (List.range 2).map fun j =>
      (Draft.capped.matrix.line j).filter fun s => !(s.2 == 0) :=
    List.map_congr_left fun j hj =>
      List.mergeSort_of_pairwise (hsorted j (List.mem_range.mp hj))
  obtain ⟨lp, hbuild, hcheck⟩ := exists_of_any_toOption (x := Draft.cover.build)
    (P := fun lp => Draft.capped.build.toOption.any fun (lp' : LinearProgram (Exact 0)) =>
      Draft.widened.build.toOption.any fun (wide : LinearProgram (Exact 0)) =>
      let t : Job (Exact 0) := ⟨lp, .default⟩
      let t' : Job (Exact 0) := ⟨lp', .default⟩
      let e := (Run.begin t basis).engine
      ((basis.validate lp).toOption.isSome && basis.isFactored t &&
        (basis.appendRows 1).isFactored t') &&
      decide (lp'.Extends lp [] [cap] ∧ wide.Extends lp [upTo] [cap] ∧
        lp.columnCount = 2 ∧ lp.rowCount = 1 ∧ lp'.rowCount = 2 ∧
        ∀ j ∈ List.range 3, (e.dualInfeasibility j).value ≤
          t'.parameters.dualTolerance.value)) (by unfold Draft.build; rw [hlines]; decide +kernel)
  obtain ⟨lp', hbuild', hcheck⟩ := exists_of_any_toOption hcheck
  obtain ⟨wide, hwide, hcheck⟩ := exists_of_any_toOption hcheck
  simp only [Bool.and_eq_true] at hcheck
  obtain ⟨⟨⟨hbasis, hfactored⟩, hfactored'⟩, hcheck⟩ := hcheck
  have hbasis := eq_ok_of_isSome hbasis
  obtain ⟨hextends, hextendsWide, hcolumns, hrows, hrows', hwithin⟩ := of_decide_eq_true hcheck
  obtain ⟨hdet, hstart⟩ := restart_extended.2 hbuild hbuild' hbasis Parameters.validate_default
    Parameters.validate_default hextends
  obtain ⟨e, e', hbegin, hbegin', hreduced, -, hnew, hphase⟩ := hstart hfactored hfactored'
  refine ⟨lp, lp', wide, hbuild, hbuild', hwide, restart_extended.1 hbuild hbasis hextendsWide,
    hdet, e, e', hbegin, hbegin', hreduced 1 (by omega), hnew 1 (by omega) (by omega),
    (hphase fun j hj => ?_).2⟩
  have hdual := hwithin j (List.mem_range.mpr (by omega))
  rw [hbegin] at hdual
  exact hdual

end DualSimplex
end
