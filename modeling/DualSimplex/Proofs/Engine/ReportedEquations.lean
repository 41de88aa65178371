import DualSimplex.Proofs.Engine.Factors
import DualSimplex.Proofs.Engine.ReportedValues

/-!
# Equations of solutions

However a run ends, in whichever phase and with whatever costs and bounds, its values
and multipliers are brought back to the program before they are reported.  Unless
numerical trouble has ended it, the numbers of the solution go together exactly.
-/

namespace DualSimplex

open Scalar Exact

namespace Engine

variable {t : Job (Exact 0)} {e e' : Engine (Exact 0)}

theorem Aligned.settled_refreshValues (h : e.Aligned t) (ht : t.WellFormed)
    (hvalid : e.factorValid = true) : (e.refreshValues t).Settled t := by
  unfold Engine.refreshValues
  rw [if_pos hvalid]
  exact h.solveValues ht hvalid

/-- What a run ends with has the costs of the program, its values solve the equations, and
its reduced costs are new. -/
theorem Settled.conclude (h : e.Settled t) (ht : t.WellFormed) : ∃ e' : Engine (Exact 0),
    e'.Settled t ∧ e'.cost = t.costs ∧ e.conclude t = e'.solveDuals t := by
  obtain ⟨e₁, e₂, hbounds, hundo, -, -, hduals⟩ := conclude_cases (t := t) e
  have h₁ : e₁.Settled t := by
    rcases hbounds with ⟨-, rfl⟩ | ⟨-, rfl⟩
    · have hfooting := footing_restoreBounds (t := t) e
      exact (h.toAligned.of_footing (h.sound.restoreBounds ht) hfooting).settled_refreshValues ht
        ((congrArg Footing.factorValid hfooting).trans h.valid)
    · exact h
  have h₂ : e₂.Settled t := by
    rcases hundo with ⟨-, rfl⟩ | ⟨e', hundo, rfl⟩
    · exact h₁
    · have hfooting := footing_undoRelaxations hundo
      exact (h₁.toAligned.of_footing (h₁.sound.undoRelaxations hundo)
        hfooting).settled_refreshValues ht
        ((congrArg Footing.factorValid hfooting).trans h₁.valid)
  exact ⟨_, h₂.of_standing (standing_resetCosts e₂), rfl, hduals h₂.valid⟩

/-! ## Sizes -/

theorem size_reducedCosts (t : Job (Exact 0)) (e : Engine (Exact 0))
    (multipliers : Array (Exact 0)) : (e.reducedCosts t multipliers).size = t.size := by
  unfold Engine.reducedCosts
  dsimp only
  rw [← Array.foldl_toList]
  refine (size_foldl_set id (fun _ => 0) _ _).trans ?_
  simp [Job.size]

theorem Settled.size_duals (h : e.Settled t) :
    (e.solveDuals t).multipliers.size = t.rowCount ∧
    (e.solveDuals t).reducedCost.size = t.size := by
  have hcosts := h.sound.toPlaced.basicCosts.1
  exact ⟨((h.current h.valid).listed_btran h.sound hcosts).dim_eq, size_reducedCosts ..⟩

end Engine

/-- The numbers of a solution go together. -/
structure Solution.Coherent (lp : LinearProgram (Exact 0)) (s : Solution (Exact 0)) : Prop where
  size_columns : s.columnValues.size = lp.columnCount ∧ s.columnDuals.size = lp.columnCount
  size_rows : s.rowValues.size = lp.rowCount ∧ s.rowDuals.size = lp.rowCount
  /-- Row values are activities. -/
  rowValues : ∀ i, i < lp.rowCount →
    arrayAt s.rowValues i = lp.activityAt (arrayAt s.columnValues) i
  /-- Column duals are what the row duals leave of the costs. -/
  columnDuals : ∀ j, j < lp.columnCount → arrayAt s.columnDuals j = arrayAt lp.costs j -
    ∑ i ∈ Finset.range lp.rowCount, coefficient (lp.columns.line j) i * arrayAt s.rowDuals i
  basicColumns : ∀ j, j < lp.columnCount → s.basis.columns[j]? = some .basic →
    arrayAt s.columnDuals j = 0
  basicRows : ∀ i, i < lp.rowCount → s.basis.rows[i]? = some .basic → arrayAt s.rowDuals i = 0
  objective : s.objective.value = lp.objectiveAt (arrayAt s.columnValues)

namespace Engine

variable {t : Job (Exact 0)} {e : Engine (Exact 0)}

theorem Sound.size_values (h : e.Sound t) (status : SolveStatus) :
    (e.solution t status).columnValues.size = t.columnCount ∧
    (e.solution t status).rowValues.size = t.rowCount := by
  have hsize : e.value.size = t.columnCount + t.rowCount := h.size_value
  constructor
  · show (e.value.take t.columnCount).size = _
    simp [hsize]
  · show ((e.value.drop t.columnCount).map (- ·)).size = _
    simp [hsize]

theorem Settled.coherent (h : e.Settled t) (ht : t.WellFormed) (hcost : e.cost = t.costs)
    (status : SolveStatus) : ((e.solveDuals t).solution t status).Coherent t.program := by
  have hpriced := (h.current h.valid).priced_solveDuals ht h.sound
  have hsettled := h.of_standing (standing_solveDuals (t := t) e)
  have hsound := hsettled.sound
  have hcost : (e.solveDuals t).cost = t.costs := hcost
  obtain ⟨hmultipliers, hreduced⟩ := h.size_duals
  obtain ⟨hcolumns, hrows⟩ := hsound.size_values status
  constructor
  · refine ⟨hcolumns, ?_⟩
    show (((e.solveDuals t).reducedCost.take t.columnCount).map t.program.sense.orient).size = _
    simp [hreduced, Job.size, Job.columnCount]
  · refine ⟨hrows, ?_⟩
    show ((e.solveDuals t).multipliers.map t.program.sense.orient).size = _
    rw [Array.size_map, hmultipliers]
    rfl
  · exact fun i hi => arrayAt_rowValues hsound status hsettled.balanced hi
  · exact fun j hj => columnDuals_eq status hcost hpriced hj
  · intro j hj hbasic
    have hstatus := Option.some.inj ((columns_solution hsound.toShaped hj status).1.symm.trans
      hbasic)
    rw [arrayAt_columnDuals status hj, hpriced.basic j (Nat.lt_add_right t.rowCount hj) hstatus,
      mul_zero]
  · intro i hi hbasic
    have hstatus := VariableStatus.opposite_eq_basic.mp
      (Option.some.inj ((rows_solution hsound.toShaped hi status).1.symm.trans hbasic))
    have hlt : t.columnCount + i < t.size := Nat.add_lt_add_left hi t.columnCount
    have hmultiplier := hpriced.reducedCost _ hlt
    rw [hpriced.basic _ hlt hstatus, costOf_row hcost, Job.worth_logical hi, zero_sub,
      zero_eq_neg] at hmultiplier
    rw [arrayAt_rowDuals, hmultiplier, mul_zero]
  · exact value_objective_solution hsound status

end Engine

end DualSimplex
