import DualSimplex.Proofs.Engine.Endings

/-!
# What a solution reports

A solution is read off an engine that was brought back to the program.  A row stands
where its logical variable stands at the other end, and its activity is minus the
value of that variable.  Whatever a run did to costs and bounds, the report is about
the program as it was given.
-/

namespace DualSimplex

open Scalar

theorem toList_take {β : Type} (xs : Array β) (n : Nat) :
    (xs.take n).toList = xs.toList.take n := by
  simp

theorem toList_drop {β : Type} (xs : Array β) (n : Nat) :
    (xs.drop n).toList = xs.toList.drop n := by
  simp

theorem getElem?_take {β : Type} (xs : Array β) (n i : Nat) :
    (xs.take n)[i]? = if i < n then xs[i]? else none := by
  rw [← Array.getElem?_toList, toList_take, List.getElem?_take, Array.getElem?_toList]

theorem getElem?_map_drop {β γ : Type} (xs : Array β) (n : Nat) (f : β → γ) (i : Nat) :
    ((xs.drop n).map f)[i]? = xs[n + i]?.map f := by
  rw [Array.getElem?_map, ← Array.getElem?_toList, toList_drop, List.getElem?_drop,
    Array.getElem?_toList]

variable {α : Type} [Scalar α]

namespace Engine

variable {t : Job α} {e : Engine α} {status : SolveStatus}

section Reading

variable (h : e.Shaped t)

include h

theorem getElem?_status (j : Nat) :
    e.status[j]? = if j < t.size then some (e.statusOf j) else none := by
  unfold statusOf
  split
  · rename_i hj
    have hlt : j < e.status.size := h.size_status.symm ▸ hj
    rw [getD_eq_getElem hlt, Array.getElem?_eq_getElem hlt]
  · exact Array.getElem?_eq_none (by rw [h.size_status]; omega)

theorem getElem?_value (j : Nat) :
    e.value[j]? = if j < t.size then some (e.valueOf j) else none := by
  unfold valueOf
  split
  · rename_i hj
    have hlt : j < e.value.size := h.size_value.symm ▸ hj
    rw [getD_eq_getElem hlt, Array.getElem?_eq_getElem hlt]
  · exact Array.getElem?_eq_none (by rw [h.size_value]; omega)

/-! ## Columns and rows -/

theorem columns_solution {j : Nat} (hj : j < t.columnCount) (status : SolveStatus) :
    (e.solution t status).basis.columns[j]? = some (e.statusOf j) ∧
    (e.solution t status).columnValues[j]? = some (e.valueOf j) := by
  have hsize : j < t.size := by
    unfold Job.size
    omega
  constructor
  · refine (getElem?_take ..).trans ?_
    rw [if_pos hj, getElem?_status h, if_pos hsize]
  · refine (getElem?_take ..).trans ?_
    rw [if_pos hj, getElem?_value h, if_pos hsize]

theorem rows_solution {i : Nat} (hi : i < t.rowCount) (status : SolveStatus) :
    (e.solution t status).basis.rows[i]? = some (e.statusOf (t.columnCount + i)).opposite ∧
    (e.solution t status).rowValues[i]? = some (-e.valueOf (t.columnCount + i)) := by
  have hsize : t.columnCount + i < t.size := by
    unfold Job.size
    omega
  constructor
  · refine (getElem?_map_drop ..).trans ?_
    rw [getElem?_status h, if_pos hsize]
    rfl
  · refine (getElem?_map_drop ..).trans ?_
    rw [getElem?_value h, if_pos hsize]
    rfl

theorem size_basis_solution (status : SolveStatus) :
    (e.solution t status).basis.columns.size = t.columnCount ∧
    (e.solution t status).basis.rows.size = t.rowCount := by
  have hstatus : e.status.size = t.columnCount + t.rowCount := h.size_status
  constructor
  · show (e.status.take t.columnCount).size = _
    rw [← Array.length_toList, toList_take, List.length_take, Array.length_toList]
    omega
  · show ((e.status.drop t.columnCount).map VariableStatus.opposite).size = _
    rw [Array.size_map, ← Array.length_toList, toList_drop, List.length_drop,
      Array.length_toList]
    omega

end Reading

/-! ## The basis -/

/-- As many columns and rows are reported basic as there are rows. -/
theorem Sound.basicCount_solution (h : e.Sound t) :
    (e.solution t status).basis.basicCount = t.rowCount := by
  have hopposite : VariableStatus.isBasic ∘ VariableStatus.opposite = VariableStatus.isBasic :=
    funext VariableStatus.isBasic_opposite
  have hperm : (t.indices.filter fun j => (e.statusOf j).isBasic).Perm e.basicIndex.toList := by
    refine (List.perm_ext_iff_of_nodup (List.nodup_range.filter _) h.nodup).mpr fun j => ?_
    rw [List.mem_filter, List.mem_range]
    constructor
    · intro hj
      exact (h.mem_iff j hj.1).mpr (of_decide_eq_true hj.2)
    · intro hj
      exact ⟨h.lt j hj, decide_eq_true ((h.mem_iff j (h.lt j hj)).mp hj)⟩
  calc (e.solution t status).basis.basicCount
      = ((e.status.take t.columnCount).toList ++
          ((e.status.drop t.columnCount).map VariableStatus.opposite).toList).countP
            VariableStatus.isBasic := rfl
    _ = e.status.toList.countP VariableStatus.isBasic := by
        rw [toList_take, Array.toList_map, toList_drop, List.countP_append, List.countP_map,
          hopposite, ← List.countP_append, List.take_append_drop]
    _ = (t.indices.filter fun j => (e.statusOf j).isBasic).length := by
        rw [toList_status h.size_status, List.countP_map, ← List.countP_eq_length_filter]
        rfl
    _ = t.rowCount := by
        rw [hperm.length_eq, Array.length_toList, h.size_basicIndex]

/-- The basis lists the columns and the rows that are reported basic. -/
theorem Sound.mem_basicIndex_iff (h : e.Sound t) (v : Nat) : v ∈ (e.solution t status).basicIndex ↔
    (v < t.columnCount ∧ (e.solution t status).basis.columns[v]? = some .basic) ∨
    (t.columnCount ≤ v ∧
      (e.solution t status).basis.rows[v - t.columnCount]? = some .basic) := by
  have hmem : v ∈ (e.solution t status).basicIndex ↔ v < t.size ∧ e.statusOf v = .basic := by
    show v ∈ e.basicIndex ↔ _
    rw [← Array.mem_toList_iff]
    constructor
    · intro hv
      exact ⟨h.lt v hv, (h.mem_iff v (h.lt v hv)).mp hv⟩
    · intro hv
      exact (h.mem_iff v hv.1).mpr hv.2
  rw [hmem]
  by_cases hv : v < t.columnCount
  · rw [(columns_solution h.toShaped hv status).1, Option.some.injEq]
    have hsize : v < t.size := by
      unfold Job.size
      omega
    simp [hv, hsize, Nat.not_le.mpr hv]
  · obtain ⟨i, rfl⟩ : ∃ i, v = t.columnCount + i := ⟨v - t.columnCount, by omega⟩
    rw [Nat.add_sub_cancel_left]
    by_cases hi : i < t.rowCount
    · have hsize : t.columnCount + i < t.size := by
        unfold Job.size
        omega
      rw [(rows_solution h.toShaped hi status).1, Option.some.injEq,
        VariableStatus.opposite_eq_basic]
      simp [hsize]
    · have hnone : (e.solution t status).basis.rows[i]? = none := by
        refine Array.getElem?_eq_none ?_
        rw [(size_basis_solution h.toShaped status).2]
        omega
      rw [hnone]
      have hsize : ¬t.columnCount + i < t.size := by
        unfold Job.size
        omega
      simp [hsize]

/-! ## Bounds of the program -/

theorem boundsOf_eq_boundsAt (hbounds : e.bounds = t.bounds) (j : Nat) :
    e.boundsOf j = t.boundsAt j := by
  unfold boundsOf Job.boundsAt
  rw [hbounds]

section Bounds

variable (ht : t.WellFormed) (hbounds : e.bounds = t.bounds)

include ht hbounds

theorem boundsOf_column {j : Nat} (hj : j < t.columnCount) (d : Interval α) :
    e.boundsOf j = t.program.columnBounds.getD j d := by
  have hlt : j < t.program.columnBounds.size := ht.program.size_columnBounds.symm ▸ hj
  rw [boundsOf_eq_boundsAt hbounds, ht.boundsAt_column hlt, getD_eq_getElem hlt]

theorem boundsOf_row {i : Nat} (hi : i < t.rowCount) (d : Interval α) :
    e.boundsOf (t.columnCount + i) = (t.program.rowBounds.getD i d).neg := by
  have hlt : i < t.program.rowBounds.size := hi
  rw [boundsOf_eq_boundsAt hbounds, ht.boundsAt_row hlt, getD_eq_getElem hlt]

/-- The basis that is reported is one to start from. -/
theorem Sound.valid_basis [OrderedScalar α] (h : e.Sound t)
    (hmirror : ∀ b ∈ t.program.rowBounds, b.neg.neg = b) :
    (e.solution t status).basis.Valid t.program := by
  obtain ⟨hcolumns, hrows⟩ := size_basis_solution h.toShaped status
  refine ⟨hcolumns, hrows, h.basicCount_solution, fun j d => ?_, fun i d => ?_⟩
  · by_cases hj : j < t.columnCount
    · have hstatus : (e.solution t status).basis.columns.getD j .basic = e.statusOf j := by
        rw [Array.getD_eq_getD_getElem?, (columns_solution h.toShaped hj status).1]
        rfl
      rw [hstatus, ← boundsOf_column ht hbounds hj d]
      exact (h.rests j).allows
    · rw [getD_of_size_le (by omega) VariableStatus.basic]
      rfl
  · by_cases hi : i < t.rowCount
    · have hlt : i < t.program.rowBounds.size := hi
      have hback : (t.program.rowBounds.getD i d).neg.neg = t.program.rowBounds.getD i d := by
        rw [getD_eq_getElem hlt]
        exact hmirror _ (Array.getElem_mem hlt)
      have hstatus : (e.solution t status).basis.rows.getD i .basic =
          (e.statusOf (t.columnCount + i)).opposite := by
        rw [Array.getD_eq_getD_getElem?, (rows_solution h.toShaped hi status).1]
        rfl
      rw [hstatus, ← hback, ← boundsOf_row ht hbounds hi d]
      exact Interval.allows_neg (h.rests (t.columnCount + i)).allows
    · rw [getD_of_size_le (by omega) VariableStatus.basic]
      rfl

end Bounds

/-! ## Feasible values -/

theorem Feasible.congr {e' : Engine α} (h : e.Feasible t) (hsame : e'.standing = e.standing) :
    e'.Feasible t := by
  have hinfeasibilities : e'.infeasibilities t = e.infeasibilities t := by
    unfold infeasibilities
    rw [basicIndex_congr (setting_congr hsame)]
    refine congrArg (Array.map · e.basicIndex) (funext fun j => ?_)
    rw [boundsOf_congr (setting_congr hsame), valueOf_congr (value_congr hsame)]
  intro x hx
  rw [hinfeasibilities] at hx
  exact h x hx

/-- A basic variable of a feasible engine violates no bound by more than the
tolerance. -/
theorem Feasible.violation (h : e.Feasible t) (hplaced : e.Placed t) {j : Nat} (hj : j < t.size)
    (hbasic : e.statusOf j = .basic) :
    ((e.boundsOf j).violation t.parameters.primalTolerance (e.valueOf j) == 0) = true := by
  have hmem : j ∈ e.basicIndex := Array.mem_toList_iff.mp ((hplaced.mem_iff j hj).mpr hbasic)
  exact h _ (Array.mem_map_of_mem hmem)

section FeasibleSolution

variable (h : e.Feasible t) (hsound : e.Sound t) (ht : t.WellFormed)
  (hbounds : e.bounds = t.bounds) (status : SolveStatus)

include h hsound ht hbounds

end FeasibleSolution

end Engine

/-! ## Solves -/

section Solves

variable [OrderedScalar α] {d : Draft α} (hd : d.Canonical) {lp : LinearProgram α}
  (hbuild : d.build = .ok lp) {basis : Basis} {p : Parameters α} {budget : Nat} {s : Solution α}
  (hsolve : solveWithBasis budget lp basis p = .ok (some s))

include hd hbuild hsolve

/-- What a solution is read off is consistent, and on the program as it was given. -/
theorem exists_concluded : ∃ last, (Run.begin ⟨lp, p⟩ basis).outcome? ⟨lp, p⟩ budget =
      some (s.status, last) ∧
    s = (last.conclude ⟨lp, p⟩).solution ⟨lp, p⟩ s.status ∧
    (last.conclude ⟨lp, p⟩).Sound ⟨lp, p⟩ ∧ last.Proves ⟨lp, p⟩ s.status ∧
    (last.conclude ⟨lp, p⟩).ground = Job.ground ⟨lp, p⟩ .two last.dualRay last.primalRay ∧
    (last.conclude ⟨lp, p⟩).relaxed = [] ∧
    (last.conclude ⟨lp, p⟩).cost = Job.costs ⟨lp, p⟩ := by
  obtain ⟨hp, hbasis, last, houtcome, hs⟩ := exists_of_solve hsolve
  have ht := Job.wellFormed_of_build hd hbuild hp
  have hvalid : basis.Valid (Job.mk lp p).program := Basis.valid_of_validate ht.program hbasis
  obtain ⟨k, hstage, hlast⟩ := Run.exists_of_outcome houtcome
  have hsound := Run.sound_iterate_step ht hvalid k
  have hstands := Run.stands_iterate_step ht hvalid k
  unfold Run.Stands at hstands
  rw [hstage, hlast] at hstands
  rw [hlast] at hsound
  obtain ⟨⟨phase, dualRay, primalRay, hground⟩, hproves⟩ := hstands
  have hbounds : last.ground.bounds = Job.phaseBounds ⟨lp, p⟩ last.ground.phase := by
    rw [hground]
    rfl
  exact ⟨last, houtcome, hs, hsound.conclude ht, hproves, Engine.ground_conclude hbounds⟩

omit [OrderedScalar α] in
/-- The basis that is reported is one to start from. -/
theorem validate_basis_of_solve [MirroredScalar α] (hreflexive : d.Reflexive) :
    s.basis.validate lp = .ok () := by
  obtain ⟨last, -, hs, hsound, -, hground, hrelaxed, -⟩ := exists_concluded hd hbuild hsolve
  have ht := Job.wellFormed_of_build hd hbuild (exists_of_solve hsolve).1
  have hbounds : (last.conclude ⟨lp, p⟩).bounds = Job.bounds ⟨lp, p⟩ :=
    Engine.bounds_of_ground hground hrelaxed
  rw [hs]
  exact Basis.validate_of_valid
    (hsound.valid_basis ht hbounds (Draft.neg_neg_rowBounds hreflexive hbuild))

end Solves

theorem Draft.reflexive_triangle : Draft.triangle.Reflexive := by
  constructor
  · intro b hb
    obtain rfl : b = .negInf := Array.eq_of_mem_replicate hb
    rfl
  · intro b hb
    obtain rfl : b = .finite (3 : Nat) := Array.mem_singleton.mp hb
    exact congrArg Bound.finite (Exact.eq_iff.mpr ⟨neg_neg _, rfl⟩)

/-- The triangle with bounds that contradict each other. -/
def Draft.emptyTriangle : Draft (Exact 0) :=
  { Draft.triangle with rowUpper := #[.finite (-1)] }

end DualSimplex
