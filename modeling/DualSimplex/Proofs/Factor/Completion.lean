import DualSimplex.Proofs.Factor.FactoredBasis
import DualSimplex.Proofs.Factor.Reconstruction

/-!
# Completing a singular matrix

A factorization that has found dependent columns has pivots in all others.  With the unit
columns of the rows that were left over in the places of the dependent ones, the steps
that were taken and a pivot of one for each unit column are the elimination of the whole
matrix, which therefore is not singular.
-/

namespace DualSimplex

open Scalar Exact

/-- The columns with those at the positions of the pairs replaced by the unit columns of
the rows. -/
def replaceColumns {α : Type} [Scalar α] (columns : List (List (Nat × α)))
    (pairs : List (Nat × Nat)) : List (List (Nat × α)) :=
  columns.zipIdx.map fun (column, j) => ((pairs.lookup j).map fun i => [(i, 1)]).getD column

theorem getD_replaceColumns {α : Type} [Scalar α] {columns : List (List (Nat × α))} {j : Nat}
    (hj : j < columns.length) (pairs : List (Nat × Nat)) :
    (replaceColumns columns pairs).getD j [] =
      ((pairs.lookup j).map fun i => [(i, 1)]).getD (columns.getD j []) := by
  unfold replaceColumns
  rw [List.getD_eq_getElem?_getD, List.getD_eq_getElem?_getD, List.getElem?_map,
    List.getElem?_zipIdx, List.getElem?_eq_getElem hj, Nat.zero_add]
  rfl

/-! ## Pivots of one -/

section Units

variable {α : Type} [Scalar α]

/-- The step for a unit column. -/
def PivotStep.unit (t : Nat × Nat) : PivotStep α :=
  { row := t.2, column := t.1, value := 1, lowerColumn := [] }

/-- Rows and columns without a pivot may be paired in any way. -/
theorem PivotSequence.append_units {m : Nat} {steps : List (PivotStep α)}
    {upperColumns : Array (List (Nat × α))} (h : PivotSequence m steps upperColumns)
    (hupper : ∀ j, ∀ u ∈ upperColumns.getD j [], ∃ s ∈ steps, s.row = u.1)
    {pairs : List (Nat × Nat)} (hpositions : (pairs.map Prod.fst).Nodup)
    (hrows : (pairs.map Prod.snd).Nodup)
    (hposition : ∀ t ∈ pairs, t.1 < m ∧ ∀ s ∈ steps, s.column ≠ t.1)
    (hrow : ∀ t ∈ pairs, t.2 < m ∧ ∀ s ∈ steps, s.row ≠ t.2) :
    PivotSequence m (steps ++ pairs.map PivotStep.unit) upperColumns := by
  induction pairs generalizing steps with
  | nil =>
    rw [List.map_nil, List.append_nil]
    exact h
  | cons t pairs ih =>
    rw [List.map_cons, List.nodup_cons] at hpositions hrows
    have hnone : DistinctKeys ([] : List (Nat × α)) := distinctKeys_nil
    have hstep : PivotSequence m (steps ++ [PivotStep.unit t]) upperColumns :=
      h.append (s := PivotStep.unit t) (hrow t List.mem_cons_self)
        (hposition t List.mem_cons_self) hnone nofun hnone nofun hupper
    have hnew : ∀ s ∈ steps ++ [PivotStep.unit t], s ∈ steps ∨ s = PivotStep.unit t := by
      intro s hs
      exact (List.mem_append.mp hs).imp_right List.mem_singleton.mp
    rw [List.map_cons, List.append_cons]
    refine ih hstep (fun j u hu => ?_) hpositions.2 hrows.2 (fun u hu => ?_) fun u hu => ?_
    · obtain ⟨s, hs, he⟩ := hupper j u hu
      exact ⟨s, List.mem_append_left _ hs, he⟩
    · obtain ⟨hlt, hopen⟩ := hposition u (List.mem_cons_of_mem t hu)
      refine ⟨hlt, fun s hs => ?_⟩
      rcases hnew s hs with hs | rfl
      · exact hopen s hs
      · rintro (he : t.1 = u.1)
        exact hpositions.1 (he ▸ List.mem_map_of_mem hu)
    · obtain ⟨hlt, hopen⟩ := hrow u (List.mem_cons_of_mem t hu)
      refine ⟨hlt, fun s hs => ?_⟩
      rcases hnew s hs with hs | rfl
      · exact hopen s hs
      · rintro (he : t.2 = u.2)
        exact hrows.1 (he ▸ List.mem_map_of_mem hu)

end Units

namespace Factoring

variable {α : Type} [Scalar α]

/-! ## When a factorization ends -/

section Ends

variable (rule : PivotSearch α)

/-- Turns that are left over when all columns are decided on change nothing. -/
theorem run_add {turns : Nat} {f : Factoring α} (hdone : (run rule turns f).active.m ≤
    (run rule turns f).steps.length + (run rule turns f).dependent.length) (more : Nat) :
    run rule (turns + more) f = run rule turns f := by
  induction turns generalizing f with
  | zero =>
    rw [Nat.zero_add]
    cases more with
    | zero => rfl
    | succ more =>
      rw [run]
      exact if_pos hdone
  | succ turns ih =>
    rw [Nat.succ_add, run, run]
    rw [run] at hdone
    by_cases hstop : f.active.m ≤ f.steps.length + f.dependent.length
    · rw [if_pos hstop, if_pos hstop]
    · rw [if_neg hstop] at hdone ⊢
      rw [if_neg hstop]
      cases hchoose : rule.choose f.active with
      | pivot p =>
        rw [hchoose] at hdone
        exact ih hdone
      | emptyColumn j =>
        rw [hchoose] at hdone
        exact ih hdone
      | exhausted => rfl

variable {columns : List (List (Nat × α))} (hcolumns : SquareColumns columns)

include hcolumns

theorem decided_run :
    (run rule columns.length (start columns)).Decided columns.length :=
  (run_start rule hcolumns (P := fun _ => True) trivial (fun _ _ _ _ _ => trivial)
    fun _ _ _ _ => trivial).1

/-- As many turns as columns are always enough. -/
theorem run_eq_of_le {turns : Nat} (hturns : columns.length ≤ turns) :
    run rule turns (start columns) = run rule columns.length (start columns) := by
  have hdecided := decided_run rule hcolumns
  obtain ⟨more, rfl⟩ := Nat.exists_eq_add_of_le hturns
  refine run_add rule ?_ more
  rw [hdecided.length_add, hdecided.m_eq]

end Ends

/-- The upper factor without the columns that are dependent. -/
def keptUpper (f : Factoring α) : Array (List (Nat × α)) :=
  ((List.range f.active.m).map fun j =>
    if j ∈ f.dependent then [] else f.upperColumns.getD j []).toArray

variable {f : Factoring α} {m : Nat}

omit [Scalar α] in
theorem Sound.getD_keptUpper (h : f.Sound m) (j : Nat) : f.keptUpper.getD j [] =
    if j ∈ f.dependent then [] else f.upperColumns.getD j [] := by
  unfold keptUpper
  rw [getD_toArray, List.getD_eq_getElem?_getD, List.getElem?_map]
  by_cases hj : j < f.active.m
  · rw [List.getElem?_range hj]
    rfl
  · have hsize : f.upperColumns.size ≤ j := by
      rw [h.size_upper, ← h.m_eq]
      exact Nat.le_of_not_lt hj
    rw [List.getElem?_eq_none (by rw [List.length_range]; omega), getD_of_size_le hsize, ite_self]
    rfl

omit [Scalar α] in
theorem Sound.mem_keptUpper (h : f.Sound m) {j : Nat} {t : Nat × α}
    (ht : t ∈ f.keptUpper.getD j []) : t ∈ f.upperColumns.getD j [] ∧ j ∉ f.dependent := by
  rw [h.getD_keptUpper] at ht
  split at ht
  · exact absurd ht List.not_mem_nil
  · rename_i hj
    exact ⟨ht, hj⟩

/-- The elimination of the matrix with unit columns in the places of the dependent ones. -/
def completed (f : Factoring α) : List (PivotStep α) :=
  f.steps ++ f.pairs.map PivotStep.unit

theorem Decided.length_completed (h : f.Decided m) : f.completed.length = m := by
  have hpairs : f.pairs.length = f.dependent.length := by
    have hpositions := congrArg List.length (map_pairs h).1
    rw [List.length_map, (List.mergeSort_perm ..).length_eq] at hpositions
    exact hpositions
  rw [completed, List.length_append, List.length_map, hpairs]
  exact h.length_add

/-- Pivots and pairs make up a complete elimination. -/
theorem Decided.complete (h : f.Decided m)
    (hupper : ∀ j, ∀ t ∈ f.upperColumns.getD j [], ∃ s ∈ f.steps, s.row = t.1) :
    CompleteElimination f.completed f.keptUpper := by
  have hkept : PivotSequence m f.steps f.keptUpper :=
    { h.sequence with
      upper_keys := by
        intro j
        rw [h.getD_keptUpper]
        split
        · exact distinctKeys_nil
        · exact h.sequence.upper_keys j
      upper_earlier := fun k hk t ht =>
        h.sequence.upper_earlier k hk t (h.mem_keptUpper ht).1 }
  obtain ⟨hpositions, hrows⟩ := map_pairs h
  have hdistinct : (f.pairs.map Prod.fst).Nodup :=
    hpositions ▸ (List.mergeSort_perm ..).nodup_iff.mpr h.dependent_nodup
  have hunits := hkept.append_units (fun j t ht => hupper j t (h.mem_keptUpper ht).1) hdistinct
    (hrows ▸ List.nodup_range.filter _)
    (fun t ht => (mem_fst_pairs h).mp (List.mem_map_of_mem ht))
    fun t ht => (mem_snd_pairs h).mp (List.mem_map_of_mem ht)
  have hlength := h.length_completed
  unfold completed at hlength
  unfold CompleteElimination completed
  rw [hlength]
  exact hunits

end Factoring

/-! ## Exact values -/

namespace Factoring

variable {columns : List (List (Nat × Exact 0))} {tolerance : Exact 0} {f : Factoring (Exact 0)}

/-- What has been decided on all columns accounts for those with a pivot. -/
structure Explained (columns : List (List (Nat × Exact 0))) (tolerance : Exact 0)
    (f : Factoring (Exact 0)) : Prop extends f.Decided columns.length where
  upper_rows : ∀ j, ∀ t ∈ f.upperColumns.getD j [], ∃ s ∈ f.steps, s.row = t.1
  large : ∀ s ∈ f.steps, tolerance.value ≤ |s.value.value|
  product_eq : ∀ i j, i < columns.length → j < columns.length → j ∉ f.dependent →
    coefficient (columns.getD j []) i = f.product i j

/-- The columns that have not been given up are what the steps and the rest make up. -/
def AccountsForOpen (columns : List (List (Nat × Exact 0))) (f : Factoring (Exact 0)) : Prop :=
  ∀ i j, i < columns.length → j < columns.length → j ∉ f.dependent →
    coefficient (columns.getD j []) i = f.product i j + f.active.entry i j

theorem Invariant.accountsForOpen_take (h : f.Invariant columns.length)
    (htolerance : 0 < tolerance.value) (hf : AccountsForOpen columns f) {p : Pivot (Exact 0)}
    (hp : (p.row, p.value) ∈ f.active.column p.column ∧ tolerance ≤ magnitude p.value) :
    AccountsForOpen columns (f.take p) := by
  have hne : p.value.value ≠ 0 := by
    intro hzero
    have hlarge : tolerance.value ≤ |p.value.value| := (abs_eq p.value.value) ▸ hp.2
    rw [hzero, abs_zero] at hlarge
    exact absurd htolerance (not_lt.mpr hlarge)
  intro i j hi hj hopen
  rw [dependent_take] at hopen
  rw [h.product_take hp.1 hne hj]
  exact hf i j hi hj hopen

theorem Invariant.accountsForOpen_giveUp (h : f.Invariant columns.length)
    (hf : AccountsForOpen columns f) (k : Nat) : AccountsForOpen columns
      { f with active := f.active.giveUp k, dependent := f.dependent ++ [k] } := by
  intro i j hi hj hopen
  rw [List.mem_append, List.mem_singleton, not_or] at hopen
  obtain ⟨hactive, hmem⟩ := h.active.giveUp k
  have hentry : (f.active.giveUp k).entry i j = f.active.entry i j :=
    hactive.entry_congr h.active fun x => (hmem j (i, x)).trans (and_iff_left hopen.2)
  show _ = f.product i j + (f.active.giveUp k).entry i j
  rw [hentry]
  exact hf i j hi hj hopen.1

/-- Whether or not columns are dependent, the others are accounted for in the end. -/
theorem explained_run (hcolumns : SquareColumns columns) (rule : PivotSearch (Exact 0))
    (htolerance : 0 < rule.tolerance.value) :
    Explained columns rule.tolerance (run rule columns.length (start columns)) := by
  obtain ⟨hdecided, g, hg, ⟨haccounts, hexactly⟩, he⟩ := run_start rule hcolumns
    (P := fun f => AccountsForOpen columns f ∧ Exactly columns rule.tolerance f)
    ⟨fun i j hi hj _ => accounts_start hcolumns i j hi hj, fun _ => accounts_start hcolumns,
      fun s hs => absurd hs List.not_mem_nil⟩
    (fun f p hf hP hp =>
      have hlarge := (rule.accepts_iff.mp hp.2).1
      ⟨hf.accountsForOpen_take htolerance hP.1 ⟨hp.1, hlarge⟩,
        hf.exactly_take htolerance hP.2 ⟨hp.1, hlarge⟩⟩)
    fun f j hf hP => ⟨hf.accountsForOpen_giveUp hP.1 j,
      fun hnil => absurd hnil (by simp), hP.2.2⟩
  have hsteps : (run rule columns.length (start columns)).steps = g.steps := by
    rcases he with he | he
    · rw [he]
    · rw [he]
      rfl
  have hupper : (run rule columns.length (start columns)).upperColumns = g.upperColumns := by
    rcases he with he | he
    · rw [he]
    · rw [he]
      rfl
  have hdependent : ∀ j ∈ g.dependent,
      j ∈ (run rule columns.length (start columns)).dependent := by
    intro j hj
    rcases he with he | he
    · rw [he]
      exact hj
    · rw [he]
      exact List.mem_append_left _ hj
  refine { hdecided with upper_rows := ?_, large := ?_, product_eq := fun i j hi hj hopen => ?_ }
  · rw [hsteps, hupper]
    exact hg.upper_rows
  · rw [hsteps]
    exact hexactly.2
  · have hempty : g.active.entry i j = 0 := by
      obtain ⟨s, hs, hcolumn⟩ := (hdecided.decided j hj).resolve_right hopen
      rw [hsteps] at hs
      exact Active.entry_eq_zero fun x hx => (hg.pivoted s hs _ _ hx).2 hcolumn.symm
    have hproduct : (run rule columns.length (start columns)).product i j = g.product i j := by
      unfold product
      rw [hsteps, hupper]
    rw [hproduct, haccounts i j hi hj fun hmem => hopen (hdependent j hmem), hempty, add_zero]

namespace Explained

variable (h : Explained columns tolerance f)

include h

/-- The steps account for the columns that stay. -/
theorem sum_term_steps (i : Nat) {j : Nat} (hi : i < columns.length) (hj : j < columns.length) :
    (f.steps.map (term f.keptUpper i j)).sum =
      if j ∈ f.dependent then 0 else coefficient (columns.getD j []) i := by
  have hupper := h.getD_keptUpper j
  by_cases hdependent : j ∈ f.dependent
  · rw [if_pos hdependent] at hupper ⊢
    refine List.sum_eq_zero fun x hx => ?_
    obtain ⟨s, hs, rfl⟩ := List.mem_map.mp hx
    have hcolumn : ¬j = s.column := fun he => h.dependent_open j hdependent s hs he.symm
    rw [term, hupper, coefficient_nil, if_neg hcolumn, add_zero, mul_zero]
  · rw [if_neg hdependent] at hupper ⊢
    rw [h.product_eq i j hi hj hdependent, product]
    refine congrArg List.sum (List.map_congr_left fun s _ => ?_)
    rw [term, term, hupper]

/-- The pivots of one account for the unit columns. -/
theorem sum_term_units (i j : Nat) :
    (f.pairs.map fun t => term f.keptUpper i j (PivotStep.unit t)).sum =
      coefficient (f.pairs.map fun t => (t.1, if i = t.2 then (1 : Exact 0) else 0)) j := by
  rw [coefficient, List.map_map]
  refine congrArg List.sum (List.map_congr_left fun t ht => ?_)
  have hopen := ((mem_snd_pairs h.toDecided).mp (List.mem_map_of_mem (f := Prod.snd) ht)).2
  have hnone : coefficient (f.keptUpper.getD j []) t.2 = 0 := by
    refine coefficient_of_notMem fun u hu he => ?_
    obtain ⟨s, hs, hrow⟩ := h.upper_rows j u (h.mem_keptUpper hu).1
    exact hopen s hs (hrow.trans he)
  show ((if i = t.2 then 1 else 0) + coefficient [] i) *
    ((if j = t.1 then (1 : Exact 0).value else 0) + coefficient (f.keptUpper.getD j []) t.2) =
      if t.1 = j then (if i = t.2 then (1 : Exact 0) else 0).value else 0
  rw [hnone, coefficient_nil, add_zero, add_zero]
  by_cases hj : t.1 = j
  · rw [if_pos hj.symm, if_pos hj]
    by_cases hi : i = t.2
    · rw [if_pos hi, if_pos hi]
      exact one_mul _
    · rw [if_neg hi, if_neg hi]
      exact zero_mul _
  · have hj' : ¬j = t.1 := fun he => hj he.symm
    rw [if_neg hj, if_neg hj', mul_zero]

/-- All steps together make up the matrix with the unit columns in it. -/
theorem sum_term_completed {i j : Nat} (hi : i < columns.length) (hj : j < columns.length) :
    (f.completed.map (term f.keptUpper i j)).sum =
      coefficient ((replaceColumns columns f.pairs).getD j []) i := by
  have hkeys : DistinctKeys f.pairs := by
    unfold DistinctKeys
    rw [(map_pairs h.toDecided).1]
    exact (List.mergeSort_perm ..).nodup_iff.mpr h.dependent_nodup
  have hdependent : j ∈ f.dependent ↔ j ∈ f.pairs.map Prod.fst := by
    rw [(map_pairs h.toDecided).1, (List.mergeSort_perm ..).mem_iff]
  rw [completed, List.map_append, List.sum_append, h.sum_term_steps i hi hj, List.map_map,
    getD_replaceColumns hj]
  refine (congrArg _ (h.sum_term_units i j)).trans ?_
  cases hlookup : f.pairs.lookup j with
  | some r =>
    have hmem : (j, r) ∈ f.pairs := (lookup_eq_some_iff hkeys).mp hlookup
    have hkeys' : DistinctKeys
        (f.pairs.map fun t => (t.1, if i = t.2 then (1 : Exact 0) else 0)) := by
      unfold DistinctKeys
      rw [List.map_map]
      exact hkeys
    rw [if_pos (hdependent.mpr (List.mem_map_of_mem hmem)), zero_add,
      coefficient_of_mem hkeys' (List.mem_map.mpr ⟨(j, r), hmem, rfl⟩)]
    show (if i = r then (1 : Exact 0) else 0).value = coefficient [(r, (1 : Exact 0))] i
    rw [coefficient_cons, coefficient_nil, add_zero]
    by_cases hr : i = r
    · rw [if_pos hr, if_pos hr.symm]
    · rw [if_neg hr, if_neg fun he => hr he.symm]
      rfl
  | none =>
    have hout : j ∉ f.pairs.map Prod.fst := by
      intro hmem
      obtain ⟨t, ht, rfl⟩ := List.mem_map.mp hmem
      exact lookup_eq_none_iff'.mp hlookup t.2 ht
    have hnone : coefficient
        (f.pairs.map fun t => (t.1, if i = t.2 then (1 : Exact 0) else 0)) j = 0 := by
      refine coefficient_of_notMem fun u hu he => ?_
      obtain ⟨t, ht, rfl⟩ := List.mem_map.mp hu
      exact hout (he ▸ List.mem_map_of_mem (f := Prod.fst) ht)
    rw [if_neg fun hmem => hout (hdependent.mp hmem), hnone, add_zero]
    rfl

theorem eq_zero_of_sum_eq_zero (htolerance : 0 < tolerance.value) {x : Nat → ℚ}
    (hx : ∀ i, i < columns.length → ∑ j ∈ Finset.range columns.length,
      coefficient ((replaceColumns columns f.pairs).getD j []) i * x j = 0)
    {j : Nat} (hj : j < columns.length) : x j = 0 := by
  have hcomplete := h.complete h.upper_rows
  have hlength := h.length_completed
  have hvalue : ∀ s ∈ f.completed, s.value.value ≠ 0 := by
    intro s hs hzero
    rcases List.mem_append.mp hs with hs | hs
    · have hlarge := h.large s hs
      rw [hzero, abs_zero] at hlarge
      exact absurd htolerance (not_lt.mpr hlarge)
    · obtain ⟨t, -, rfl⟩ := List.mem_map.mp hs
      exact one_ne_zero hzero
  have hm : (LU.ofSteps f.completed f.keptUpper).m = columns.length := hlength
  refine (LU.solvable_ofSteps hcomplete hvalue).eq_zero_of_sum_eq_zero (fun i hi => ?_)
    (hm.symm ▸ hj)
  rw [hm] at hi ⊢
  refine Eq.trans (Finset.sum_congr rfl fun k hk => ?_) (hx i hi)
  have hk := Finset.mem_range.mp hk
  rw [LU.matrixAt_ofSteps hcomplete hvalue (hlength.symm ▸ hi) (hlength.symm ▸ hk),
    h.sum_term_completed hi hk]

end Explained
end Factoring

namespace LU

/-- Factoring always comes to an end.  If it ends with pairs of positions and rows, these
are all positions and all rows without a pivot, and a column with entries in such a row
alone is at such a position.  With exact numbers the unit columns of the rows can take the
places at the positions: what they make of the matrix is not singular. -/
theorem dependent_columns_replaceable :
    (∀ (α : Type) [Scalar α] (columns : List (List (Nat × α))) (threshold tolerance : α),
      SquareColumns columns →
      let rule : PivotSearch α := ⟨threshold, tolerance, Factoring.lineLimit⟩
      let f := Factoring.run rule columns.length (Factoring.start columns)
      f.steps.length + f.dependent.length = columns.length ∧
      (∀ turns, columns.length ≤ turns →
        Factoring.run rule turns (Factoring.start columns) = f) ∧
      ∀ pairs, factor columns threshold tolerance = .error pairs →
        (pairs.map Prod.fst).Nodup ∧ (pairs.map Prod.snd).Nodup ∧
        (∀ j, j ∈ pairs.map Prod.fst ↔ j < columns.length ∧ ∀ s ∈ f.steps, s.column ≠ j) ∧
        (∀ i, i ∈ pairs.map Prod.snd ↔ i < columns.length ∧ ∀ s ∈ f.steps, s.row ≠ i) ∧
        f.steps.length + pairs.length = columns.length ∧
        ∀ t ∈ pairs, ∀ j, j < columns.length → (∀ u ∈ columns.getD j [], u.1 = t.2) →
          j ∈ pairs.map Prod.fst) ∧
    ∀ (columns : List (List (Nat × Exact 0))) (threshold tolerance : Exact 0),
      SquareColumns columns → 0 < tolerance.value →
      ∀ pairs, factor columns threshold tolerance = .error pairs → ∀ x : Nat → ℚ,
        (∀ i, i < columns.length → ∑ j ∈ Finset.range columns.length,
          coefficient ((replaceColumns columns pairs).getD j []) i * x j = 0) →
        ∀ j, j < columns.length → x j = 0 := by
  refine ⟨?_, ?_⟩
  · intro α _ columns threshold tolerance hcolumns rule f
    have hdecided := Factoring.decided_run rule hcolumns
    refine ⟨hdecided.length_add, fun turns => Factoring.run_eq_of_le rule hcolumns,
      fun pairs hpairs => ?_⟩
    have hspares := spares_of_factor hcolumns hpairs
    have heq : pairs = f.pairs := eq_pairs_of_factor hpairs
    have hlength := hdecided.length_completed
    rw [Factoring.completed, List.length_append, List.length_map] at hlength
    refine ⟨hspares.positions_nodup, hspares.rows_nodup, fun j => ?_, fun i => ?_, ?_,
      hspares.position_mem⟩
    · rw [heq]
      exact Factoring.mem_fst_pairs hdecided
    · rw [heq]
      exact Factoring.mem_snd_pairs hdecided
    · rw [heq]
      exact hlength
  · intro columns threshold tolerance hcolumns htolerance pairs hpairs x hx j hj
    have hexplained := Factoring.explained_run hcolumns
      ⟨threshold, tolerance, Factoring.lineLimit⟩ htolerance
    rw [eq_pairs_of_factor hpairs] at hx
    exact hexplained.eq_zero_of_sum_eq_zero htolerance hx hj

/-- Two columns lie in the first row, and the only entry in the last row is too small to
pivot on. -/
def crowded : List (List (Nat × Exact 0)) :=
  [[(0, 1)], [(0, ofRat 2)], [(0, 1), (1, 1), (2, 1)], [(3, ofRat (1 / 10000))]]

/-- Two columns are given up, one when nothing is left of it and the unit column at the end. -/
theorem dependent_columns_replaceable_crowded : ∃ pairs,
    factor crowded (ofRat (1 / 10)) (ofRat (1 / 1000)) = .error pairs ∧ pairs.length = 2 ∧
    3 ∈ pairs.map Prod.fst ∧ ∀ x : Nat → ℚ, (∀ i, i < 4 → ∑ j ∈ Finset.range 4,
      coefficient ((replaceColumns crowded pairs).getD j []) i * x j = 0) →
      ∀ j, j < 4 → x j = 0 := by
  have hsquare : SquareColumns crowded := ⟨by simp [crowded, DistinctKeys], by decide⟩
  have hsteps : (Factoring.run ⟨ofRat (1 / 10), ofRat (1 / 1000), Factoring.lineLimit⟩
      crowded.length (Factoring.start crowded)).steps.map PivotStep.column = [0, 2] := by
    decide +kernel
  have herror : (factor crowded (ofRat (1 / 10)) (ofRat (1 / 1000))).toOption.isNone = true := by
    decide +kernel
  obtain ⟨hgeneral, hexact⟩ := dependent_columns_replaceable
  cases h : factor crowded (ofRat (1 / 10)) (ofRat (1 / 1000)) with
  | ok factors =>
    rw [h] at herror
    exact absurd herror Bool.false_ne_true
  | error pairs =>
    obtain ⟨-, -, hpairs⟩ := hgeneral _ crowded (ofRat (1 / 10)) (ofRat (1 / 1000)) hsquare
    obtain ⟨-, -, hpositions, -, hlength, -⟩ := hpairs pairs h
    refine ⟨pairs, rfl, ?_, (hpositions 3).mpr ⟨by decide, fun s hs he => ?_⟩,
      hexact crowded _ _ hsquare (by norm_num) pairs h⟩
    · have htwo := congrArg List.length hsteps
      rw [List.length_map] at htwo
      rw [htwo] at hlength
      exact Nat.add_left_cancel hlength
    · have hmem := List.mem_map_of_mem (f := PivotStep.column) hs
      rw [hsteps, he] at hmem
      exact absurd hmem (by decide)

end LU
end DualSimplex
