import Mathlib.Algebra.Order.Field.Basic
import DualSimplex.Proofs.Factor.FactoredBasis
import DualSimplex.Proofs.Factor.UpToDate

/-!
# Factorizations under way

After every pivot and after every column that is given up, the active submatrix holds
entries of open rows and columns only, and its copies, counts and maxima agree.  Since the
maxima are right, a pivot is as large within its column as the search asks for, and this
bounds the multipliers of the lower factor.
-/

namespace DualSimplex

open Scalar

variable {α : Type} [Scalar α]

/-- A step of which the pivot has been accepted in some column, and which has divided the rest
of that column by it. -/
structure PivotSearch.Accepted (rule : PivotSearch α) (s : PivotStep α)
    (line : List (Nat × α)) : Prop where
  pivot : (s.row, s.value) ∈ line
  accepts : rule.accepts s.value (Active.largest line) = true
  multiplier : ∀ t ∈ s.lowerColumn, ∃ x, (t.1, x) ∈ line ∧ t.2 = x / s.value

namespace Factoring

/-- A column that has neither been pivoted on nor given up. -/
def ColumnOpen (f : Factoring α) (m j : Nat) : Prop :=
  j < m ∧ (∀ s ∈ f.steps, s.column ≠ j) ∧ j ∉ f.dependent

/-- A row that has not been pivoted on. -/
def RowOpen (f : Factoring α) (m i : Nat) : Prop :=
  i < m ∧ ∀ s ∈ f.steps, s.row ≠ i

/-- The states that a factorization goes through. -/
inductive Underway (rule : PivotSearch α) (columns : List (List (Nat × α))) :
    Factoring α → Prop
  | start : Underway rule columns (start columns)
  | take {f : Factoring α} {p : Pivot α} (h : Underway rule columns f)
      (hchoose : rule.choose f.active = .pivot p) : Underway rule columns (f.take p)
  | giveUp {f : Factoring α} {j : Nat} (h : Underway rule columns f)
      (hchoose : rule.choose f.active = .emptyColumn j) :
      Underway rule columns
        { f with active := f.active.giveUp j, dependent := f.dependent ++ [j] }

variable {rule : PivotSearch α} {columns : List (List (Nat × α))} {f : Factoring α} {m : Nat}

/-- A run ends in such a state, or with what is left of one when no entry is eligible. -/
theorem underway_run (rule : PivotSearch α) (columns : List (List (Nat × α))) (turns : Nat) :
    Underway rule columns (run rule turns (start columns)) ∨
    ∃ g, Underway rule columns g ∧ run rule turns (start columns) = g.exhaust := by
  rcases run_induction rule (P := Underway rule columns) (fun _ _ => .take) (fun _ _ => .giveUp)
    turns (f := start columns) .start with ⟨h, -⟩ | ⟨g, hg, -, he⟩
  · exact Or.inl h
  · exact Or.inr ⟨g, hg, he⟩

theorem underway_of_dependent_eq_nil {turns : Nat}
    (h : (run rule turns (start columns)).dependent = []) :
    Underway rule columns (run rule turns (start columns)) := by
  rcases underway_run rule columns turns with hrun | ⟨g, hg, he⟩
  · exact hrun
  · rw [he] at h ⊢
    rw [exhaust_eq_self h]
    exact hg

/-! ## What holds in every state -/

theorem steps_giveUp_columnOpen (j k : Nat) :
    ({ f with active := f.active.giveUp j, dependent := f.dependent ++ [j] } :
      Factoring α).ColumnOpen m k ↔ f.ColumnOpen m k ∧ k ≠ j := by
  rw [ColumnOpen, ColumnOpen, List.mem_append, List.mem_singleton, not_or, and_assoc, and_assoc]

theorem columnOpen_take (p : Pivot α) (j : Nat) :
    (f.take p).ColumnOpen m j ↔ f.ColumnOpen m j ∧ j ≠ p.column := by
  simp only [ColumnOpen, steps_take, dependent_take, List.mem_append, List.mem_singleton, or_imp,
    forall_and, forall_eq]
  constructor
  · rintro ⟨hlt, ⟨hsteps, hne⟩, hdependent⟩
    exact ⟨⟨hlt, hsteps, hdependent⟩, hne.symm⟩
  · rintro ⟨⟨hlt, hsteps, hdependent⟩, hne⟩
    exact ⟨hlt, ⟨hsteps, hne.symm⟩, hdependent⟩

theorem rowOpen_take (p : Pivot α) (i : Nat) :
    (f.take p).RowOpen m i ↔ f.RowOpen m i ∧ i ≠ p.row := by
  simp only [RowOpen, steps_take, List.mem_append, List.mem_singleton, or_imp, forall_and,
    forall_eq]
  constructor
  · rintro ⟨hlt, hsteps, hne⟩
    exact ⟨⟨hlt, hsteps⟩, hne.symm⟩
  · rintro ⟨⟨hlt, hsteps⟩, hne⟩
    exact ⟨hlt, hsteps, hne.symm⟩

omit [Scalar α] in
theorem Invariant.isOpen_of_mem (h : f.Invariant m) {i j : Nat} {x : α}
    (hx : (i, x) ∈ f.active.column j) : f.ColumnOpen m j ∧ f.RowOpen m i :=
  ⟨⟨h.active.column_lt hx, fun s hs e => (h.pivoted s hs _ _ hx).2 e.symm,
      fun hj => h.given_up j hj _ hx⟩,
    h.active.row_lt hx, fun s hs e => (h.pivoted s hs _ _ hx).1 e.symm⟩

/-- The invariant, with what is known of the open lines and of the pivots. -/
structure Surveyed (rule : PivotSearch α) (f : Factoring α) (m : Nat) : Prop
    extends f.Invariant m where
  upToDate : f.active.UpToDate m (f.ColumnOpen m) (f.RowOpen m)
  accepted : ∀ s ∈ f.steps, ∃ line, rule.Accepted s line

theorem surveyed_start (h : SquareColumns columns) :
    Surveyed rule (start columns) columns.length := by
  refine ⟨invariant_start h, ?_, fun s hs => absurd hs List.not_mem_nil⟩
  obtain ⟨hsize, hpeak, hcolumns, hrows⟩ := Active.upToDate_ofColumns h
  have hcolumn : ∀ j, (start columns).ColumnOpen columns.length j ↔ j < columns.length :=
    fun j => ⟨And.left, fun hj => ⟨hj, fun s hs => absurd hs List.not_mem_nil, List.not_mem_nil⟩⟩
  have hrow : ∀ i, (start columns).RowOpen columns.length i ↔ i < columns.length :=
    fun i => ⟨And.left, fun hi => ⟨hi, fun s hs => absurd hs List.not_mem_nil⟩⟩
  exact ⟨hsize, fun j hj => hpeak j hj.1, hcolumns.congr hcolumn fun _ _ => rfl,
    hrows.congr hrow fun _ _ => rfl⟩

theorem Surveyed.take (h : Surveyed rule f m) {p : Pivot α}
    (hchoose : rule.choose f.active = .pivot p) : Surveyed rule (f.take p) m := by
  obtain ⟨hp, haccepts⟩ := rule.eligible_of_choose h.active hchoose
  obtain ⟨hsize, hpeak, hcolumns, hrows⟩ := h.upToDate.eliminate h.active
    (fun _ _ _ hx => h.isOpen_of_mem hx) p.row p.column p.value
  refine ⟨h.toInvariant.of_choose_pivot hchoose, ⟨hsize, fun j hj => ?_, ?_, ?_⟩, fun s hs => ?_⟩
  · exact hpeak j ((columnOpen_take p j).mp hj)
  · exact hcolumns.congr (columnOpen_take p) fun _ _ => rfl
  · exact hrows.congr (rowOpen_take p) fun _ _ => rfl
  · rw [steps_take] at hs
    rcases List.mem_append.mp hs with hs | hs
    · exact h.accepted s hs
    · rw [List.mem_singleton.mp hs]
      refine ⟨f.active.column p.column, hp, ?_, fun t ht => ?_⟩
      · rw [← h.upToDate.peak p.column (h.isOpen_of_mem hp).1]
        exact haccepts
      · exact (((h.active.lowerColumn_spec p.row p.column p.value).2 t.1 t.2).mp ht).2

theorem Surveyed.giveUp (h : Surveyed rule f m) {j : Nat}
    (hchoose : rule.choose f.active = .emptyColumn j) :
    Surveyed rule { f with active := f.active.giveUp j, dependent := f.dependent ++ [j] } m := by
  obtain ⟨hsize, hpeak, hcolumns, hrows⟩ := h.upToDate.giveUp h.active
    (fun _ _ _ hx => h.isOpen_of_mem hx) j
  refine ⟨h.toInvariant.giveUp (rule.first_of_choose hchoose), ⟨hsize, fun k hk => ?_, ?_, hrows⟩,
    h.accepted⟩
  · exact hpeak k ((steps_giveUp_columnOpen j k).mp hk)
  · exact hcolumns.congr (steps_giveUp_columnOpen j) fun _ _ => rfl

theorem Underway.surveyed (hcolumns : SquareColumns columns) (h : Underway rule columns f) :
    Surveyed rule f columns.length := by
  induction h with
  | start => exact surveyed_start hcolumns
  | take _ hchoose ih => exact ih.take hchoose
  | giveUp _ hchoose ih => exact ih.giveUp hchoose

/-- The copies of the submatrix agree and hold nothing but what is open, its maxima are those
of the open columns, and its counts are those of the open lines. -/
structure Coherent (f : Factoring α) (m : Nat) : Prop where
  column_keys : ∀ j, DistinctKeys (f.active.column j)
  row_nodup : ∀ i, (f.active.row i).Nodup
  mem_row : ∀ i j, j ∈ f.active.row i ↔ ∃ x, (i, x) ∈ f.active.column j
  isOpen_of_mem : ∀ i j x, (i, x) ∈ f.active.column j → f.RowOpen m i ∧ f.ColumnOpen m j
  peak : ∀ j, f.ColumnOpen m j →
    f.active.columnPeaks.getD j 0 = Active.largest (f.active.column j)
  countedColumns_nodup : ∀ c, (f.active.columnsByCount.items c).Nodup
  mem_countedColumns : ∀ c j, j ∈ f.active.columnsByCount.items c ↔
    f.ColumnOpen m j ∧ (f.active.column j).length = c
  countedRows_nodup : ∀ c, (f.active.rowsByCount.items c).Nodup
  mem_countedRows : ∀ c i, i ∈ f.active.rowsByCount.items c ↔
    f.RowOpen m i ∧ (f.active.row i).length = c

theorem Surveyed.coherent (h : Surveyed rule f m) : f.Coherent m where
  column_keys := h.active.column_keys
  row_nodup := h.active.row_nodup
  mem_row := h.active.mem_row
  isOpen_of_mem _ _ _ hx := (h.isOpen_of_mem hx).symm
  peak := h.upToDate.peak
  countedColumns_nodup := h.upToDate.columns.items_nodup
  mem_countedColumns _ _ := h.upToDate.columns.mem_items_iff
  countedRows_nodup := h.upToDate.rows.items_nodup
  mem_countedRows _ _ := h.upToDate.rows.mem_items_iff

end Factoring

/-! ## Pivots in exact arithmetic -/

section Exact

variable {cutoff : Rat} {rule : PivotSearch (Exact cutoff)} {s : PivotStep (Exact cutoff)}
  {line : List (Nat × Exact cutoff)}

theorem PivotSearch.Accepted.tolerance_le (h : rule.Accepted s line) :
    rule.tolerance.value ≤ |s.value.value| := by
  rw [← Exact.abs_eq]
  exact (rule.accepts_iff.mp h.accepts).1

/-- No entry of its column exceeds a pivot by more than the threshold allows. -/
theorem PivotSearch.Accepted.abs_multiplier_le (h : rule.Accepted s line)
    (hthreshold : 0 < rule.threshold.value) {t : Nat × Exact cutoff} (ht : t ∈ s.lowerColumn) :
    |t.2.value| ≤ 1 / rule.threshold.value := by
  obtain ⟨x, hx, he⟩ := h.multiplier t ht
  have hpeak : rule.threshold.value * Exact.peak (line.map Prod.snd) ≤ |s.value.value| := by
    rw [← Exact.abs_eq, ← Exact.value_maxAbs]
    exact (rule.accepts_iff.mp h.accepts).2
  have hle : |x.value| ≤ Exact.peak (line.map Prod.snd) :=
    Exact.abs_le_peak (List.mem_map.mpr ⟨_, hx, rfl⟩)
  rw [he, Exact.value_div, abs_div]
  rcases (abs_nonneg s.value.value).eq_or_lt with hzero | hpos
  · rw [← hzero, div_zero]
    exact (one_div_pos.mpr hthreshold).le
  · rw [div_le_div_iff₀ hpos hthreshold, one_mul, mul_comm]
    exact (mul_le_mul_of_nonneg_left hle hthreshold.le).trans hpeak

/-- The magnitude that a column is said to have at most is that of an entry, if it has any. -/
theorem Exact.isGreatest_largest {column : List (Nat × Exact cutoff)} (h : column ≠ []) :
    IsGreatest {y | ∃ t ∈ column, y = |t.2.value|} (Active.largest column).value := by
  rw [Active.largest, Exact.value_maxAbs]
  refine ⟨?_, ?_⟩
  · have hvalues : column.map Prod.snd ≠ [] := by simpa using h
    obtain ⟨x, hx, he⟩ := Exact.exists_abs_eq_peak hvalues
    obtain ⟨t, ht, rfl⟩ := List.mem_map.mp hx
    exact ⟨t, ht, he.symm⟩
  · rintro _ ⟨t, ht, rfl⟩
    exact Exact.abs_le_peak (List.mem_map_of_mem ht)

end Exact

namespace Factoring

/-- In every state of a factorization the active submatrix is coherent.  In exact arithmetic
the maxima are attained, pivots have the magnitude of the tolerance at least, and multipliers
that of the inverse of the threshold at most. -/
theorem underway_coherent_and_stable :
    (∀ {α : Type} [Scalar α] {rule : PivotSearch α} {columns : List (List (Nat × α))}
      {f : Factoring α}, SquareColumns columns → Underway rule columns f →
      f.Coherent columns.length) ∧
    ∀ {cutoff : Rat} {columns : List (List (Nat × Exact cutoff))}, SquareColumns columns →
      (∀ {rule : PivotSearch (Exact cutoff)} {f : Factoring (Exact cutoff)},
        0 < rule.threshold.value → Underway rule columns f →
        (∀ j, f.ColumnOpen columns.length j → f.active.column j ≠ [] →
          IsGreatest {y | ∃ t ∈ f.active.column j, y = |t.2.value|}
            (f.active.columnPeaks.getD j 0).value) ∧
        ∀ s ∈ f.steps, rule.tolerance.value ≤ |s.value.value| ∧
          ∀ t ∈ s.lowerColumn, |t.2.value| ≤ 1 / rule.threshold.value) ∧
      ∀ {threshold tolerance : Exact cutoff} {lu : LU (Exact cutoff)}
        {summary : FactorSummary (Exact cutoff)}, 0 < threshold.value →
        LU.factor columns threshold tolerance = .ok (lu, summary) →
        ∀ k, ∀ t ∈ lu.lowerColumn k, |t.2.value| ≤ 1 / threshold.value := by
  refine ⟨fun hcolumns h => (h.surveyed hcolumns).coherent, fun hcolumns =>
    ⟨fun hthreshold h => ⟨fun j hj hne => ?_, fun s hs => ?_⟩, fun hthreshold h k t ht => ?_⟩⟩
  · rw [(h.surveyed hcolumns).upToDate.peak j hj]
    exact Exact.isGreatest_largest hne
  · obtain ⟨line, haccepted⟩ := (h.surveyed hcolumns).accepted s hs
    exact ⟨haccepted.tolerance_le, fun t ht => haccepted.abs_multiplier_le hthreshold ht⟩
  · obtain ⟨hnone, rfl⟩ := LU.of_factor_eq_ok h
    have hsurveyed := (underway_of_dependent_eq_nil hnone).surveyed hcolumns
    obtain ⟨s, hs, ht⟩ := LU.of_mem_lowerColumn_ofSteps ht
    obtain ⟨line, haccepted⟩ := hsurveyed.accepted s hs
    exact haccepted.abs_multiplier_le hthreshold ht

/-- Three columns of which the first offers the first pivot, which fills in the second. -/
def filled : List (List (Nat × Exact 0)) :=
  [[(0, Exact.ofRat 2), (1, Exact.ofRat 3)], [(0, 1), (2, 1)],
    [(0, 1), (1, 1), (2, Exact.ofRat 4)]]

theorem coherent_and_stable_filled :
    let rule : PivotSearch (Exact 0) := ⟨Exact.ofRat (1 / 2), Exact.ofRat (1 / 1000), lineLimit⟩
    let f := run rule 1 (start filled)
    f.steps.map (fun s => (s.row, s.column, s.lowerColumn)) = [(1, 0, [(0, Exact.ofRat (2 / 3))])] ∧
    f.active.columnsByCount.items 2 = [2, 1] ∧ f.active.rowsByCount.items 2 = [0, 2] ∧
    f.Coherent 3 ∧ ∀ s ∈ f.steps, ∀ t ∈ s.lowerColumn, |t.2.value| ≤ 1 / (1 / 2) := by
  intro rule f
  have hsquare : SquareColumns filled := ⟨by simp [filled, DistinctKeys], by decide⟩
  have hunderway : Underway rule filled f :=
    underway_of_dependent_eq_nil (by decide +kernel)
  obtain ⟨hcoherent, hexact⟩ := underway_coherent_and_stable
  exact ⟨by decide +kernel, by decide +kernel, by decide +kernel, hcoherent hsquare hunderway,
    fun s hs => (((hexact hsquare).1 (by norm_num [rule]) hunderway).2 s hs).2⟩

end Factoring
end DualSimplex
