import DualSimplex.Factor.Factoring
import DualSimplex.Proofs.Factor.CountBuckets
import DualSimplex.Proofs.Factor.Elimination
import DualSimplex.Proofs.Factor.Structure

/-!
# Factoring a matrix

Whatever pivots the search chooses, they lie on entries of the active submatrix,
and what has been eliminated is a sequence of pivots in rows and columns that the
submatrix has nothing left in.  In the end every column has been pivoted on or
found dependent.
-/

namespace DualSimplex

open Scalar

variable {α : Type}

/-! ## One more pivot -/

theorem nodup_map_append_singleton {β γ : Type} {f : β → γ} {xs : List β} {x : β}
    (h : (xs.map f).Nodup) (hx : ∀ y ∈ xs, f y ≠ f x) : ((xs ++ [x]).map f).Nodup := by
  rw [List.map_append, List.map_singleton]
  refine nodup_append_singleton.mpr ⟨h, fun hmem => ?_⟩
  obtain ⟨y, hy, he⟩ := List.mem_map.mp hmem
  exact hx y hy he

/-- An element of a list that is longer by one stands in the old part or at the end. -/
theorem getElem_append_singleton {β : Type} {xs : List β} {x : β} {k : Nat}
    (hk : k < (xs ++ [x]).length) : (∃ hlt : k < xs.length, (xs ++ [x])[k] = xs[k]) ∨
      k = xs.length ∧ (xs ++ [x])[k] = x := by
  by_cases hlt : k < xs.length
  · exact Or.inl ⟨hlt, List.getElem_append_left hlt⟩
  · have hlast : k = xs.length := by
      rw [List.length_append, List.length_singleton] at hk
      omega
    subst hlast
    exact Or.inr ⟨rfl, by simp⟩

section Append

variable {m : Nat} {steps : List (PivotStep α)} {upperColumns : Array (List (Nat × α))}
  {s : PivotStep α} {upperRow : List (Nat × α)}

/-- Columns that have been pivoted on stay as they are. -/
theorem mem_of_mem_scatter_upper
    (hupper : ∀ u ∈ upperRow, u.1 ≠ s.column ∧ ∀ r ∈ steps, r.column ≠ u.1) {j : Nat}
    (hj : j = s.column ∨ ∃ r ∈ steps, r.column = j) {t : Nat × α}
    (ht : t ∈ (scatter s.row upperRow upperColumns).getD j []) : t ∈ upperColumns.getD j [] := by
  refine (mem_scatter.mp ht).resolve_right fun e => ?_
  obtain ⟨hne, hnone⟩ := hupper _ e.2.2
  rcases hj with hj | ⟨r, hr, hj⟩
  · exact hne hj
  · exact hnone r hr hj

theorem PivotSequence.lower_later_append (h : PivotSequence m steps upperColumns)
    (hlower : ∀ t ∈ s.lowerColumn, t.1 < m ∧ t.1 ≠ s.row ∧ ∀ r ∈ steps, r.row ≠ t.1) {k : Nat}
    (hk : k < (steps ++ [s]).length) {t : Nat × α} (ht : t ∈ (steps ++ [s])[k].lowerColumn) :
    t.1 < m ∧ ∀ j (hj : j < (steps ++ [s]).length), j ≤ k → (steps ++ [s])[j].row ≠ t.1 := by
  rcases getElem_append_singleton hk with ⟨hlt, he⟩ | ⟨rfl, he⟩ <;> rw [he] at ht
  · obtain ⟨hm, hne⟩ := h.lower_later k hlt t ht
    refine ⟨hm, fun j hj hjk => ?_⟩
    rw [List.getElem_append_left (by omega)]
    exact hne j (by omega) hjk
  · obtain ⟨hm, hne, hnone⟩ := hlower t ht
    refine ⟨hm, fun j hj _ => ?_⟩
    rcases getElem_append_singleton hj with ⟨hlt, he'⟩ | ⟨rfl, he'⟩ <;> rw [he']
    · exact hnone _ (List.getElem_mem hlt)
    · exact Ne.symm hne

theorem PivotSequence.upper_earlier_append (h : PivotSequence m steps upperColumns)
    (hupper : ∀ u ∈ upperRow, u.1 ≠ s.column ∧ ∀ r ∈ steps, r.column ≠ u.1)
    (hrows : ∀ j, ∀ t ∈ upperColumns.getD j [], ∃ r ∈ steps, r.row = t.1) {k : Nat}
    (hk : k < (steps ++ [s]).length) {t : Nat × α}
    (ht : t ∈ (scatter s.row upperRow upperColumns).getD (steps ++ [s])[k].column []) :
    ∃ j, ∃ hj : j < k, (steps ++ [s])[j].row = t.1 := by
  rcases getElem_append_singleton hk with ⟨hlt, he⟩ | ⟨rfl, he⟩ <;> rw [he] at ht
  · have ht := mem_of_mem_scatter_upper hupper (Or.inr ⟨_, List.getElem_mem hlt, rfl⟩) ht
    obtain ⟨j, hj, he⟩ := h.upper_earlier k hlt t ht
    refine ⟨j, hj, ?_⟩
    rw [List.getElem_append_left (by omega)]
    exact he
  · obtain ⟨r, hr, hrt⟩ := hrows _ t (mem_of_mem_scatter_upper hupper (Or.inl rfl) ht)
    obtain ⟨j, hj, rfl⟩ := List.mem_iff_getElem.mp hr
    refine ⟨j, hj, ?_⟩
    rw [List.getElem_append_left hj]
    exact hrt

theorem PivotSequence.append (h : PivotSequence m steps upperColumns)
    (hrow : s.row < m ∧ ∀ r ∈ steps, r.row ≠ s.row)
    (hcolumn : s.column < m ∧ ∀ r ∈ steps, r.column ≠ s.column)
    (hkeys : DistinctKeys s.lowerColumn)
    (hlower : ∀ t ∈ s.lowerColumn, t.1 < m ∧ t.1 ≠ s.row ∧ ∀ r ∈ steps, r.row ≠ t.1)
    (hupperKeys : DistinctKeys upperRow)
    (hupper : ∀ u ∈ upperRow, u.1 ≠ s.column ∧ ∀ r ∈ steps, r.column ≠ u.1)
    (hrows : ∀ j, ∀ t ∈ upperColumns.getD j [], ∃ r ∈ steps, r.row = t.1) :
    PivotSequence m (steps ++ [s]) (scatter s.row upperRow upperColumns) where
  rows_nodup := nodup_map_append_singleton h.rows_nodup hrow.2
  row_lt := List.forall_mem_append.mpr ⟨h.row_lt, List.forall_mem_singleton.mpr hrow.1⟩
  columns_nodup := nodup_map_append_singleton h.columns_nodup hcolumn.2
  column_lt := List.forall_mem_append.mpr ⟨h.column_lt, List.forall_mem_singleton.mpr hcolumn.1⟩
  lower_keys := List.forall_mem_append.mpr ⟨h.lower_keys, List.forall_mem_singleton.mpr hkeys⟩
  lower_later _ hk _ ht := h.lower_later_append hlower hk ht
  upper_keys := by
    refine distinctKeys_scatter hupperKeys h.upper_keys fun i x _ y hy => ?_
    obtain ⟨r, hr, he⟩ := hrows i _ hy
    exact hrow.2 r hr he
  upper_earlier _ hk _ ht := h.upper_earlier_append hupper hrows hk ht

end Append

variable [Scalar α]

/-! ## What the search finds -/

namespace PivotSearch

/-- A pivot on an entry of the submatrix that is large enough. -/
def Eligible (rule : PivotSearch α) (a : Active α) (p : Pivot α) : Prop :=
  (p.row, p.value) ∈ a.column p.column ∧
    rule.accepts p.value (a.columnPeaks.getD p.column 0) = true

/-- All pivots that a search holds satisfy a condition. -/
def Holds (P : Pivot α → Prop) : Search α → Prop
  | .running best _ => ∀ o ∈ best, P o.pivot
  | .settled p => P p

variable (rule : PivotSearch α) (a : Active α)

theorem accepts_iff {x peak : α} : rule.accepts x peak = true ↔
    rule.tolerance ≤ magnitude x ∧ rule.threshold * peak ≤ magnitude x := by
  rw [accepts, Bool.and_eq_true, decide_eq_true_eq, decide_eq_true_eq]

theorem eligible_scanColumn (count column : Nat) {best : Option (Offer α)}
    (hbest : ∀ o ∈ best, rule.Eligible a o.pivot) :
    ∀ o ∈ (rule.scanColumn a count column best).1, rule.Eligible a o.pivot := by
  rw [scanColumn]
  have hfold : ∀ (line : List (Nat × α)) (s : Option (Offer α) × Bool),
      (∀ t ∈ line, t ∈ a.column column) → (∀ o ∈ s.1, rule.Eligible a o.pivot) →
      ∀ o ∈ (line.foldl (fun s t =>
        if rule.accepts t.2 (a.columnPeaks.getD column 0) then
          if improves ((count - 1) * ((a.row t.1).length - 1)) s.1 then
            (some { cost := (count - 1) * ((a.row t.1).length - 1),
                    pivot := { row := t.1, column := column, value := t.2 } }, true)
          else (s.1, true)
        else (s.1, s.2)) s).1, rule.Eligible a o.pivot := by
    intro line
    induction line with
    | nil => exact fun s _ hs => hs
    | cons t line ih =>
      intro s hline hs
      refine ih _ (fun u hu => hline u (List.mem_cons_of_mem t hu)) ?_
      obtain ⟨best, found⟩ := s
      dsimp only
      split
      · rename_i haccepts
        split
        · intro o ho
          rw [← Option.some.inj ho]
          exact ⟨hline t List.mem_cons_self, haccepts⟩
        · exact hs
      · exact hs
  exact hfold _ _ (fun _ ht => ht) hbest

variable {a}

theorem eligible_scanRow {m : Nat} (ha : a.WellFormed m) (count row : Nat)
    {best : Option (Offer α)} (hbest : ∀ o ∈ best, rule.Eligible a o.pivot) :
    ∀ o ∈ (rule.scanRow a count row best).1, rule.Eligible a o.pivot := by
  rw [scanRow]
  have hfold : ∀ (line : List Nat) (s : Option (Offer α) × Bool),
      (∀ j ∈ line, j ∈ a.row row) → (∀ o ∈ s.1, rule.Eligible a o.pivot) →
      ∀ o ∈ (line.foldl (fun s column =>
        if improves ((count - 1) * ((a.column column).length - 1)) s.1
            && rule.accepts (a.value row column) (a.columnPeaks.getD column 0) then
          (some { cost := (count - 1) * ((a.column column).length - 1),
                  pivot := { row := row, column := column, value := a.value row column } }, true)
        else (s.1, s.2)) s).1, rule.Eligible a o.pivot := by
    intro line
    induction line with
    | nil => exact fun s _ hs => hs
    | cons j line ih =>
      intro s hline hs
      refine ih _ (fun u hu => hline u (List.mem_cons_of_mem j hu)) ?_
      obtain ⟨best, found⟩ := s
      dsimp only
      split
      · rename_i haccepts
        intro o ho
        rw [← Option.some.inj ho]
        obtain ⟨x, hx⟩ := (ha.mem_row row j).mp (hline j List.mem_cons_self)
        have hvalue : a.value row j = x := by
          rw [Active.value, (lookup_eq_some_iff (ha.column_keys j)).mpr hx]
          rfl
        refine ⟨?_, (Bool.and_eq_true_iff.mp haccepts).2⟩
        show (row, a.value row j) ∈ a.column j
        rw [hvalue]
        exact hx
      · exact hs
  exact hfold _ _ (fun _ ht => ht) hbest

omit [Scalar α] in
theorem holds_afterLine {P : Pivot α → Prop} (bound searched : Nat) {line : Option (Offer α) × Bool}
    (h : ∀ o ∈ line.1, P o.pivot) : Holds P (rule.afterLine bound searched line) := by
  obtain ⟨best, found⟩ := line
  cases best with
  | none => exact fun o ho => absurd ho nofun
  | some best =>
    rw [afterLine]
    split
    · exact h best rfl
    · exact h

omit [Scalar α] in
theorem holds_foldl {P : Pivot α → Prop} {step : Search α → Nat → Search α}
    (hstep : ∀ s k, Holds P s → Holds P (step s k)) (items : List Nat) {s : Search α}
    (hs : Holds P s) : Holds P (items.foldl step s) := by
  induction items generalizing s with
  | nil => exact hs
  | cons k items ih => exact ih (hstep s k hs)

theorem holds_countStep {m : Nat} (ha : a.WellFormed m) (s : Search α) (count : Nat)
    (hs : Holds (rule.Eligible a) s) : Holds (rule.Eligible a) (rule.countStep a s count) := by
  refine holds_foldl (fun s k hs => ?_) _ (holds_foldl (fun s k hs => ?_) _ hs)
  · cases s with
    | running best searched =>
      exact rule.holds_afterLine _ _ (rule.eligible_scanRow ha count k hs)
    | settled p => exact hs
  · cases s with
    | running best searched =>
      exact rule.holds_afterLine _ _ (rule.eligible_scanColumn a count k hs)
    | settled p => exact hs

/-- A pivot that is chosen is eligible. -/
theorem eligible_of_choose {m : Nat} (ha : a.WellFormed m) {p : Pivot α}
    (h : rule.choose a = .pivot p) : rule.Eligible a p := by
  rw [choose] at h
  cases hfirst : a.columnsByCount.first 0 with
  | some column =>
    rw [hfirst] at h
    exact absurd h nofun
  | none =>
    rw [hfirst] at h
    have hsearch := holds_foldl (P := rule.Eligible a)
      (rule.holds_countStep ha) (List.range' 1 a.m) (s := .running none 0)
      (fun o ho => absurd ho nofun)
    simp only at h
    cases hs : (List.range' 1 a.m).foldl (rule.countStep a) (.running none 0) with
    | settled q =>
      rw [hs] at h hsearch
      rw [← PivotDecision.pivot.inj h]
      exact hsearch
    | running best searched =>
      rw [hs] at h hsearch
      cases best with
      | none => exact absurd h nofun
      | some best =>
        rw [← PivotDecision.pivot.inj h]
        exact hsearch best rfl

/-- A column that is found empty is at the head of its list. -/
theorem first_of_choose {j : Nat} (h : rule.choose a = .emptyColumn j) :
    a.columnsByCount.first 0 = some j := by
  rw [choose] at h
  cases hfirst : a.columnsByCount.first 0 with
  | some column =>
    rw [hfirst] at h
    rw [PivotDecision.emptyColumn.inj h]
  | none =>
    rw [hfirst] at h
    simp only at h
    split at h <;> exact absurd h nofun

end PivotSearch

/-! ## A factorization under way -/

namespace Factoring

/-- What a factorization has decided so far.  Dependent columns are not pivoted
on. -/
structure Sound (f : Factoring α) (m : Nat) : Prop where
  m_eq : f.active.m = m
  sequence : PivotSequence m f.steps f.upperColumns
  size_upper : f.upperColumns.size = m
  dependent_nodup : f.dependent.Nodup
  dependent_lt : ∀ j ∈ f.dependent, j < m
  dependent_open : ∀ j ∈ f.dependent, ∀ s ∈ f.steps, s.column ≠ j

/-- Nothing is left in rows and columns that are done with, and the columns that
are not are counted. -/
structure Invariant (f : Factoring α) (m : Nat) : Prop extends f.Sound m where
  active : f.active.WellFormed m
  upper_rows : ∀ j, ∀ t ∈ f.upperColumns.getD j [], ∃ s ∈ f.steps, s.row = t.1
  pivoted : ∀ s ∈ f.steps, ∀ l t, t ∈ f.active.column l → t.1 ≠ s.row ∧ l ≠ s.column
  given_up : ∀ j ∈ f.dependent, ∀ t, t ∉ f.active.column j
  buckets : f.active.columnsByCount.WellFormed m
  listed : ∀ j, f.active.columnsByCount.Lists j ↔
    j < m ∧ (∀ s ∈ f.steps, s.column ≠ j) ∧ j ∉ f.dependent

variable {f : Factoring α} {m : Nat}

omit [Scalar α] in
/-- A line holds as many entries as there are rows at most. -/
theorem length_column_le {a : Active α} (ha : a.WellFormed m) (j : Nat) :
    (a.column j).length ≤ m := by
  have hsub : ((a.column j).map Prod.fst).Subperm (List.range m) := by
    refine (ha.column_keys j).subperm fun i hi => ?_
    obtain ⟨t, ht, rfl⟩ := List.mem_map.mp hi
    exact List.mem_range.mpr (ha.row_lt ht)
  have := hsub.length_le
  rwa [List.length_map, List.length_range] at this

theorem upperColumns_take (f : Factoring α) (p : Pivot α) : (f.take p).upperColumns =
    scatter p.row (f.active.eliminate p.row p.column p.value).upperRow f.upperColumns := rfl

theorem steps_take (f : Factoring α) (p : Pivot α) : (f.take p).steps = f.steps ++
    [{ row := p.row, column := p.column, value := p.value,
       lowerColumn := (f.active.eliminate p.row p.column p.value).lowerColumn }] := rfl

theorem dependent_take (f : Factoring α) (p : Pivot α) : (f.take p).dependent = f.dependent := by
  rw [take]

/-- The columns that are counted after a pivot. -/
theorem Invariant.buckets_take (h : f.Invariant m) (p : Pivot α) :
    (f.take p).active.columnsByCount.WellFormed m ∧
    ∀ j, (f.take p).active.columnsByCount.Lists j ↔
      j < m ∧ (∀ s ∈ (f.take p).steps, s.column ≠ j) ∧ j ∉ (f.take p).dependent := by
  obtain ⟨hactive, -⟩ := h.active.eliminate p.row p.column p.value
  obtain ⟨hremove, hlists⟩ := h.buckets.lists_remove p.column
  obtain ⟨hw, hlists'⟩ := hremove.lists_foldl_update
    (fun j => ((f.active.eliminate p.row p.column p.value).active.column j).length)
    (f.active.others p.row p.column) fun j hj => by
      obtain ⟨-, x, hx⟩ := (h.active.mem_others ..).mp hj
      exact ⟨h.active.column_lt hx, length_column_le hactive j⟩
  have htake : (f.take p).active.columnsByCount = (f.active.others p.row p.column).foldl
      (fun l j => l.update j ((f.active.eliminate p.row p.column p.value).active.column j).length)
      (f.active.columnsByCount.remove p.column) := by
    rw [Factoring.take, Active.columnsByCount_eliminate,
      (h.active.touches_eliminate ..).columnsByCount]
  rw [htake]
  refine ⟨hw, fun j => (hlists' j).trans ?_⟩
  rw [hlists, h.listed]
  have hsteps : (∀ s ∈ (f.take p).steps, s.column ≠ j) ↔
      (∀ s ∈ f.steps, s.column ≠ j) ∧ j ≠ p.column := by
    simp only [steps_take, List.mem_append, List.mem_singleton, or_imp, forall_and, forall_eq]
    exact and_congr_right fun _ => ne_comm
  rw [hsteps, dependent_take]
  constructor
  · rintro (⟨⟨hlt, hopen, hnew⟩, hne⟩ | hj)
    · exact ⟨hlt, ⟨hopen, hne⟩, hnew⟩
    · obtain ⟨hne, x, hx⟩ := (h.active.mem_others ..).mp hj
      exact ⟨h.active.column_lt hx, ⟨fun s hs e => (h.pivoted s hs _ _ hx).2 e.symm, hne⟩,
        fun hmem => h.given_up j hmem _ hx⟩
  · rintro ⟨hlt, ⟨hopen, hne⟩, hnew⟩
    exact Or.inl ⟨⟨hlt, hopen, hnew⟩, hne⟩

theorem Invariant.take (h : f.Invariant m) {p : Pivot α}
    (hp : (p.row, p.value) ∈ f.active.column p.column) : (f.take p).Invariant m := by
  obtain ⟨hactive, hout, -⟩ := h.active.eliminate p.row p.column p.value
  obtain ⟨hupperKeys, hupper⟩ := h.active.upperRow_spec p.row p.column p.value
  obtain ⟨hlowerKeys, hlower⟩ :=
    h.active.lowerColumn_spec p.row p.column p.value
  have hrow : ∀ s ∈ f.steps, s.row ≠ p.row := fun s hs e => (h.pivoted s hs _ _ hp).1 e.symm
  have hcolumn : ∀ s ∈ f.steps, s.column ≠ p.column := fun s hs e =>
    (h.pivoted s hs _ _ hp).2 e.symm
  refine {
    m_eq := ((Active.m_eliminate ..).trans (h.active.touches_eliminate ..).m).trans h.m_eq
    sequence := ?_
    size_upper := ?_
    dependent_nodup := by rw [dependent_take]; exact h.dependent_nodup
    dependent_lt := by rw [dependent_take]; exact h.dependent_lt
    dependent_open := fun j hj s hs => ?_
    active := hactive
    upper_rows := fun j t ht => ?_
    pivoted := fun s hs l t ht => ?_
    given_up := fun j hj t ht => ?_
    buckets := (h.buckets_take p).1
    listed := (h.buckets_take p).2 }
  · refine h.sequence.append ⟨h.active.row_lt hp, hrow⟩ ⟨h.active.column_lt hp, hcolumn⟩ hlowerKeys
      (fun t ht => ?_) hupperKeys (fun u hu => ?_) h.upper_rows
    · obtain ⟨hne, x, hx, -⟩ := (hlower t.1 t.2).mp ht
      exact ⟨h.active.row_lt hx, hne, fun s hs e => (h.pivoted s hs _ _ hx).1 e.symm⟩
    · obtain ⟨hne, hx⟩ := (hupper u.1 u.2).mp hu
      exact ⟨hne, fun s hs e => (h.pivoted s hs _ _ hx).2 e.symm⟩
  · rw [upperColumns_take, size_scatter, h.size_upper]
  · rw [dependent_take] at hj
    rcases List.mem_append.mp hs with hs | hs
    · exact h.dependent_open j hj s hs
    · rw [List.mem_singleton.mp hs]
      rintro rfl
      exact h.given_up _ hj _ hp
  · rw [upperColumns_take] at ht
    rcases mem_scatter.mp ht with ht | ht
    · obtain ⟨s, hs, he⟩ := h.upper_rows j t ht
      exact ⟨s, List.mem_append_left _ hs, he⟩
    · exact ⟨_, List.mem_append_right _ List.mem_cons_self, ht.2.1.symm⟩
  · rcases List.mem_append.mp hs with hs | hs
    · obtain ⟨⟨j, x, hx⟩, t', ht'⟩ := h.active.eliminate_source _ _ ht
      exact ⟨(h.pivoted s hs _ _ hx).1, (h.pivoted s hs _ _ ht').2⟩
    · rw [List.mem_singleton.mp hs]
      exact hout l t ht
  · rw [dependent_take] at hj
    obtain ⟨-, t', ht'⟩ := h.active.eliminate_source _ _ ht
    exact h.given_up j hj t' ht'

theorem Invariant.giveUp (h : f.Invariant m) {j : Nat}
    (hj : f.active.columnsByCount.first 0 = some j) :
    ({ f with active := f.active.giveUp j, dependent := f.dependent ++ [j] } :
      Factoring α).Invariant m := by
  obtain ⟨hactive, hmem⟩ := h.active.giveUp j
  obtain ⟨hw, hlists⟩ := h.buckets.lists_remove j
  obtain ⟨hlt, hopen, hnew⟩ := (h.listed j).mp ⟨0, (h.buckets.first 0 j hj).1⟩
  refine {
    m_eq := (Active.m_giveUp ..).trans h.m_eq
    sequence := h.sequence
    size_upper := h.size_upper
    dependent_nodup := ?_
    dependent_lt := fun k hk => ?_
    dependent_open := fun k hk s hs => ?_
    active := hactive
    upper_rows := h.upper_rows
    pivoted := fun s hs l t ht => h.pivoted s hs l t ((hmem l t).mp ht).1
    given_up := fun k hk t ht => ?_
    buckets := by rw [Active.columnsByCount_giveUp]; exact hw
    listed := fun k => ?_ }
  · exact nodup_append_singleton.mpr ⟨h.dependent_nodup, hnew⟩
  · rcases List.mem_append.mp hk with hk | hk
    · exact h.dependent_lt k hk
    · rw [List.mem_singleton.mp hk]
      exact hlt
  · rcases List.mem_append.mp hk with hk | hk
    · exact h.dependent_open k hk s hs
    · rw [List.mem_singleton.mp hk]
      exact hopen s hs
  · obtain ⟨ht, hne⟩ := (hmem k t).mp ht
    rcases List.mem_append.mp hk with hk | hk
    · exact h.given_up k hk t ht
    · exact hne (List.mem_singleton.mp hk)
  · show (f.active.giveUp j).columnsByCount.Lists k ↔ _
    rw [Active.columnsByCount_giveUp, hlists, h.listed, List.mem_append, List.mem_singleton, not_or]
    exact ⟨fun e => ⟨e.1.1, e.1.2.1, e.1.2.2, e.2⟩, fun e => ⟨⟨e.1, e.2.1, e.2.2.1⟩, e.2.2.2⟩⟩

/-! ## A whole factorization -/

section Run

variable (rule : PivotSearch α)

/-- The columns that are neither pivoted on nor given up are dependent. -/
def exhaust (f : Factoring α) : Factoring α :=
  { f with dependent := f.dependent ++ (List.range f.active.m).filter f.isOpen }

omit [Scalar α] in
/-- If that leaves no dependent columns, all have been pivoted on before. -/
theorem exhaust_eq_self (h : f.exhaust.dependent = []) : f.exhaust = f := by
  have hempty : f.dependent = [] := (List.append_eq_nil_iff.mp h).1
  cases f
  simp only [exhaust, Factoring.mk.injEq, true_and, and_true] at h hempty ⊢
  rw [h, hempty]

/-- What every decision preserves holds in the end, or did when no entry was
eligible any more. -/
theorem run_induction {P : Factoring α → Prop}
    (htake : ∀ f p, P f → rule.choose f.active = .pivot p → P (f.take p))
    (hgive : ∀ f j, P f → rule.choose f.active = .emptyColumn j →
      P { f with active := f.active.giveUp j, dependent := f.dependent ++ [j] })
    (turns : Nat) {f : Factoring α} (hf : P f) :
    (P (run rule turns f) ∧ ((run rule turns f).active.m ≤
        (run rule turns f).steps.length + (run rule turns f).dependent.length ∨
      f.steps.length + f.dependent.length + turns ≤
        (run rule turns f).steps.length + (run rule turns f).dependent.length)) ∨
    ∃ g, P g ∧ g.steps.length + g.dependent.length < g.active.m ∧ run rule turns f = g.exhaust := by
  induction turns generalizing f with
  | zero => exact Or.inl ⟨hf, Or.inr (Nat.le_refl _)⟩
  | succ turns ih =>
    rw [run]
    by_cases hdone : f.active.m ≤ f.steps.length + f.dependent.length
    · rw [if_pos hdone]
      exact Or.inl ⟨hf, Or.inl hdone⟩
    · rw [if_neg hdone]
      cases hchoose : rule.choose f.active with
      | pivot p =>
        refine (ih (htake f p hf hchoose)).imp_left (And.imp_right (Or.imp_right fun h => ?_))
        rw [steps_take, dependent_take, List.length_append, List.length_singleton] at h
        dsimp only at h ⊢
        omega
      | emptyColumn j =>
        refine (ih (hgive f j hf hchoose)).imp_left (And.imp_right (Or.imp_right fun h => ?_))
        rw [List.length_append, List.length_singleton] at h
        dsimp only at h ⊢
        omega
      | exhausted => exact Or.inr ⟨f, hf, Nat.lt_of_not_le hdone, rfl⟩

end Run

omit [Scalar α] in
theorem isOpen_eq_true {j : Nat} :
    f.isOpen j = true ↔ (∀ s ∈ f.steps, s.column ≠ j) ∧ j ∉ f.dependent := by
  simp [isOpen]

/-- A factorization that has decided on every column. -/
structure Decided (f : Factoring α) (m : Nat) : Prop extends f.Sound m where
  decided : ∀ j, j < m → (∃ s ∈ f.steps, s.column = j) ∨ j ∈ f.dependent

omit [Scalar α] in
theorem Sound.exhaust (h : f.Sound m) : f.exhaust.Decided m where
  m_eq := h.m_eq
  sequence := h.sequence
  size_upper := h.size_upper
  dependent_nodup := by
    refine List.nodup_append'.mpr ⟨h.dependent_nodup, List.nodup_range.filter _, ?_⟩
    intro j hj hmem
    exact (isOpen_eq_true.mp (List.mem_filter.mp hmem).2).2 hj
  dependent_lt j hj := by
    rcases List.mem_append.mp hj with hj | hj
    · exact h.dependent_lt j hj
    · exact h.m_eq ▸ List.mem_range.mp (List.mem_filter.mp hj).1
  dependent_open j hj s hs := by
    rcases List.mem_append.mp hj with hj | hj
    · exact h.dependent_open j hj s hs
    · exact (isOpen_eq_true.mp (List.mem_filter.mp hj).2).1 s hs
  decided j hj := by
    by_cases hopen : f.isOpen j = true
    · refine Or.inr (List.mem_append_right _ (List.mem_filter.mpr ⟨?_, hopen⟩))
      exact List.mem_range.mpr (h.m_eq.symm ▸ hj)
    · rw [isOpen_eq_true, not_and_or, not_not] at hopen
      refine hopen.imp (fun h' => ?_) fun h' => List.mem_append_left _ h'
      by_contra hnone
      exact h' fun s hs e => hnone ⟨s, hs, e⟩

omit [Scalar α] in
/-- As many decisions as columns decide on all of them. -/
theorem Sound.decided (h : f.Sound m) (hlen : m ≤ f.steps.length + f.dependent.length) :
    f.Decided m := by
  refine { h with decided := fun j hj => ?_ }
  have hmem : j ∈ f.steps.map PivotStep.column ++ f.dependent := mem_of_nodup_of_lt (n := m)
    (List.nodup_append'.mpr ⟨h.sequence.columns_nodup, h.dependent_nodup, ?_⟩) (fun x hx => ?_)
    (by rw [List.length_append, List.length_map]; exact hlen) hj
  · exact (List.mem_append.mp hmem).imp_left fun hmem => List.mem_map.mp hmem
  · intro k hk hdependent
    obtain ⟨s, hs, rfl⟩ := List.mem_map.mp hk
    exact h.dependent_open _ hdependent s hs rfl
  · rcases List.mem_append.mp hx with hx | hx
    · obtain ⟨s, hs, rfl⟩ := List.mem_map.mp hx
      exact h.sequence.column_lt s hs
    · exact h.dependent_lt x hx

omit [Scalar α] in
/-- Pivots and dependent columns add up to all columns. -/
theorem Decided.length_add (h : f.Decided m) : f.steps.length + f.dependent.length = m := by
  have hperm : (f.steps.map PivotStep.column ++ f.dependent).Perm (List.range m) := by
    rw [List.perm_ext_iff_of_nodup _ List.nodup_range]
    · intro j
      rw [List.mem_range, List.mem_append, List.mem_map]
      refine ⟨fun hj => hj.elim ?_ (h.dependent_lt j), fun hj => h.decided j hj⟩
      rintro ⟨s, hs, rfl⟩
      exact h.sequence.column_lt s hs
    · refine List.nodup_append'.mpr ⟨h.sequence.columns_nodup, h.dependent_nodup, ?_⟩
      intro k hk hdependent
      obtain ⟨s, hs, rfl⟩ := List.mem_map.mp hk
      exact h.dependent_open _ hdependent s hs rfl
  have := hperm.length_eq
  rwa [List.length_append, List.length_map, List.length_range] at this

end Factoring

/-! ## The beginning -/

/-- Columns of a square matrix, without a repeated row. -/
structure SquareColumns (columns : List (List (Nat × α))) : Prop where
  keys : ∀ column ∈ columns, DistinctKeys column
  row_lt : ∀ column ∈ columns, ∀ t ∈ column, t.1 < columns.length

namespace Active

section MarkAll

variable (lines : List (List (Nat × α) × Nat)) (lists : Array (List Nat))

/-- Append the number of every line to the lists that its keys name. -/
def markAll (lines : List (List (Nat × α) × Nat)) (lists : Array (List Nat)) : Array (List Nat) :=
  lines.foldl (fun lists l => mark l.2 l.1 lists) lists

omit [Scalar α] in
theorem markAll_spec (hnumbers : (lines.map Prod.snd).Nodup)
    (hkeys : ∀ l ∈ lines, DistinctKeys l.1) (hlists : ∀ i, (lists.getD i []).Nodup)
    (hnew : ∀ l ∈ lines, ∀ i, l.2 ∉ lists.getD i []) :
    (markAll lines lists).size = lists.size ∧
    (∀ i, ((markAll lines lists).getD i []).Nodup) ∧
    ∀ i k, k ∈ (markAll lines lists).getD i [] ↔
      k ∈ lists.getD i [] ∨ i < lists.size ∧ ∃ l ∈ lines, k = l.2 ∧ ∃ x, (i, x) ∈ l.1 := by
  induction lines generalizing lists with
  | nil => exact ⟨rfl, hlists, fun i k => by simp [markAll]⟩
  | cons l lines ih =>
    have hl := List.nodup_cons.mp hnumbers
    obtain ⟨hsize, hnodup, hmem⟩ := ih (mark l.2 l.1 lists) hl.2
      (fun r hr => hkeys r (List.mem_cons_of_mem l hr))
      (nodup_mark (hkeys l List.mem_cons_self) hlists
        fun i _ _ => hnew l List.mem_cons_self i)
      (fun r hr i hi => by
        rcases mem_mark.mp hi with hi | hi
        · exact hnew r (List.mem_cons_of_mem l hr) i hi
        · exact hl.1 (List.mem_map.mpr ⟨r, hr, hi.2.1⟩))
    refine ⟨hsize.trans (size_mark ..), hnodup, fun i k => (hmem i k).trans ?_⟩
    rw [mem_mark, size_mark]
    simp only [List.mem_cons, exists_eq_or_imp]
    tauto

end MarkAll

/-- The columns of a matrix, less its explicit zeros. -/
def significantColumns (columns : List (List (Nat × α))) : List (List (Nat × α)) :=
  columns.map fun column => column.filter fun t => !(t.2 == 0)

theorem column_ofColumns (columns : List (List (Nat × α))) (j : Nat) :
    (ofColumns columns).column j = (significantColumns columns).getD j [] :=
  getD_toArray ..

theorem row_ofColumns (columns : List (List (Nat × α))) (i : Nat) : (ofColumns columns).row i =
    (markAll (significantColumns columns).zipIdx (Array.replicate columns.length [])).getD i [] :=
  rfl

theorem mem_significantColumns {columns : List (List (Nat × α))} {j : Nat} {t : Nat × α} :
    t ∈ (significantColumns columns).getD j [] ↔ t ∈ columns.getD j [] ∧ (t.2 == 0) = false := by
  rw [significantColumns, List.getD_eq_getElem?_getD, List.getD_eq_getElem?_getD, List.getElem?_map]
  cases columns[j]? with
  | none => exact ⟨fun h => absurd h List.not_mem_nil, fun h => absurd h.1 List.not_mem_nil⟩
  | some column =>
    show t ∈ column.filter _ ↔ t ∈ column ∧ _
    rw [List.mem_filter, Bool.not_eq_true']

/-- The whole of a matrix is a well-formed submatrix. -/
theorem wellFormed_ofColumns {columns : List (List (Nat × α))} (h : SquareColumns columns) :
    (ofColumns columns).WellFormed columns.length := by
  have hlen : (significantColumns columns).length = columns.length := List.length_map _
  have hkeys : ∀ line ∈ significantColumns columns, DistinctKeys line := by
    intro line hline
    obtain ⟨column, hc, rfl⟩ := List.mem_map.mp hline
    exact (h.keys column hc).filter _
  have hlt : ∀ line ∈ significantColumns columns, ∀ t ∈ line, t.1 < columns.length := by
    intro line hline t ht
    obtain ⟨column, hc, rfl⟩ := List.mem_map.mp hline
    exact h.row_lt column hc t (List.mem_filter.mp ht).1
  have hempty : ∀ i, (Array.replicate columns.length ([] : List Nat)).getD i [] = [] := fun i => by
    rw [getD_replicate, ite_self]
  obtain ⟨hsize, hnodup, hmem⟩ := markAll_spec (significantColumns columns).zipIdx
    (Array.replicate columns.length [])
    (by rw [List.zipIdx_map_snd]; exact List.nodup_range')
    (fun l hl => hkeys l.1 (List.fst_mem_of_mem_zipIdx hl))
    (fun i => by rw [hempty]; exact List.nodup_nil)
    (fun l _ i => by rw [hempty]; exact List.not_mem_nil)
  refine ⟨?_, hsize.trans Array.size_replicate, fun j => ?_, fun i => ?_, fun i j => ?_⟩
  · exact List.size_toArray.trans hlen
  · rw [column_ofColumns]
    by_cases hj : j < (significantColumns columns).length
    · rw [List.getD_eq_getElem?_getD, List.getElem?_eq_getElem hj]
      exact hkeys _ (List.getElem_mem hj)
    · rw [List.getD_eq_getElem?_getD, List.getElem?_eq_none (by omega)]
      exact distinctKeys_nil
  · rw [row_ofColumns]
    exact hnodup i
  · rw [row_ofColumns, hmem, hempty, Array.size_replicate, column_ofColumns]
    constructor
    · rintro (hj | ⟨-, ⟨line, k⟩, hl, rfl, x, hx⟩)
      · exact absurd hj List.not_mem_nil
      · rw [List.mk_mem_zipIdx_iff_getElem?] at hl
        exact ⟨x, by rw [List.getD_eq_getElem?_getD, hl]; exact hx⟩
    · rintro ⟨x, hx⟩
      rw [List.getD_eq_getElem?_getD] at hx
      cases hline : (significantColumns columns)[j]? with
      | none =>
        rw [hline] at hx
        exact absurd hx List.not_mem_nil
      | some line =>
        rw [hline] at hx
        have hl := List.mk_mem_zipIdx_iff_getElem?.mpr hline
        exact Or.inr ⟨hlt line (List.fst_mem_of_mem_zipIdx hl) _ hx, (line, j), hl, rfl, x, hx⟩

end Active

namespace Factoring

variable {f : Factoring α} {m : Nat}

theorem invariant_start {columns : List (List (Nat × α))} (h : SquareColumns columns) :
    (start columns).Invariant columns.length := by
  have hactive := Active.wellFormed_ofColumns h
  have hempty : ∀ j, (start columns).upperColumns.getD j [] = [] := fun j => by
    show (Array.replicate columns.length []).getD j [] = []
    rw [getD_replicate, ite_self]
  have hgroup : ∀ lines : Array (List (Nat × α)), lines.size = columns.length →
      (∀ k, (lines.getD k []).length ≤ columns.length) →
      (Active.groupLines lines).WellFormed columns.length ∧
        ∀ j, (Active.groupLines lines).Lists j ↔ j < columns.length := by
    intro lines hsize hle
    obtain ⟨hw, hlists⟩ := CountBuckets.lists_foldr_insert (n := columns.length)
      (fun k => (lines.getD k []).length) (List.range columns.length) List.nodup_range
      (fun j hj => ⟨List.mem_range.mp hj, hle j⟩)
    rw [Active.groupLines, hsize]
    exact ⟨hw, fun j => (hlists j).trans List.mem_range⟩
  obtain ⟨hw, hlists⟩ := hgroup (start columns).active.columns hactive.size_columns
    fun k => length_column_le hactive k
  exact {
    m_eq := rfl
    sequence := {
      rows_nodup := List.nodup_nil
      row_lt := fun s hs => absurd hs List.not_mem_nil
      columns_nodup := List.nodup_nil
      column_lt := fun s hs => absurd hs List.not_mem_nil
      lower_keys := fun s hs => absurd hs List.not_mem_nil
      lower_later := fun k hk => absurd hk (Nat.not_lt_zero k)
      upper_keys := fun j => by rw [hempty]; exact distinctKeys_nil
      upper_earlier := fun k hk => absurd hk (Nat.not_lt_zero k) }
    size_upper := Array.size_replicate
    dependent_nodup := List.nodup_nil
    dependent_lt := fun j hj => absurd hj List.not_mem_nil
    dependent_open := fun j hj => absurd hj List.not_mem_nil
    active := hactive
    upper_rows := fun j t ht => by rw [hempty] at ht; exact absurd ht List.not_mem_nil
    pivoted := fun s hs => absurd hs List.not_mem_nil
    given_up := fun j hj => absurd hj List.not_mem_nil
    buckets := hw
    listed := fun j => (hlists j).trans
      ⟨fun hj => ⟨hj, fun s hs => absurd hs List.not_mem_nil, List.not_mem_nil⟩, And.left⟩ }

/-- Everything that a choice leads to keeps to the invariant. -/
theorem Invariant.of_choose_pivot {rule : PivotSearch α} (h : f.Invariant m) {p : Pivot α}
    (hp : rule.choose f.active = .pivot p) : (f.take p).Invariant m :=
  h.take (rule.eligible_of_choose h.active hp).1

variable (rule : PivotSearch α) {columns : List (List (Nat × α))}

/-- A factorization decides on every column, keeping what every decision
preserves as long as there are entries to choose from. -/
theorem run_start (h : SquareColumns columns) {P : Factoring α → Prop}
    (hstart : P (start columns))
    (htake : ∀ f p, f.Invariant columns.length → P f → rule.Eligible f.active p → P (f.take p))
    (hgive : ∀ f j, f.Invariant columns.length → P f →
      P { f with active := f.active.giveUp j, dependent := f.dependent ++ [j] }) :
    (run rule columns.length (start columns)).Decided columns.length ∧
    ∃ g : Factoring α, g.Invariant columns.length ∧ P g ∧
      ((run rule columns.length (start columns)) = g ∨
        (run rule columns.length (start columns)) = g.exhaust) := by
  rcases run_induction rule (P := fun f => f.Invariant columns.length ∧ P f)
    (fun f p hf hp => ⟨hf.1.of_choose_pivot hp, htake f p hf.1 hf.2
      (rule.eligible_of_choose hf.1.active hp)⟩)
    (fun f j hf hj => ⟨hf.1.giveUp (rule.first_of_choose hj), hgive f j hf.1 hf.2⟩)
    columns.length ⟨invariant_start h, hstart⟩ with ⟨hf, hlen⟩ | ⟨g, hg, -, he⟩
  · refine ⟨hf.1.toSound.decided ?_, _, hf.1, hf.2, Or.inl rfl⟩
    rw [hf.1.m_eq] at hlen
    have hzero : (start columns).steps.length + (start columns).dependent.length = 0 := rfl
    omega
  · refine ⟨?_, g, hg.1, hg.2, Or.inr he⟩
    rw [he]
    exact hg.1.toSound.exhaust

/-- If no column is dependent, all of them have been pivoted on. -/
theorem run_complete (h : SquareColumns columns) {P : Factoring α → Prop}
    (hstart : P (start columns))
    (htake : ∀ f p, f.Invariant columns.length → P f → rule.Eligible f.active p → P (f.take p))
    (hgive : ∀ f j, f.Invariant columns.length → P f →
      P { f with active := f.active.giveUp j, dependent := f.dependent ++ [j] })
    (hnone : (run rule columns.length (start columns)).dependent = []) :
    (run rule columns.length (start columns)).Invariant columns.length ∧
    P (run rule columns.length (start columns)) ∧
    (run rule columns.length (start columns)).steps.length = columns.length := by
  obtain ⟨hdecided, g, hg, hP, he⟩ := run_start rule h hstart htake hgive
  have hlen := hdecided.length_add
  rw [hnone, List.length_nil, Nat.add_zero] at hlen
  have hsame : run rule columns.length (start columns) = g := by
    rcases he with he | he
    · exact he
    · rw [he] at hnone ⊢
      exact exhaust_eq_self hnone
  rw [hsame] at hlen ⊢
  exact ⟨hg, hP, hlen⟩

end Factoring

namespace LU

variable {columns : List (List (Nat × α))} {threshold tolerance : α}

/-- Factors are made of a run that has found no column dependent. -/
theorem of_factor_eq_ok {lu : LU α} {summary : FactorSummary α}
    (h : factor columns threshold tolerance = .ok (lu, summary)) :
    let f := Factoring.run ⟨threshold, tolerance, Factoring.lineLimit⟩ columns.length
      (Factoring.start columns)
    f.dependent = [] ∧ lu = ofSteps f.steps f.upperColumns := by
  rw [factor] at h
  split at h
  · rename_i hnone
    exact ⟨List.isEmpty_iff.mp hnone, (Prod.mk.inj (Except.ok.inj h)).1.symm⟩
  · cases h

theorem eq_pairs_of_factor {pairs : List (Nat × Nat)}
    (h : factor columns threshold tolerance = .error pairs) :
    pairs = (Factoring.run ⟨threshold, tolerance, Factoring.lineLimit⟩ columns.length
      (Factoring.start columns)).pairs := by
  rw [factor] at h
  split at h
  · cases h
  · exact (Except.error.inj h).symm

end LU
end DualSimplex
