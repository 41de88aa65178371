import DualSimplex.Proofs.Lines
import DualSimplex.Proofs.Exact
import DualSimplex.Factor.Active

/-!
# Eliminating a pivot

An active submatrix is well formed if its rows list the columns that have an
entry in them.  Eliminating a pivot keeps it so, leaves nothing in the row and
the column of the pivot, and takes from the rest what the pivot accounts for.
-/

namespace DualSimplex

open Scalar

namespace Active

variable {α : Type}

/-- The columns hold entries in rows below `m`, one in each row at most, and the
rows list the columns with entries in them. -/
structure WellFormed (a : Active α) (m : Nat) : Prop where
  size_columns : a.columns.size = m
  size_rows : a.rows.size = m
  column_keys : ∀ j, DistinctKeys (a.column j)
  row_nodup : ∀ i, (a.row i).Nodup
  mem_row : ∀ i j, j ∈ a.row i ↔ ∃ x, (i, x) ∈ a.column j

variable {a b c : Active α} {m : Nat} {rows columns : List Nat}

theorem WellFormed.row_lt (h : a.WellFormed m) {i j : Nat} {x : α} (hx : (i, x) ∈ a.column j) :
    i < m := by
  have hmem := (h.mem_row i j).mpr ⟨x, hx⟩
  by_contra hge
  rw [row, getD_of_size_le (by rw [h.size_rows]; omega)] at hmem
  exact absurd hmem List.not_mem_nil

theorem WellFormed.column_lt (h : a.WellFormed m) {j : Nat} {t : Nat × α} (ht : t ∈ a.column j) :
    j < m := by
  by_contra hge
  rw [column, getD_of_size_le (by rw [h.size_columns]; omega)] at ht
  exact absurd ht List.not_mem_nil

/-- What columns and rows say is all there is to being well formed. -/
theorem WellFormed.of_eq {b : Active α} (h : a.WellFormed m) (hcolumns : b.columns = a.columns)
    (hrows : b.rows = a.rows) : b.WellFormed m := by
  have hcolumn : ∀ j, b.column j = a.column j := fun j => by rw [column, hcolumns]; rfl
  have hrow : ∀ i, b.row i = a.row i := fun i => by rw [row, hrows]; rfl
  refine ⟨hcolumns ▸ h.size_columns, hrows ▸ h.size_rows, fun j => ?_, fun i => ?_, fun i j => ?_⟩
  · rw [hcolumn]
    exact h.column_keys j
  · rw [hrow]
    exact h.row_nodup i
  · rw [hrow, hcolumn]
    exact h.mem_row i j

/-! ## What is touched -/

/-- Nothing but these rows and columns may differ. -/
structure Touches (rows columns : List Nat) (a b : Active α) : Prop where
  m : b.m = a.m
  column : ∀ j, j ∉ columns → b.column j = a.column j
  row : ∀ i, i ∉ rows → b.row i = a.row i
  columnPeaks : b.columnPeaks = a.columnPeaks
  columnsByCount : b.columnsByCount = a.columnsByCount
  rowsByCount : b.rowsByCount = a.rowsByCount

theorem Touches.refl (rows columns : List Nat) (a : Active α) : Touches rows columns a a :=
  ⟨rfl, fun _ _ => rfl, fun _ _ => rfl, rfl, rfl, rfl⟩

theorem Touches.trans (h : Touches rows columns a b) (h' : Touches rows columns b c) :
    Touches rows columns a c where
  m := h'.m.trans h.m
  column j hj := (h'.column j hj).trans (h.column j hj)
  row i hi := (h'.row i hi).trans (h.row i hi)
  columnPeaks := h'.columnPeaks.trans h.columnPeaks
  columnsByCount := h'.columnsByCount.trans h.columnsByCount
  rowsByCount := h'.rowsByCount.trans h.rowsByCount

theorem touches_foldl {γ : Type} {step : Active α → γ → Active α} {items : List γ}
    (h : ∀ a, ∀ t ∈ items, Touches rows columns a (step a t)) (a : Active α) :
    Touches rows columns a (items.foldl step a) := by
  induction items generalizing a with
  | nil => exact .refl rows columns a
  | cons t items ih =>
    exact (h a t List.mem_cons_self).trans
      (ih (fun b s hs => h b s (List.mem_cons_of_mem t hs)) (step a t))

theorem touches_setColumn {j : Nat} (hj : j ∈ columns) (a : Active α) (line : List (Nat × α)) :
    Touches rows columns a { a with columns := a.columns.setIfInBounds j line } :=
  ⟨rfl, fun _ hl => getD_setIfInBounds_ne (ne_of_mem_of_not_mem hj hl) .., fun _ _ => rfl,
    rfl, rfl, rfl⟩

theorem touches_setRow {i : Nat} (hi : i ∈ rows) (a : Active α) (line : List Nat) :
    Touches rows columns a { a with rows := a.rows.setIfInBounds i line } :=
  ⟨rfl, fun _ _ => rfl, fun _ hk => getD_setIfInBounds_ne (ne_of_mem_of_not_mem hi hk) ..,
    rfl, rfl, rfl⟩

theorem touches_modifyColumn {j : Nat} (hj : j ∈ columns) (a : Active α)
    (f : List (Nat × α) → List (Nat × α)) :
    Touches rows columns a { a with columns := a.columns.modify j f } :=
  ⟨rfl, fun _ hl => getD_modify_ne (ne_of_mem_of_not_mem hj hl) .., fun _ _ => rfl,
    rfl, rfl, rfl⟩

theorem touches_modifyRow {i : Nat} (hi : i ∈ rows) (a : Active α) (f : List Nat → List Nat) :
    Touches rows columns a { a with rows := a.rows.modify i f } :=
  ⟨rfl, fun _ _ => rfl, fun _ hk => getD_modify_ne (ne_of_mem_of_not_mem hi hk) ..,
    rfl, rfl, rfl⟩

theorem touches_dropEntry {j : Nat} (hj : j ∈ columns) (a : Active α) (i : Nat) :
    Touches rows columns a (a.dropEntry i j) :=
  touches_modifyColumn hj a _

theorem touches_dropPosition {i : Nat} (hi : i ∈ rows) (a : Active α) (j : Nat) :
    Touches rows columns a (a.dropPosition i j) :=
  touches_modifyRow hi a _

/-- Giving up a column touches the rows that it has entries in. -/
theorem touches_dropColumn (a : Active α) (j : Nat) : Touches ((a.column j).map Prod.fst) [] a
    (((a.column j).map Prod.fst).foldl (fun a i => a.dropPosition i j) a) :=
  touches_foldl (fun b _ hi => touches_dropPosition hi b j) a

/-! ## Dropping entries and positions -/

theorem column_dropEntry (a : Active α) (i j l : Nat) : (a.dropEntry i j).column l =
    if j = l ∧ l < a.columns.size then swapRemove (fun t => t.1 == i) (a.column l)
    else a.column l :=
  getD_modify ..

@[simp] theorem row_dropEntry (a : Active α) (i j k : Nat) : (a.dropEntry i j).row k = a.row k :=
  rfl

theorem keys_dropEntry (hkeys : ∀ l, DistinctKeys (a.column l)) (i j l : Nat) :
    DistinctKeys ((a.dropEntry i j).column l) := by
  rw [column_dropEntry]
  split
  · exact (hkeys l).swapRemove i
  · exact hkeys l

theorem mem_column_dropEntry (hkeys : ∀ l, DistinctKeys (a.column l)) {i j l : Nat}
    {t : Nat × α} : t ∈ (a.dropEntry i j).column l ↔ t ∈ a.column l ∧ ¬ (l = j ∧ t.1 = i) := by
  rw [column_dropEntry]
  split
  · rename_i hl
    rw [mem_swapRemove_key (hkeys l)]
    exact and_congr_right fun _ => ⟨fun hne h => hne h.2, fun hne h => hne ⟨hl.1.symm, h⟩⟩
  · rename_i hl
    refine ⟨fun ht => ⟨ht, fun h => hl ⟨h.1.symm, ?_⟩⟩, And.left⟩
    by_contra hge
    rw [column, getD_of_size_le (by omega)] at ht
    exact absurd ht List.not_mem_nil

theorem row_dropPosition (a : Active α) (i j k : Nat) : (a.dropPosition i j).row k =
    if i = k ∧ k < a.rows.size then swapRemove (fun l => l == j) (a.row k) else a.row k :=
  getD_modify ..

theorem row_nodup_dropPosition (hnodup : ∀ k, (a.row k).Nodup) (i j k : Nat) :
    ((a.dropPosition i j).row k).Nodup := by
  rw [row_dropPosition]
  split
  · exact nodup_swapRemove_item (hnodup k) j
  · exact hnodup k

theorem mem_row_dropPosition (hnodup : ∀ k, (a.row k).Nodup) {i j k l : Nat} :
    l ∈ (a.dropPosition i j).row k ↔ l ∈ a.row k ∧ ¬ (k = i ∧ l = j) := by
  rw [row_dropPosition]
  split
  · rename_i hk
    rw [mem_swapRemove_item (hnodup k)]
    exact and_congr_right fun _ => ⟨fun hne h => hne h.2, fun hne h => hne ⟨hk.1.symm, h⟩⟩
  · rename_i hk
    refine ⟨fun hl => ⟨hl, fun h => hk ⟨h.1.symm, ?_⟩⟩, And.left⟩
    by_contra hge
    rw [row, getD_of_size_le (by omega)] at hl
    exact absurd hl List.not_mem_nil

theorem foldl_dropPosition_spec (hnodup : ∀ k, (a.row k).Nodup) (j : Nat)
    (line : List (Nat × α)) :
    (line.foldl (fun a t => a.dropPosition t.1 j) a).columns = a.columns ∧
    (line.foldl (fun a t => a.dropPosition t.1 j) a).rows.size = a.rows.size ∧
    (∀ k, ((line.foldl (fun a t => a.dropPosition t.1 j) a).row k).Nodup) ∧
    ∀ k l, l ∈ (line.foldl (fun a t => a.dropPosition t.1 j) a).row k ↔
      l ∈ a.row k ∧ ¬ (l = j ∧ ∃ x, (k, x) ∈ line) := by
  induction line generalizing a with
  | nil => exact ⟨rfl, rfl, hnodup, fun k l => by simp⟩
  | cons t line ih =>
    obtain ⟨hcolumns, hsize, hkeep, hmem⟩ := ih (row_nodup_dropPosition hnodup t.1 j)
    refine ⟨hcolumns, hsize.trans Array.size_modify, hkeep, fun k l => ?_⟩
    rw [List.foldl_cons, hmem, mem_row_dropPosition hnodup]
    obtain ⟨i, y⟩ := t
    simp only [List.mem_cons, Prod.mk.injEq]
    constructor
    · rintro ⟨⟨hl, hne⟩, hrest⟩
      refine ⟨hl, ?_⟩
      rintro ⟨rfl, x, ⟨rfl, rfl⟩ | hx⟩
      · exact hne ⟨rfl, rfl⟩
      · exact hrest ⟨rfl, x, hx⟩
    · rintro ⟨hl, hne⟩
      exact ⟨⟨hl, fun h => hne ⟨h.2, y, Or.inl ⟨h.1, rfl⟩⟩⟩,
        fun h => hne ⟨h.1, h.2.choose, Or.inr h.2.choose_spec⟩⟩

/-- Emptying a column together with its positions. -/
theorem WellFormed.clearColumn (h : a.WellFormed m) (j : Nat) {line : List (Nat × α)}
    (hline : ∀ i, (∃ x, (i, x) ∈ line) ↔ ∃ x, (i, x) ∈ a.column j) {b : Active α}
    (hcolumns : b.columns = a.columns.setIfInBounds j [])
    (hrows : b.rows = (line.foldl (fun a t => a.dropPosition t.1 j) a).rows) :
    b.WellFormed m ∧ (∀ l t, t ∈ b.column l ↔ t ∈ a.column l ∧ l ≠ j) := by
  obtain ⟨-, hsize, hkeep, hmem⟩ := foldl_dropPosition_spec h.row_nodup j line
  have hcolumn : ∀ l t, t ∈ b.column l ↔ t ∈ a.column l ∧ l ≠ j := by
    intro l t
    rw [column, hcolumns, getD_setIfInBounds_default]
    by_cases hl : j = l
    · rw [if_pos hl]
      exact ⟨fun ht => absurd ht List.not_mem_nil, fun ht => absurd hl.symm ht.2⟩
    · rw [if_neg hl]
      exact ⟨fun ht => ⟨ht, Ne.symm hl⟩, And.left⟩
  have hrow : ∀ i l, l ∈ b.row i ↔ l ∈ a.row i ∧ ¬ (l = j ∧ ∃ x, (i, x) ∈ line) := by
    intro i l
    rw [row, hrows]
    exact hmem i l
  refine ⟨⟨?_, ?_, fun l => ?_, fun i => ?_, fun i l => ?_⟩, hcolumn⟩
  · rw [hcolumns, Array.size_setIfInBounds, h.size_columns]
  · rw [hrows, hsize, h.size_rows]
  · rw [column, hcolumns, getD_setIfInBounds_default]
    split
    · exact distinctKeys_nil
    · exact h.column_keys l
  · rw [row, hrows]
    exact hkeep i
  · rw [hrow, h.mem_row, hline]
    constructor
    · rintro ⟨⟨x, hx⟩, hne⟩
      exact ⟨x, (hcolumn l _).mpr ⟨hx, fun e => hne ⟨e, x, e ▸ hx⟩⟩⟩
    · rintro ⟨x, hx⟩
      obtain ⟨hx, hne⟩ := (hcolumn l _).mp hx
      exact ⟨⟨x, hx⟩, fun h' => hne h'.1⟩

/-! ## Taking out a row -/

/-- Take the entry in one column out of a row. -/
def takeEntry (i : Nat) (s : Active α × List (Nat × α)) (j : Nat) : Active α × List (Nat × α) :=
  match (s.1.column j).lookup i with
  | some x => (s.1.dropEntry i j, s.2 ++ [(j, x)])
  | none => s

theorem takeRow_eq_foldl (a : Active α) (i : Nat) (columns : List Nat) :
    a.takeRow i columns =
      columns.foldl (takeEntry i) ({ a with rows := a.rows.setIfInBounds i [] }, []) := rfl

theorem touches_takeRow {i : Nat} (hi : i ∈ rows) (a : Active α) {taken : List Nat}
    (htaken : ∀ j ∈ taken, j ∈ columns) : Touches rows columns a (a.takeRow i taken).1 := by
  have hfold : ∀ s : Active α × List (Nat × α),
      Touches rows columns s.1 (taken.foldl (takeEntry i) s).1 := by
    induction taken with
    | nil => exact fun s => .refl rows columns s.1
    | cons j taken ih =>
      intro s
      refine Touches.trans (b := (takeEntry i s j).1) ?_
        (ih (fun k hk => htaken k (List.mem_cons_of_mem j hk)) _)
      rw [takeEntry]
      split
      · exact touches_dropEntry (htaken j List.mem_cons_self) s.1 i
      · exact .refl rows columns s.1
  exact (touches_setRow hi a []).trans (hfold ({ a with rows := a.rows.setIfInBounds i [] }, []))

theorem foldl_takeEntry_spec (i : Nat) {columns : List Nat} (hnodup : columns.Nodup)
    {s : Active α × List (Nat × α)} (hkeys : ∀ l, DistinctKeys (s.1.column l))
    (hentry : ∀ j ∈ columns, ∃ x, (i, x) ∈ s.1.column j) :
    (columns.foldl (takeEntry i) s).1.rows = s.1.rows ∧
    (columns.foldl (takeEntry i) s).1.columns.size = s.1.columns.size ∧
    (∀ l, DistinctKeys ((columns.foldl (takeEntry i) s).1.column l)) ∧
    (∀ l t, t ∈ (columns.foldl (takeEntry i) s).1.column l ↔
      t ∈ s.1.column l ∧ ¬ (l ∈ columns ∧ t.1 = i)) ∧
    (columns.foldl (takeEntry i) s).2.map Prod.fst = s.2.map Prod.fst ++ columns ∧
    ∀ t ∈ (columns.foldl (takeEntry i) s).2, t ∈ s.2 ∨ (i, t.2) ∈ s.1.column t.1 := by
  induction columns generalizing s with
  | nil =>
    exact ⟨rfl, rfl, hkeys, fun l t => by simp, (List.append_nil _).symm,
      fun t ht => Or.inl ht⟩
  | cons j columns ih =>
    have hj := List.nodup_cons.mp hnodup
    obtain ⟨x, hx⟩ := hentry j List.mem_cons_self
    have hstep : takeEntry i s j = (s.1.dropEntry i j, s.2 ++ [(j, x)]) := by
      rw [takeEntry, (lookup_eq_some_iff (hkeys j)).mpr hx]
    have hdrop : ∀ l t, t ∈ (s.1.dropEntry i j).column l ↔
        t ∈ s.1.column l ∧ ¬ (l = j ∧ t.1 = i) := fun l t => mem_column_dropEntry hkeys
    have hrest : ∀ l ∈ columns, ∃ x, (i, x) ∈ (s.1.dropEntry i j).column l := by
      intro l hl
      obtain ⟨y, hy⟩ := hentry l (List.mem_cons_of_mem j hl)
      exact ⟨y, (hdrop l _).mpr ⟨hy, fun e => hj.1 (e.1 ▸ hl)⟩⟩
    obtain ⟨hrows, hsize, hkeys', hmem, hfst, htaken⟩ :=
      ih (s := (s.1.dropEntry i j, s.2 ++ [(j, x)])) hj.2 (keys_dropEntry hkeys i j) hrest
    rw [List.foldl_cons, hstep]
    refine ⟨hrows, hsize.trans Array.size_modify, hkeys', fun l t => ?_, ?_, fun t ht => ?_⟩
    · rw [hmem, hdrop, List.mem_cons]
      constructor
      · rintro ⟨⟨ht, hne⟩, hne'⟩
        exact ⟨ht, fun e => e.1.elim (fun e' => hne ⟨e', e.2⟩) fun e' => hne' ⟨e', e.2⟩⟩
      · rintro ⟨ht, hne⟩
        exact ⟨⟨ht, fun e => hne ⟨Or.inl e.1, e.2⟩⟩, fun e => hne ⟨Or.inr e.1, e.2⟩⟩
    · rw [hfst, List.map_append, List.append_assoc]
      rfl
    · rcases htaken t ht with ht | ht
      · rcases List.mem_append.mp ht with ht | ht
        · exact Or.inl ht
        · rw [List.mem_singleton.mp ht]
          exact Or.inr hx
      · exact Or.inr ((hdrop _ _).mp ht).1

/-! ## Stripping a row and a column -/

/-- The columns other than that of a pivot that have an entry in its row. -/
def others (a : Active α) (row column : Nat) : List Nat :=
  (a.row row).filter fun j => j != column

/-- The entries of the column of a pivot in other rows. -/
def below (a : Active α) (row column : Nat) : List (Nat × α) :=
  ((a.takeRow row (a.others row column)).1.column column).filter fun t => t.1 != row

/-- What is left of a submatrix without the row and the column of a pivot. -/
def strip (a : Active α) (row column : Nat) : Active α :=
  let b := (a.below row column).foldl (fun a t => a.dropPosition t.1 column)
    (a.takeRow row (a.others row column)).1
  { b with columns := b.columns.setIfInBounds column [] }

theorem columns_strip (a : Active α) (row column : Nat) : (a.strip row column).columns =
    ((a.below row column).foldl (fun a t => a.dropPosition t.1 column)
      (a.takeRow row (a.others row column)).1).columns.setIfInBounds column [] := by
  dsimp only [strip]

theorem rows_strip (a : Active α) (row column : Nat) : (a.strip row column).rows =
    ((a.below row column).foldl (fun a t => a.dropPosition t.1 column)
      (a.takeRow row (a.others row column)).1).rows := by
  dsimp only [strip]

theorem row_strip (a : Active α) (row column i : Nat) : (a.strip row column).row i =
    ((a.below row column).foldl (fun a t => a.dropPosition t.1 column)
      (a.takeRow row (a.others row column)).1).row i := by
  rw [Active.row, Active.row, rows_strip]

/-- Stripping touches the row and the column of the pivot, and what they cross. -/
theorem touches_strip (a : Active α) (row column : Nat) :
    Touches (row :: (a.below row column).map Prod.fst) (column :: a.others row column) a
      (a.strip row column) := by
  refine (touches_takeRow List.mem_cons_self a fun j hj => List.mem_cons_of_mem column hj).trans ?_
  refine Touches.trans (touches_foldl (fun b t ht => touches_dropPosition ?_ b column) _)
    (touches_setColumn List.mem_cons_self _ [])
  exact List.mem_cons_of_mem row (List.mem_map.mpr ⟨t, ht, rfl⟩)

section Strip

variable (h : a.WellFormed m) (row column : Nat)

include h

theorem WellFormed.mem_others {j : Nat} :
    j ∈ a.others row column ↔ j ≠ column ∧ ∃ x, (row, x) ∈ a.column j := by
  rw [others, List.mem_filter, h.mem_row, bne_iff_ne, and_comm]

theorem WellFormed.takeRow_others :
    (a.takeRow row (a.others row column)).1.rows = a.rows.setIfInBounds row [] ∧
    (a.takeRow row (a.others row column)).1.columns.size = m ∧
    (∀ l, DistinctKeys ((a.takeRow row (a.others row column)).1.column l)) ∧
    ∀ l t, t ∈ (a.takeRow row (a.others row column)).1.column l ↔
      t ∈ a.column l ∧ (t.1 = row → l = column) := by
  obtain ⟨hrows, hsize, hkeys, hmem, -, -⟩ := foldl_takeEntry_spec row
    ((h.row_nodup row).filter fun j => j != column)
    (s := ({ a with rows := a.rows.setIfInBounds row [] }, [])) h.column_keys
    (fun j hj => ((h.mem_others ..).mp hj).2)
  refine ⟨hrows, hsize.trans h.size_columns, hkeys, fun l t => (hmem l t).trans ?_⟩
  refine and_congr_right fun ht => ?_
  rw [not_and', show l ∈ (a.row row).filter (fun j => j != column) ↔ _ from (h.mem_others ..)]
  refine forall_congr' fun e =>
    ⟨fun hne => by_contra fun hl => hne ⟨hl, t.2, ?_⟩, fun hl hne => hne.1 hl⟩
  rw [← e]
  exact ht

theorem WellFormed.below_spec : DistinctKeys (a.below row column) ∧
    ∀ t, t ∈ a.below row column ↔ t ∈ a.column column ∧ t.1 ≠ row := by
  obtain ⟨-, -, hkeys, hmem⟩ := h.takeRow_others row column
  refine ⟨(hkeys column).filter _, fun t => ?_⟩
  rw [below, List.mem_filter, hmem, bne_iff_ne]
  exact and_congr_left fun _ => ⟨And.left, fun ht => ⟨ht, fun _ => rfl⟩⟩

theorem WellFormed.strip_spec : (a.strip row column).WellFormed m ∧
    ∀ l t, t ∈ (a.strip row column).column l ↔ t ∈ a.column l ∧ t.1 ≠ row ∧ l ≠ column := by
  obtain ⟨hrows, hsize, hkeys, hmem⟩ := h.takeRow_others row column
  obtain ⟨-, hbelow⟩ := h.below_spec row column
  have hrow : ∀ i, (a.takeRow row (a.others row column)).1.row i =
      if i = row then [] else a.row i := by
    intro i
    rw [Active.row, hrows]
    exact (getD_setIfInBounds_default ..).trans (if_congr eq_comm rfl rfl)
  have hnodup : ∀ i, ((a.takeRow row (a.others row column)).1.row i).Nodup := by
    intro i
    rw [hrow]
    split
    · exact List.nodup_nil
    · exact h.row_nodup i
  obtain ⟨hcolumns, hsize', hkeep, hpositions⟩ :=
    foldl_dropPosition_spec hnodup column (a.below row column)
  have hget : ∀ l, (a.strip row column).column l = if column = l then [] else
      (a.takeRow row (a.others row column)).1.column l := by
    intro l
    rw [Active.column, columns_strip, hcolumns]
    exact getD_setIfInBounds_default ..
  have hcolumn : ∀ l t, t ∈ (a.strip row column).column l ↔
      t ∈ a.column l ∧ t.1 ≠ row ∧ l ≠ column := by
    intro l t
    rw [hget]
    split
    · rename_i hl
      exact ⟨fun ht => absurd ht List.not_mem_nil, fun ht => absurd hl.symm ht.2.2⟩
    · rename_i hl
      rw [hmem]
      exact and_congr_right fun _ =>
        ⟨fun e => ⟨fun e' => Ne.symm hl (e e'), Ne.symm hl⟩, fun e e' => absurd e' e.1⟩
  refine ⟨⟨?_, ?_, fun l => ?_, fun i => ?_, fun i l => ?_⟩, hcolumn⟩
  · rw [columns_strip, Array.size_setIfInBounds, hcolumns, hsize]
  · rw [rows_strip, hsize', hrows, Array.size_setIfInBounds, h.size_rows]
  · rw [hget]
    split
    · exact distinctKeys_nil
    · exact hkeys l
  · rw [row_strip]
    exact hkeep i
  · rw [row_strip, hpositions]
    simp only [hrow, hcolumn, hbelow]
    by_cases hi : i = row
    · rw [if_pos hi]
      exact ⟨fun e => absurd e.1 List.not_mem_nil, fun ⟨x, hx⟩ => absurd hi hx.2.1⟩
    · rw [if_neg hi, h.mem_row]
      constructor
      · rintro ⟨⟨x, hx⟩, hne⟩
        exact ⟨x, hx, hi, fun e => hne ⟨e, x, e ▸ hx, hi⟩⟩
      · rintro ⟨x, hx, -, hne⟩
        exact ⟨⟨x, hx⟩, fun e => hne e.1⟩

end Strip

/-! ## Adding to an entry -/

def replaceEntry (a : Active α) (i j : Nat) (x : α) : Active α :=
  { a with columns := a.columns.modify j fun column =>
      column.set (column.findIdx fun t => t.1 == i) (i, x) }

def appendEntry (a : Active α) (i j : Nat) (x : α) : Active α :=
  { a with
    columns := a.columns.modify j (· ++ [(i, x)])
    rows := a.rows.modify i (· ++ [j]) }

section

variable (h : a.WellFormed m) {i j : Nat}

include h

theorem WellFormed.dropPair (i j : Nat) : ((a.dropEntry i j).dropPosition i j).WellFormed m ∧
    ∀ l t, t ∈ ((a.dropEntry i j).dropPosition i j).column l ↔
      t ∈ a.column l ∧ ¬ (l = j ∧ t.1 = i) := by
  have hcolumn : ∀ l t, t ∈ ((a.dropEntry i j).dropPosition i j).column l ↔
      t ∈ a.column l ∧ ¬ (l = j ∧ t.1 = i) := fun l t => mem_column_dropEntry h.column_keys
  refine ⟨⟨?_, ?_, fun l => keys_dropEntry h.column_keys i j l, ?_, fun k l => ?_⟩, hcolumn⟩
  · exact Array.size_modify.trans h.size_columns
  · exact Array.size_modify.trans h.size_rows
  · exact fun k => row_nodup_dropPosition (a := a.dropEntry i j) h.row_nodup i j k
  · rw [mem_row_dropPosition (a := a.dropEntry i j) h.row_nodup, row_dropEntry, h.mem_row]
    simp only [hcolumn]
    constructor
    · rintro ⟨⟨x, hx⟩, hne⟩
      exact ⟨x, hx, fun e => hne ⟨e.2, e.1⟩⟩
    · rintro ⟨x, hx, hne⟩
      exact ⟨⟨x, hx⟩, fun e => hne ⟨e.2, e.1⟩⟩

theorem WellFormed.replaceEntry {x y : α} (hy : (i, y) ∈ a.column j) :
    (a.replaceEntry i j x).WellFormed m ∧ ∀ l t, t ∈ (a.replaceEntry i j x).column l ↔
      if l = j ∧ t.1 = i then t.2 = x else t ∈ a.column l := by
  have hget : ∀ l, (a.replaceEntry i j x).column l = if j = l ∧ l < a.columns.size then
      (a.column l).set ((a.column l).findIdx fun t => t.1 == i) (i, x) else a.column l :=
    fun l => getD_modify ..
  have hcolumn : ∀ l t, t ∈ (a.replaceEntry i j x).column l ↔
      if l = j ∧ t.1 = i then t.2 = x else t ∈ a.column l := by
    intro l t
    rw [hget]
    by_cases hl : l = j
    · subst hl
      rw [if_pos ⟨rfl, h.size_columns ▸ h.column_lt hy⟩, mem_set_findIdx (h.column_keys l) hy]
      obtain ⟨k, z⟩ := t
      by_cases hk : k = i
      · rw [if_pos ⟨rfl, hk⟩, Prod.mk.injEq]
        exact ⟨fun e => e.elim And.right fun e => absurd hk e.2, fun e => Or.inl ⟨hk, e⟩⟩
      · rw [if_neg fun e => hk e.2, Prod.mk.injEq]
        exact ⟨fun e => e.elim (fun e => absurd e.1 hk) And.left, fun e => Or.inr ⟨e, hk⟩⟩
    · rw [if_neg fun e => hl e.1.symm, if_neg fun e => hl e.1]
  refine ⟨⟨Array.size_modify.trans h.size_columns, h.size_rows, fun l => ?_, h.row_nodup,
    fun k l => (h.mem_row k l).trans ?_⟩, hcolumn⟩
  · rw [hget]
    split
    · rw [DistinctKeys, map_fst_set_findIdx]
      exact h.column_keys l
    · exact h.column_keys l
  · simp only [hcolumn]
    by_cases he : l = j ∧ k = i
    · obtain ⟨rfl, rfl⟩ := he
      exact ⟨fun _ => ⟨x, by rw [if_pos ⟨rfl, rfl⟩]⟩, fun _ => ⟨y, hy⟩⟩
    · simp only [if_neg he]

theorem WellFormed.appendEntry (hi : i < m) (hj : j < m) {x : α}
    (hnew : ∀ y, (i, y) ∉ a.column j) :
    (a.appendEntry i j x).WellFormed m ∧ ∀ l t, t ∈ (a.appendEntry i j x).column l ↔
      t ∈ a.column l ∨ l = j ∧ t = (i, x) := by
  have hget : ∀ l, (a.appendEntry i j x).column l = if j = l ∧ l < a.columns.size then
      a.column l ++ [(i, x)] else a.column l := fun l => getD_modify ..
  have hrow : ∀ k, (a.appendEntry i j x).row k = if i = k ∧ k < a.rows.size then
      a.row k ++ [j] else a.row k := fun k => getD_modify ..
  have hcolumn : ∀ l t, t ∈ (a.appendEntry i j x).column l ↔
      t ∈ a.column l ∨ l = j ∧ t = (i, x) := by
    intro l t
    rw [hget]
    by_cases hl : l = j
    · subst hl
      rw [if_pos ⟨rfl, by rw [h.size_columns]; exact hj⟩, List.mem_append, List.mem_singleton]
      exact or_congr_right ⟨fun e => ⟨rfl, e⟩, And.right⟩
    · rw [if_neg fun e => hl e.1.symm]
      exact ⟨Or.inl, fun e => e.elim id fun e => absurd e.1 hl⟩
  have hnot : j ∉ a.row i := fun hmem => hnew _ ((h.mem_row i j).mp hmem).choose_spec
  refine ⟨⟨Array.size_modify.trans h.size_columns, Array.size_modify.trans h.size_rows,
    fun l => ?_, fun k => ?_, fun k l => ?_⟩, hcolumn⟩
  · rw [hget]
    split
    · rename_i hl
      rw [distinctKeys_append_singleton]
      exact ⟨h.column_keys l, hl.1 ▸ hnew⟩
    · exact h.column_keys l
  · rw [hrow]
    split
    · rename_i hk
      exact nodup_append_singleton.mpr ⟨h.row_nodup k, hk.1 ▸ hnot⟩
    · exact h.row_nodup k
  · simp only [hcolumn, Prod.mk.injEq]
    have hmem : l ∈ (a.appendEntry i j x).row k ↔ l ∈ a.row k ∨ l = j ∧ k = i := by
      rw [hrow]
      by_cases hk : k = i
      · rw [if_pos ⟨hk.symm, by rw [h.size_rows, hk]; exact hi⟩, List.mem_append,
          List.mem_singleton]
        exact or_congr_right ⟨fun e => ⟨e, hk⟩, And.left⟩
      · rw [if_neg fun e => hk e.1.symm]
        exact ⟨Or.inl, fun e => e.elim id fun e => absurd e.2 hk⟩
    rw [hmem, h.mem_row]
    constructor
    · rintro (⟨y, hy⟩ | ⟨rfl, rfl⟩)
      · exact ⟨y, Or.inl hy⟩
      · exact ⟨x, Or.inr ⟨rfl, rfl, rfl⟩⟩
    · rintro ⟨y, hy | ⟨rfl, rfl, -⟩⟩
      · exact Or.inl ⟨y, hy⟩
      · exact Or.inr ⟨rfl, rfl⟩

variable [Scalar α]

/-- Adding to an entry drops it, replaces it, makes it or does nothing. -/
theorem WellFormed.addAt_cases (i j : Nat) (delta : α) :
    (∃ x, (i, x) ∈ a.column j ∧ isTiny (x + delta) = true ∧
      a.addAt i j delta = (a.dropEntry i j).dropPosition i j) ∨
    (∃ x, (i, x) ∈ a.column j ∧ isTiny (x + delta) = false ∧
      a.addAt i j delta = a.replaceEntry i j (x + delta)) ∨
    ((∀ x, (i, x) ∉ a.column j) ∧ isSignificant delta = true ∧
      a.addAt i j delta = a.appendEntry i j delta) ∨
    ((∀ x, (i, x) ∉ a.column j) ∧ isSignificant delta = false ∧ a.addAt i j delta = a) := by
  rw [addAt]
  cases hlookup : (a.column j).lookup i with
  | some x =>
    have hx := (lookup_eq_some_iff (h.column_keys j)).mp hlookup
    by_cases htiny : isTiny (x + delta) = true
    · exact Or.inl ⟨x, hx, htiny, if_pos htiny⟩
    · exact Or.inr (Or.inl ⟨x, hx, Bool.eq_false_iff.mpr htiny, if_neg htiny⟩)
  | none =>
    have hnew := lookup_eq_none_iff'.mp hlookup
    by_cases hsig : isSignificant delta = true
    · exact Or.inr (Or.inr (Or.inl ⟨hnew, hsig, if_pos hsig⟩))
    · exact Or.inr (Or.inr (Or.inr ⟨hnew, Bool.eq_false_iff.mpr hsig, if_neg hsig⟩))

theorem WellFormed.addAt (hi : i < m) (hj : j < m) (delta : α) :
    (a.addAt i j delta).WellFormed m ∧ ∀ l t, ¬ (l = j ∧ t.1 = i) →
      (t ∈ (a.addAt i j delta).column l ↔ t ∈ a.column l) := by
  rcases h.addAt_cases i j delta with ⟨x, -, -, he⟩ | ⟨x, hx, -, he⟩ | ⟨hnew, -, he⟩ | ⟨-, -, he⟩
  · obtain ⟨hw, hmem⟩ := h.dropPair i j
    exact he ▸ ⟨hw, fun l t hne => (hmem l t).trans ⟨And.left, fun ht => ⟨ht, hne⟩⟩⟩
  · obtain ⟨hw, hmem⟩ := h.replaceEntry (x := x + delta) hx
    exact he ▸ ⟨hw, fun l t hne => (hmem l t).trans (by rw [if_neg hne])⟩
  · obtain ⟨hw, hmem⟩ := h.appendEntry hi hj (x := delta) hnew
    refine he ▸ ⟨hw, fun l t hne => (hmem l t).trans ⟨fun e => e.elim id fun e => ?_, Or.inl⟩⟩
    exact absurd ⟨e.1, by rw [e.2]⟩ hne
  · rw [he]
    exact ⟨h, fun _ _ _ => Iff.rfl⟩

end

variable [Scalar α]

/-! ## Subtracting a product -/

theorem touches_addAt {i j : Nat} (hi : i ∈ rows) (hj : j ∈ columns) (a : Active α) (delta : α) :
    Touches rows columns a (a.addAt i j delta) := by
  rw [addAt]
  split
  · rename_i x _
    show Touches rows columns a (if isTiny (x + delta) then _ else _)
    split
    · exact (touches_dropEntry hj a i).trans (touches_dropPosition hi _ j)
    · exact touches_modifyColumn hj a _
  · split
    · exact (touches_modifyColumn hj a (· ++ [(i, delta)])).trans (touches_modifyRow hi _ (· ++ [j]))
    · exact .refl rows columns a

theorem touches_subtractProduct {lowerColumn upperRow : List (Nat × α)}
    (hlower : ∀ t ∈ lowerColumn, t.1 ∈ rows) (hupper : ∀ u ∈ upperRow, u.1 ∈ columns)
    (a : Active α) : Touches rows columns a (a.subtractProduct lowerColumn upperRow) :=
  touches_foldl (fun b t ht => touches_foldl
    (fun c u hu => touches_addAt (hlower t ht) (hupper u hu) c _) b) a

theorem subtractProduct_cons (a : Active α) (t : Nat × α) (lowerColumn upperRow : List (Nat × α)) :
    a.subtractProduct (t :: lowerColumn) upperRow =
      (upperRow.foldl (fun a u => a.addAt t.1 u.1 (-t.2 * u.2)) a).subtractProduct
        lowerColumn upperRow := rfl

theorem WellFormed.subtractMultiple (h : a.WellFormed m) {i : Nat} (hi : i < m) (x : α)
    {upperRow : List (Nat × α)} (hupper : ∀ u ∈ upperRow, u.1 < m) :
    (upperRow.foldl (fun a u => a.addAt i u.1 (-x * u.2)) a).WellFormed m ∧
    ∀ l t, ¬ (t.1 = i ∧ ∃ u ∈ upperRow, u.1 = l) →
      (t ∈ (upperRow.foldl (fun a u => a.addAt i u.1 (-x * u.2)) a).column l ↔
        t ∈ a.column l) := by
  induction upperRow generalizing a with
  | nil => exact ⟨h, fun _ _ _ => Iff.rfl⟩
  | cons u upperRow ih =>
    obtain ⟨hw, hmem⟩ := h.addAt hi (hupper u List.mem_cons_self) (-x * u.2)
    obtain ⟨hw', hmem'⟩ := ih hw fun w hu => hupper w (List.mem_cons_of_mem u hu)
    refine ⟨hw', fun l t hne => ?_⟩
    refine (hmem' l t fun e => hne ⟨e.1, ?_⟩).trans (hmem l t fun e => hne ⟨e.2, u, ?_, e.1.symm⟩)
    · obtain ⟨w, hw, e⟩ := e.2
      exact ⟨w, List.mem_cons_of_mem u hw, e⟩
    · exact List.mem_cons_self

/-- Only entries that lie in a row of the one and in a column of the other
factor change. -/
theorem WellFormed.subtractProduct (h : a.WellFormed m) {lowerColumn upperRow : List (Nat × α)}
    (hlower : ∀ t ∈ lowerColumn, t.1 < m) (hupper : ∀ u ∈ upperRow, u.1 < m) :
    (a.subtractProduct lowerColumn upperRow).WellFormed m ∧
    ∀ l t, ¬ ((∃ s ∈ lowerColumn, s.1 = t.1) ∧ ∃ u ∈ upperRow, u.1 = l) →
      (t ∈ (a.subtractProduct lowerColumn upperRow).column l ↔ t ∈ a.column l) := by
  induction lowerColumn generalizing a with
  | nil => exact ⟨h, fun _ _ _ => Iff.rfl⟩
  | cons s lowerColumn ih =>
    rw [subtractProduct_cons]
    obtain ⟨hw, hmem⟩ := h.subtractMultiple (hlower s List.mem_cons_self) s.2 hupper
    obtain ⟨hw', hmem'⟩ := ih hw fun r hr => hlower r (List.mem_cons_of_mem s hr)
    refine ⟨hw', fun l t hne => ?_⟩
    refine (hmem' l t fun e => hne ⟨?_, e.2⟩).trans (hmem l t fun e => hne ⟨⟨s, ?_, ?_⟩, e.2⟩)
    · obtain ⟨r, hr, e⟩ := e.1
      exact ⟨r, List.mem_cons_of_mem s hr, e⟩
    · exact List.mem_cons_self
    · exact e.1.symm

/-! ## Eliminating -/

theorem columns_giveUp (a : Active α) (j : Nat) : (a.giveUp j).columns =
    (((a.column j).map Prod.fst).foldl (fun a i => a.dropPosition i j) a).columns.setIfInBounds
      j [] := rfl

theorem rows_giveUp (a : Active α) (j : Nat) : (a.giveUp j).rows =
    (((a.column j).map Prod.fst).foldl (fun a i => a.dropPosition i j) a).rows := rfl

section Eliminate

variable (a) (row column : Nat) (pivot : α)

theorem upperRow_eliminate : (a.eliminate row column pivot).upperRow =
    (a.takeRow row (a.others row column)).2 := rfl

theorem lowerColumn_eliminate : (a.eliminate row column pivot).lowerColumn =
    (a.below row column).map fun t => (t.1, t.2 / pivot) := rfl

theorem columns_eliminate : (a.eliminate row column pivot).active.columns =
    ((a.strip row column).subtractProduct (a.eliminate row column pivot).lowerColumn
      (a.eliminate row column pivot).upperRow).columns := by
  dsimp only [eliminate, recount, strip, below, others]

theorem columnsByCount_eliminate : (a.eliminate row column pivot).active.columnsByCount =
    (a.others row column).foldl
      (fun l j => l.update j ((a.eliminate row column pivot).active.column j).length)
      (((a.strip row column).subtractProduct (a.eliminate row column pivot).lowerColumn
        (a.eliminate row column pivot).upperRow).columnsByCount.remove column) := by
  dsimp only [eliminate, recount, strip, below, others]
  rfl

theorem column_eliminate (l : Nat) : (a.eliminate row column pivot).active.column l =
    ((a.strip row column).subtractProduct (a.eliminate row column pivot).lowerColumn
      (a.eliminate row column pivot).upperRow).column l := by
  rw [Active.column, Active.column, columns_eliminate]

theorem rows_eliminate : (a.eliminate row column pivot).active.rows =
    ((a.strip row column).subtractProduct (a.eliminate row column pivot).lowerColumn
      (a.eliminate row column pivot).upperRow).rows := by
  dsimp only [eliminate, recount, strip, below, others]

theorem m_eliminate : (a.eliminate row column pivot).active.m =
    ((a.strip row column).subtractProduct (a.eliminate row column pivot).lowerColumn
      (a.eliminate row column pivot).upperRow).m := by
  dsimp only [eliminate, recount, strip, below, others]

end Eliminate

theorem m_giveUp (a : Active α) (j : Nat) : (a.giveUp j).m = a.m :=
  (a.touches_dropColumn j).m

theorem columnsByCount_giveUp (a : Active α) (j : Nat) :
    (a.giveUp j).columnsByCount = a.columnsByCount.remove j :=
  congrArg (CountBuckets.remove · j) (a.touches_dropColumn j).columnsByCount

section Parts

variable (h : a.WellFormed m) (row column : Nat)

include h

/-- The row of the upper factor. -/
theorem WellFormed.upperRow_spec (pivot : α) :
    DistinctKeys (a.eliminate row column pivot).upperRow ∧
    ∀ j x, (j, x) ∈ (a.eliminate row column pivot).upperRow ↔
      j ≠ column ∧ (row, x) ∈ a.column j := by
  obtain ⟨-, -, -, -, hfst, htaken⟩ := foldl_takeEntry_spec row
    ((h.row_nodup row).filter fun j => j != column)
    (s := ({ a with rows := a.rows.setIfInBounds row [] }, [])) h.column_keys
    (fun j hj => ((h.mem_others ..).mp hj).2)
  rw [← others, ← takeRow_eq_foldl] at hfst htaken
  rw [upperRow_eliminate]
  have hvalue : ∀ {j y}, (j, y) ∈ (a.takeRow row (a.others row column)).2 →
      (row, y) ∈ a.column j := fun hy =>
    (htaken _ hy).elim (fun hy => absurd hy List.not_mem_nil) id
  refine ⟨?_, fun j x => ⟨fun hx => ⟨?_, hvalue hx⟩, fun hx => ?_⟩⟩
  · rw [DistinctKeys, hfst]
    exact (h.row_nodup row).filter _
  · have hkey : j ∈ (a.takeRow row (a.others row column)).2.map Prod.fst :=
      List.mem_map.mpr ⟨_, hx, rfl⟩
    rw [hfst] at hkey
    exact ((h.mem_others ..).mp hkey).1
  · have hkey : j ∈ (a.takeRow row (a.others row column)).2.map Prod.fst := by
      rw [hfst]
      exact (h.mem_others ..).mpr ⟨hx.1, x, hx.2⟩
    obtain ⟨⟨_, y⟩, hy, rfl⟩ := List.mem_map.mp hkey
    exact (h.column_keys _).eq hx.2 (hvalue hy) ▸ hy

/-- The column of the lower factor. -/
theorem WellFormed.lowerColumn_spec (pivot : α) :
    DistinctKeys (a.eliminate row column pivot).lowerColumn ∧
    ∀ i y, (i, y) ∈ (a.eliminate row column pivot).lowerColumn ↔
      i ≠ row ∧ ∃ x, (i, x) ∈ a.column column ∧ y = x / pivot := by
  obtain ⟨hkeys, hmem⟩ := h.below_spec row column
  rw [lowerColumn_eliminate]
  refine ⟨?_, fun i y => ?_⟩
  · rw [DistinctKeys, List.map_map]
    exact hkeys
  · rw [List.mem_map]
    constructor
    · rintro ⟨⟨k, x⟩, ht, he⟩
      obtain ⟨rfl, rfl⟩ := Prod.mk.inj he
      obtain ⟨hx, hne⟩ := (hmem _).mp ht
      exact ⟨hne, x, hx, rfl⟩
    · rintro ⟨hne, x, hx, rfl⟩
      exact ⟨(i, x), (hmem _).mpr ⟨hx, hne⟩, rfl⟩

theorem WellFormed.parts_lt (pivot : α) :
    (∀ u ∈ (a.eliminate row column pivot).upperRow, u.1 < m) ∧
    ∀ t ∈ (a.eliminate row column pivot).lowerColumn, t.1 < m := by
  obtain ⟨-, hupper⟩ := h.upperRow_spec row column pivot
  obtain ⟨-, hlower⟩ := h.lowerColumn_spec row column pivot
  refine ⟨fun u hu => h.column_lt ((hupper u.1 u.2).mp hu).2, fun t ht => ?_⟩
  obtain ⟨x, hx, -⟩ := ((hlower t.1 t.2).mp ht).2
  exact h.row_lt hx

/-- The lines that are not counted anew are as they were before, except those of the pivot. -/
theorem WellFormed.touches_eliminate (pivot : α) :
    Touches (row :: (a.below row column).map Prod.fst) (column :: a.others row column) a
      ((a.strip row column).subtractProduct (a.eliminate row column pivot).lowerColumn
        (a.eliminate row column pivot).upperRow) := by
  obtain ⟨-, hupper⟩ := h.upperRow_spec row column pivot
  refine (touches_strip a row column).trans (touches_subtractProduct (fun t ht => ?_)
    (fun u hu => ?_) _)
  · rw [lowerColumn_eliminate, List.mem_map] at ht
    obtain ⟨s, hs, rfl⟩ := ht
    exact List.mem_cons_of_mem row (List.mem_map.mpr ⟨s, hs, rfl⟩)
  · obtain ⟨hne, hx⟩ := (hupper u.1 u.2).mp hu
    exact List.mem_cons_of_mem column ((h.mem_others ..).mpr ⟨hne, u.2, hx⟩)

/-- Eliminating leaves nothing in the row and the column of the pivot, and changes
only columns that have an entry in its row. -/
theorem WellFormed.eliminate (pivot : α) : (a.eliminate row column pivot).active.WellFormed m ∧
    (∀ l t, t ∈ (a.eliminate row column pivot).active.column l → t.1 ≠ row ∧ l ≠ column) ∧
    ∀ l t, l ≠ column → t.1 ≠ row → (∀ x, (row, x) ∉ a.column l) →
      (t ∈ (a.eliminate row column pivot).active.column l ↔ t ∈ a.column l) := by
  obtain ⟨hstrip, hmem⟩ := h.strip_spec row column
  obtain ⟨-, hupper⟩ := h.upperRow_spec row column pivot
  obtain ⟨-, hlower⟩ := h.lowerColumn_spec row column pivot
  obtain ⟨hupper_lt, hlower_lt⟩ := h.parts_lt row column pivot
  obtain ⟨hw, hsame⟩ := hstrip.subtractProduct hlower_lt hupper_lt
  refine ⟨hw.of_eq (columns_eliminate ..) (rows_eliminate ..), fun l t ht => ?_,
    fun l t hl ht hnone => ?_⟩
  · rw [column_eliminate] at ht
    by_contra hne
    refine hne ((hmem l t).mp ((hsame l t fun e => hne ?_).mp ht)).2
    obtain ⟨⟨⟨i, y⟩, hs, he⟩, ⟨j, x⟩, hu, rfl⟩ := e
    exact ⟨he ▸ ((hlower i y).mp hs).1, ((hupper j x).mp hu).1⟩
  · rw [column_eliminate]
    refine Iff.trans (hsame l t fun e => ?_) ((hmem l t).trans ⟨And.left, fun e => ⟨e, ht, hl⟩⟩)
    obtain ⟨-, ⟨j, x⟩, hu, rfl⟩ := e
    exact hnone x ((hupper j x).mp hu).2

/-- Entries come up only in rows and in columns that have entries. -/
theorem WellFormed.eliminate_source {pivot : α} {l : Nat} {t : Nat × α}
    (ht : t ∈ (a.eliminate row column pivot).active.column l) :
    (∃ j x, (t.1, x) ∈ a.column j) ∧ ∃ t', t' ∈ a.column l := by
  obtain ⟨hstrip, hmem⟩ := h.strip_spec row column
  obtain ⟨-, hupper⟩ := h.upperRow_spec row column pivot
  obtain ⟨-, hlower⟩ := h.lowerColumn_spec row column pivot
  obtain ⟨hupper_lt, hlower_lt⟩ := h.parts_lt row column pivot
  obtain ⟨-, hsame⟩ := hstrip.subtractProduct hlower_lt hupper_lt
  rw [column_eliminate] at ht
  by_cases hproduct : (∃ s ∈ (a.eliminate row column pivot).lowerColumn, s.1 = t.1) ∧
      ∃ u ∈ (a.eliminate row column pivot).upperRow, u.1 = l
  · obtain ⟨⟨s, hs, he⟩, u, hu, rfl⟩ := hproduct
    obtain ⟨x, hx, -⟩ := ((hlower s.1 s.2).mp hs).2
    exact ⟨⟨column, x, he ▸ hx⟩, _, ((hupper u.1 u.2).mp hu).2⟩
  · have hx := ((hmem l t).mp ((hsame l t hproduct).mp ht)).1
    exact ⟨⟨l, t.2, hx⟩, t, hx⟩

theorem WellFormed.giveUp (j : Nat) : (a.giveUp j).WellFormed m ∧
    ∀ l t, t ∈ (a.giveUp j).column l ↔ t ∈ a.column l ∧ l ≠ j := by
  have hfold : ((a.column j).map Prod.fst).foldl (fun a i => a.dropPosition i j) a =
      (a.column j).foldl (fun a t => a.dropPosition t.1 j) a := List.foldl_map
  obtain ⟨hcolumns, -⟩ := foldl_dropPosition_spec h.row_nodup j (a.column j)
  exact h.clearColumn j (fun _ => Iff.rfl) (by rw [columns_giveUp, hfold, hcolumns])
    (by rw [rows_giveUp, hfold])

end Parts

/-! ## What entries are worth -/

section Values

/-- The value at a row and column of an exact submatrix. -/
def entry {cutoff : Rat} (a : Active (Exact cutoff)) (i j : Nat) : ℚ :=
  Exact.coefficient (a.column j) i

variable {a b : Active (Exact 0)} {i j : Nat}

theorem WellFormed.entry_eq (h : a.WellFormed m) {x : Exact 0} (hx : (i, x) ∈ a.column j) :
    a.entry i j = x.value :=
  Exact.coefficient_of_mem (h.column_keys j) hx

theorem entry_eq_zero (h : ∀ x, (i, x) ∉ a.column j) : a.entry i j = 0 :=
  Exact.coefficient_of_notMem fun t ht e => h t.2 (e ▸ ht)

theorem WellFormed.entry_congr (ha : a.WellFormed m) (hb : b.WellFormed m)
    (h : ∀ x, (i, x) ∈ a.column j ↔ (i, x) ∈ b.column j) : a.entry i j = b.entry i j :=
  Exact.coefficient_congr (ha.column_keys j) (hb.column_keys j) h

theorem WellFormed.entry_addAt (h : a.WellFormed m) (hi : i < m) (hj : j < m) (delta : Exact 0)
    (k l : Nat) :
    (a.addAt i j delta).entry k l = a.entry k l + if l = j ∧ k = i then delta.value else 0 := by
  obtain ⟨hw, hsame⟩ := h.addAt hi hj delta
  by_cases he : l = j ∧ k = i
  · obtain ⟨rfl, rfl⟩ := he
    rw [if_pos ⟨rfl, rfl⟩]
    rcases h.addAt_cases k l delta with ⟨x, hx, ht, he⟩ | ⟨x, hx, -, he⟩ | ⟨hnew, -, he⟩ |
      ⟨hnew, hs, he⟩
    · rw [h.entry_eq hx, he, entry_eq_zero]
      · exact (Exact.isTiny_zero_cutoff_iff.mp ht).symm
      · exact fun y hy => (((h.dropPair k l).2 l _).mp hy).2 ⟨rfl, rfl⟩
    · obtain ⟨hw', hmem⟩ := h.replaceEntry (x := x + delta) hx
      rw [h.entry_eq hx, he, hw'.entry_eq ((hmem l (k, x + delta)).mpr (by rw [if_pos ⟨rfl, rfl⟩]))]
      rfl
    · obtain ⟨hw', hmem⟩ := h.appendEntry hi hj (x := delta) hnew
      rw [entry_eq_zero hnew, he, hw'.entry_eq ((hmem l _).mpr (Or.inr ⟨rfl, rfl⟩)), zero_add]
    · rw [he, Exact.isSignificant_eq_false.mp hs, add_zero]
  · rw [if_neg he, add_zero]
    exact hw.entry_congr h fun x => hsame l (k, x) he

theorem WellFormed.entry_subtractMultiple (h : a.WellFormed m) (hi : i < m) (x : Exact 0)
    {upperRow : List (Nat × Exact 0)} (hupper : ∀ u ∈ upperRow, u.1 < m) (k l : Nat) :
    (upperRow.foldl (fun a u => a.addAt i u.1 (-x * u.2)) a).entry k l =
      a.entry k l - (if i = k then x.value else 0) * Exact.coefficient upperRow l := by
  induction upperRow generalizing a with
  | nil => rw [Exact.coefficient_nil, mul_zero, sub_zero]; rfl
  | cons u upperRow ih =>
    have hu := hupper u List.mem_cons_self
    rw [List.foldl_cons, ih (h.addAt hi hu _).1 fun w hw => hupper w (List.mem_cons_of_mem u hw),
      h.entry_addAt hi hu, Exact.coefficient_cons, Exact.value_mul, Exact.value_neg]
    by_cases hk : i = k
    · by_cases hl : u.1 = l
      · rw [if_pos ⟨hl.symm, hk.symm⟩, if_pos hk, if_pos hl]
        ring
      · rw [if_neg fun e => hl e.1.symm, if_pos hk, if_neg hl]
        ring
    · rw [if_neg fun e => hk e.2.symm, if_neg hk]
      ring

theorem WellFormed.entry_subtractProduct (h : a.WellFormed m)
    {lowerColumn upperRow : List (Nat × Exact 0)} (hlower : ∀ t ∈ lowerColumn, t.1 < m)
    (hupper : ∀ u ∈ upperRow, u.1 < m) (k l : Nat) :
    (a.subtractProduct lowerColumn upperRow).entry k l =
      a.entry k l - Exact.coefficient lowerColumn k * Exact.coefficient upperRow l := by
  induction lowerColumn generalizing a with
  | nil => rw [Exact.coefficient_nil, zero_mul, sub_zero]; rfl
  | cons t lowerColumn ih =>
    have ht := hlower t List.mem_cons_self
    rw [subtractProduct_cons, ih (h.subtractMultiple ht t.2 hupper).1
      fun s hs => hlower s (List.mem_cons_of_mem t hs), h.entry_subtractMultiple ht t.2 hupper,
      Exact.coefficient_cons]
    ring

/-! What the factors hold are the row and the scaled column of the pivot. -/

theorem WellFormed.coefficient_upperRow (h : a.WellFormed m) (row column : Nat)
    (pivot : Exact 0) (l : Nat) :
    Exact.coefficient (a.eliminate row column pivot).upperRow l =
      if l = column then 0 else a.entry row l := by
  obtain ⟨hkeys, hupper⟩ := h.upperRow_spec row column pivot
  split
  · rename_i hl
    exact Exact.coefficient_of_notMem fun u hu e => ((hupper u.1 u.2).mp hu).1 (e.trans hl)
  · rename_i hl
    refine Exact.coefficient_congr hkeys (h.column_keys l) fun x => ?_
    rw [hupper]
    exact ⟨And.right, fun hx => ⟨hl, hx⟩⟩

theorem WellFormed.coefficient_lowerColumn (h : a.WellFormed m) (row column : Nat)
    (pivot : Exact 0) (k : Nat) :
    Exact.coefficient (a.eliminate row column pivot).lowerColumn k =
      if k = row then 0 else a.entry k column / pivot.value := by
  obtain ⟨hkeys, hlower⟩ := h.lowerColumn_spec row column pivot
  split
  · rename_i hk
    exact Exact.coefficient_of_notMem fun t ht e => ((hlower t.1 t.2).mp ht).1 (e.trans hk)
  · rename_i hk
    by_cases hx : ∃ x, (k, x) ∈ a.column column
    · obtain ⟨x, hx⟩ := hx
      rw [h.entry_eq hx, Exact.coefficient_of_mem hkeys
        ((hlower k (x / pivot)).mpr ⟨hk, x, hx, rfl⟩)]
      rfl
    · rw [entry_eq_zero fun x hx' => hx ⟨x, hx'⟩, zero_div]
      refine Exact.coefficient_of_notMem fun t ht e => hx ?_
      obtain ⟨x, hx, -⟩ := ((hlower t.1 t.2).mp ht).2
      exact ⟨x, e ▸ hx⟩

theorem WellFormed.entry_strip (h : a.WellFormed m) (row column k l : Nat) :
    (a.strip row column).entry k l = if k = row ∨ l = column then 0 else a.entry k l := by
  obtain ⟨hstrip, hmem⟩ := h.strip_spec row column
  split
  · rename_i he
    exact entry_eq_zero fun x hx => he.elim ((hmem l _).mp hx).2.1 ((hmem l _).mp hx).2.2
  · rename_i he
    refine hstrip.entry_congr h fun x => ?_
    rw [hmem]
    exact ⟨And.left, fun hx => ⟨hx, fun e => he (Or.inl e), fun e => he (Or.inr e)⟩⟩

/-- Eliminating takes from every entry what the pivot accounts for. -/
theorem WellFormed.entry_eliminate (h : a.WellFormed m) {row column : Nat} {pivot : Exact 0}
    (hpivot : (row, pivot) ∈ a.column column) (hne : pivot.value ≠ 0) (k l : Nat) :
    (a.eliminate row column pivot).active.entry k l = a.entry k l -
      ((if k = row then 1 else 0) +
          Exact.coefficient (a.eliminate row column pivot).lowerColumn k) *
        ((if l = column then pivot.value else 0) +
          Exact.coefficient (a.eliminate row column pivot).upperRow l) := by
  obtain ⟨hupper_lt, hlower_lt⟩ := h.parts_lt row column pivot
  have hproduct := (h.strip_spec row column).1.entry_subtractProduct hlower_lt hupper_lt k l
  have hvalue : a.entry row column = pivot.value := h.entry_eq hpivot
  rw [entry, column_eliminate, ← entry, hproduct, h.entry_strip, h.coefficient_upperRow,
    h.coefficient_lowerColumn]
  by_cases hk : k = row
  · subst hk
    by_cases hl : l = column
    · subst hl
      simp [hvalue]
    · simp [hl]
  · by_cases hl : l = column
    · subst hl
      simp only [hk, if_true, if_false, or_true, zero_add, mul_zero, sub_zero, add_zero]
      rw [div_mul_cancel₀ _ hne, sub_self]
    · simp only [hk, hl, if_false, or_self, zero_add]

end Values

end Active
end DualSimplex
