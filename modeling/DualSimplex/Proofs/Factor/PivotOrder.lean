import DualSimplex.Proofs.Factor.UpToDate
import DualSimplex.Proofs.Guarded
import Mathlib.Data.Nat.PSub

/-!
# What the pivot search finds

The search goes through columns and rows by increasing count and often stops early.  An entry
that it has not come across lies in a column and in a row that are both still to come, and the
counts of these bound what a pivot there may fill in.  So a pivot is the cheapest of all, or the
search has looked at as many lines as it may, and then it is the cheapest on these lines.
-/

namespace DualSimplex

open Scalar

variable {α : Type}

deriving instance DecidableEq for Pivot, PivotDecision

/-! ## Lines in the order of the search -/

namespace Active

/-- How many entries a pivot may fill in. -/
def fill (a : Active α) (p : Pivot α) : Nat :=
  ((a.row p.row).length - 1) * ((a.column p.column).length - 1)

/-- A column or a row with the count under which it is found. -/
inductive Line
  | column (count j : Nat)
  | row (count i : Nat)
  deriving DecidableEq

/-- Whether an entry lies on a line. -/
def Line.Meets (p : Pivot α) : Line → Prop
  | .column _ j => p.column = j
  | .row _ i => p.row = i

/-- Lines of lower rank come first. -/
def Line.rank : Line → Nat
  | .column count _ => 2 * count
  | .row count _ => 2 * count + 1

/-- What every entry may fill in that lies on later lines only. -/
def Line.bound : Line → Nat
  | .column count _ => (count - 1) * (count - 1)
  | .row count _ => count * (count - 1)

def linesWith (a : Active α) (count : Nat) : List Line :=
  (a.columnsByCount.items count).map (Line.column count) ++
    (a.rowsByCount.items count).map (Line.row count)

/-- All lines that have entries. -/
def lines (a : Active α) : List Line :=
  (List.range' 1 a.m).flatMap a.linesWith

/-- The entries of a line, as pivots. -/
def pivotsOn [Scalar α] (a : Active α) : Line → List (Pivot α)
  | .column _ j => (a.column j).map fun t => ⟨t.1, j, t.2⟩
  | .row _ i => (a.row i).map fun j => ⟨i, j, a.value i j⟩

/-- A submatrix whose copies agree, whose maxima are right and in which exactly the open lines
are counted.  All entries are on open lines. -/
structure Consistent [Scalar α] (a : Active α) (columnOpen rowOpen : Nat → Prop) : Prop
    extends a.WellFormed a.m, a.UpToDate a.m columnOpen rowOpen where
  isOpen_of_mem : ∀ i j x, (i, x) ∈ a.column j → columnOpen j ∧ rowOpen i

theorem pairwise_rank_lines (a : Active α) :
    a.lines.Pairwise fun l l' => l.rank ≤ l'.rank := by
  have hrank : ∀ count, ∀ l ∈ a.linesWith count, l.rank = 2 * count ∨ l.rank = 2 * count + 1 := by
    intro count l hl
    rcases List.mem_append.mp hl with hl | hl
    · obtain ⟨j, -, rfl⟩ := List.mem_map.mp hl
      exact Or.inl rfl
    · obtain ⟨i, -, rfl⟩ := List.mem_map.mp hl
      exact Or.inr rfl
  refine List.pairwise_flatMap.mpr ⟨fun count _ => ?_, ?_⟩
  · refine List.pairwise_append.mpr ⟨?_, ?_, fun l hl l' hl' => ?_⟩
    · exact List.pairwise_map.mpr (List.pairwise_of_forall fun _ _ => le_rfl)
    · exact List.pairwise_map.mpr (List.pairwise_of_forall fun _ _ => le_rfl)
    · obtain ⟨j, -, rfl⟩ := List.mem_map.mp hl
      obtain ⟨i, -, rfl⟩ := List.mem_map.mp hl'
      exact Nat.le_succ _
  · have hlt : (List.range' 1 a.m).Pairwise (· < ·) := List.pairwise_lt_range'
    refine hlt.imp fun {count count'} hlt l hl l' hl' => ?_
    have := hrank count l hl
    have := hrank count' l' hl'
    omega

variable [Scalar α] {a : Active α} {columnOpen rowOpen : Nat → Prop}

theorem Consistent.mem_linesWith_column (h : a.Consistent columnOpen rowOpen) {count c j : Nat} :
    Line.column c j ∈ a.linesWith count ↔
      c = count ∧ columnOpen j ∧ (a.column j).length = count := by
  rw [linesWith, List.mem_append, List.mem_map, List.mem_map]
  constructor
  · rintro (⟨k, hk, he⟩ | ⟨k, -, he⟩)
    · obtain ⟨rfl, rfl⟩ := Line.column.inj he
      exact ⟨rfl, h.columns.mem_items_iff.mp hk⟩
    · exact absurd he nofun
  · rintro ⟨rfl, hj⟩
    exact Or.inl ⟨j, h.columns.mem_items_iff.mpr hj, rfl⟩

theorem Consistent.mem_linesWith_row (h : a.Consistent columnOpen rowOpen) {count c i : Nat} :
    Line.row c i ∈ a.linesWith count ↔ c = count ∧ rowOpen i ∧ (a.row i).length = count := by
  rw [linesWith, List.mem_append, List.mem_map, List.mem_map]
  constructor
  · rintro (⟨k, -, he⟩ | ⟨k, hk, he⟩)
    · exact absurd he nofun
    · obtain ⟨rfl, rfl⟩ := Line.row.inj he
      exact ⟨rfl, h.rows.mem_items_iff.mp hk⟩
  · rintro ⟨rfl, hi⟩
    exact Or.inr ⟨i, h.rows.mem_items_iff.mpr hi, rfl⟩

theorem Consistent.column_mem_lines (h : a.Consistent columnOpen rowOpen) {c j : Nat} :
    Line.column c j ∈ a.lines ↔ columnOpen j ∧ (a.column j).length = c ∧ 0 < c := by
  rw [lines, List.mem_flatMap]
  constructor
  · rintro ⟨count, hcount, hl⟩
    obtain ⟨rfl, hj, hc⟩ := h.mem_linesWith_column.mp hl
    exact ⟨hj, hc, (List.mem_range'_1.mp hcount).1⟩
  · rintro ⟨hj, rfl, hpos⟩
    have hle := Factoring.length_column_le h.toWellFormed j
    exact ⟨_, List.mem_range'_1.mpr ⟨hpos, by omega⟩, h.mem_linesWith_column.mpr ⟨rfl, hj, rfl⟩⟩

theorem Consistent.row_mem_lines (h : a.Consistent columnOpen rowOpen) {c i : Nat} :
    Line.row c i ∈ a.lines ↔ rowOpen i ∧ (a.row i).length = c ∧ 0 < c := by
  rw [lines, List.mem_flatMap]
  constructor
  · rintro ⟨count, hcount, hl⟩
    obtain ⟨rfl, hi, hc⟩ := h.mem_linesWith_row.mp hl
    exact ⟨hi, hc, (List.mem_range'_1.mp hcount).1⟩
  · rintro ⟨hi, rfl, hpos⟩
    have hle := h.toWellFormed.length_row_le i
    exact ⟨_, List.mem_range'_1.mpr ⟨hpos, by omega⟩, h.mem_linesWith_row.mpr ⟨rfl, hi, rfl⟩⟩

theorem consistent_ofColumns {columns : List (List (Nat × α))} (h : SquareColumns columns) :
    (ofColumns columns).Consistent (· < columns.length) (· < columns.length) where
  toWellFormed := wellFormed_ofColumns h
  toUpToDate := upToDate_ofColumns h
  isOpen_of_mem _ _ _ hx :=
    ⟨(wellFormed_ofColumns h).column_lt hx, (wellFormed_ofColumns h).row_lt hx⟩

/-- An entry is on two lines, and they are counted under the numbers of their entries. -/
theorem Consistent.lines_of_mem (h : a.Consistent columnOpen rowOpen) {p : Pivot α}
    (hp : (p.row, p.value) ∈ a.column p.column) :
    Line.column (a.column p.column).length p.column ∈ a.lines ∧
      Line.row (a.row p.row).length p.row ∈ a.lines := by
  obtain ⟨hj, hi⟩ := h.isOpen_of_mem _ _ _ hp
  have hrow : p.column ∈ a.row p.row := (h.mem_row _ _).mpr ⟨_, hp⟩
  exact ⟨h.column_mem_lines.mpr ⟨hj, rfl, List.length_pos_of_mem hp⟩,
    h.row_mem_lines.mpr ⟨hi, rfl, List.length_pos_of_mem hrow⟩⟩

theorem Consistent.mem_pivotsOn (h : a.Consistent columnOpen rowOpen) {l : Line} {p : Pivot α} :
    p ∈ a.pivotsOn l ↔ (p.row, p.value) ∈ a.column p.column ∧ l.Meets p := by
  obtain ⟨i, j, x⟩ := p
  cases l with
  | column count k =>
    rw [pivotsOn, List.mem_map]
    constructor
    · rintro ⟨t, ht, he⟩
      obtain ⟨rfl, rfl, rfl⟩ := Pivot.mk.inj he
      exact ⟨ht, rfl⟩
    · rintro ⟨hx, rfl⟩
      exact ⟨(i, x), hx, rfl⟩
  | row count k =>
    have hvalue : ∀ {j x}, (k, x) ∈ a.column j → a.value k j = x := fun {j x} hx => by
      rw [Active.value, (lookup_eq_some_iff (h.column_keys j)).mpr hx]
      rfl
    rw [pivotsOn, List.mem_map]
    constructor
    · rintro ⟨j, hj, he⟩
      obtain ⟨rfl, rfl, rfl⟩ := Pivot.mk.inj he
      obtain ⟨x, hx⟩ := (h.mem_row k j).mp hj
      refine ⟨?_, rfl⟩
      show (k, a.value k j) ∈ a.column j
      rw [hvalue hx]
      exact hx
    · rintro ⟨hx, rfl⟩
      exact ⟨j, (h.mem_row _ j).mpr ⟨x, hx⟩, by rw [hvalue hx]⟩

/-- What an entry may fill in is bounded by the counts that the search has reached, as long as
it has not come across the entry. -/
theorem Consistent.bound_le_fill (h : a.Consistent columnOpen rowOpen) {done rest : List Line}
    {l : Line} (hsplit : a.lines = done ++ l :: rest) {p : Pivot α}
    (hp : (p.row, p.value) ∈ a.column p.column) (hnew : ∀ k ∈ done ++ [l], ¬k.Meets p) :
    l.bound ≤ a.fill p := by
  obtain ⟨hcolumn, hrow⟩ := h.lines_of_mem hp
  have hpairwise := a.pairwise_rank_lines
  rw [hsplit] at hcolumn hrow hpairwise
  have hlater : ∀ k ∈ done ++ l :: rest, k.Meets p → l.rank ≤ k.rank := by
    intro k hk hmeets
    rw [List.append_cons] at hk
    have hk := (List.mem_append.mp hk).resolve_left fun hk => hnew k hk hmeets
    exact (List.pairwise_cons.mp (List.pairwise_append.mp hpairwise).2.1).1 k hk
  have hj := hlater _ hcolumn rfl
  have hi := hlater _ hrow rfl
  rw [fill, Nat.mul_comm]
  cases l with
  | column count j =>
    have hj : 2 * count ≤ 2 * (a.column p.column).length := hj
    have hi : 2 * count ≤ 2 * (a.row p.row).length + 1 := hi
    exact Nat.mul_le_mul (by omega) (by omega)
  | row count i =>
    have hj : 2 * count + 1 ≤ 2 * (a.column p.column).length := hj
    have hi : 2 * count + 1 ≤ 2 * (a.row p.row).length + 1 := hi
    exact Nat.mul_le_mul (by omega) (by omega)

end Active

namespace PivotSearch

open Active

variable [Scalar α]

/-! ## Eligible entries -/

/-- An entry that is large enough, by itself and within its column. -/
structure Qualifies (rule : PivotSearch α) (a : Active α) (p : Pivot α) : Prop where
  isEntry : (p.row, p.value) ∈ a.column p.column
  tolerance_le : rule.tolerance ≤ magnitude p.value
  threshold_mul_le : rule.threshold * largest (a.column p.column) ≤ magnitude p.value

/-- Whether an entry is large enough. -/
def permits (rule : PivotSearch α) (a : Active α) (p : Pivot α) : Bool :=
  rule.accepts p.value (largest (a.column p.column))

/-- The eligible entries of a line. -/
def candidates (rule : PivotSearch α) (a : Active α) (l : Line) : List (Pivot α) :=
  (a.pivotsOn l).filter (rule.permits a)

/-- Whether a line has an eligible entry. -/
def offersAny (rule : PivotSearch α) (a : Active α) (l : Line) : Bool :=
  !(rule.candidates a l).isEmpty

variable {rule : PivotSearch α} {a : Active α} {columnOpen rowOpen : Nat → Prop}

theorem mem_candidates (h : a.Consistent columnOpen rowOpen) {l : Line} {p : Pivot α} :
    p ∈ rule.candidates a l ↔ rule.Qualifies a p ∧ l.Meets p := by
  rw [candidates, List.mem_filter, h.mem_pivotsOn, permits, accepts_iff]
  constructor
  · rintro ⟨⟨hp, hmeets⟩, htolerance, hthreshold⟩
    exact ⟨⟨hp, htolerance, hthreshold⟩, hmeets⟩
  · rintro ⟨⟨hp, htolerance, hthreshold⟩, hmeets⟩
    exact ⟨⟨hp, hmeets⟩, htolerance, hthreshold⟩

/-! ## Scanning a line -/

/-- Keep the best offer, unless a new one is cheaper. -/
def consider (best : Option (Offer α)) (o : Offer α) : Option (Offer α) :=
  if improves o.cost best then some o else best

omit [Scalar α] in
theorem consider_spec (best : Option (Offer α)) (o : Offer α) :
    (∀ b ∈ consider best o, b ∈ best ∨ b = o) ∧
      ∀ b, b ∈ best ∨ b = o → ∃ c ∈ consider best o, c.cost ≤ b.cost := by
  cases best with
  | none =>
    refine ⟨fun b hb => Or.inr (Option.some.inj hb).symm, fun b hb => ⟨o, rfl, ?_⟩⟩
    rw [hb.resolve_left nofun]
  | some best =>
    by_cases hcost : o.cost < best.cost
    · have heq : consider (some best) o = some o := if_pos (decide_eq_true hcost)
      rw [heq]
      refine ⟨fun b hb => Or.inr (Option.some.inj hb).symm, fun b hb => ⟨o, rfl, ?_⟩⟩
      rcases hb with hb | rfl
      · rw [← Option.some.inj hb]
        exact hcost.le
      · exact le_rfl
    · have heq : consider (some best) o = some best := if_neg (by simpa [improves] using hcost)
      rw [heq]
      refine ⟨fun b hb => Or.inl hb, fun b hb => ⟨best, rfl, ?_⟩⟩
      rcases hb with hb | rfl
      · rw [← Option.some.inj hb]
      · exact not_lt.mp hcost

omit [Scalar α] in
theorem foldl_consider_spec (offers : List (Offer α)) (best : Option (Offer α)) :
    (∀ b ∈ offers.foldl consider best, b ∈ best ∨ b ∈ offers) ∧
      ∀ b, b ∈ best ∨ b ∈ offers → ∃ c ∈ offers.foldl consider best, c.cost ≤ b.cost := by
  induction offers generalizing best with
  | nil =>
    refine ⟨fun b hb => Or.inl hb, fun b hb => ⟨b, ?_, le_rfl⟩⟩
    exact hb.resolve_right List.not_mem_nil
  | cons o offers ih =>
    obtain ⟨hfrom, hle⟩ := consider_spec best o
    obtain ⟨hfrom', hle'⟩ := ih (consider best o)
    refine ⟨fun b hb => ?_, fun b hb => ?_⟩
    · rcases hfrom' b hb with hb | hb
      · exact (hfrom b hb).imp_right fun (he : b = o) => he ▸ List.mem_cons_self
      · exact Or.inr (List.mem_cons_of_mem o hb)
    · by_cases hold : b ∈ best ∨ b = o
      · obtain ⟨c, hc, hcb⟩ := hle b hold
        obtain ⟨d, hd, hdc⟩ := hle' c (Or.inl hc)
        exact ⟨d, hd, hdc.trans hcb⟩
      · rw [List.mem_cons, ← or_assoc] at hb
        exact hle' b (Or.inr (hb.resolve_left hold))

/-- The offer that a pivot makes. -/
def offer (a : Active α) (p : Pivot α) : Offer α :=
  { cost := a.fill p, pivot := p }

/-- Look at an entry of a column. -/
def look (rule : PivotSearch α) (a : Active α) (s : Option (Offer α) × Bool) (p : Pivot α) :
    Option (Offer α) × Bool :=
  if rule.permits a p then (consider s.1 (offer a p), true) else s

/-- Look at an entry of a row.  One that is not cheaper does not count as found. -/
def glance (rule : PivotSearch α) (a : Active α) (s : Option (Offer α) × Bool) (p : Pivot α) :
    Option (Offer α) × Bool :=
  if improves (a.fill p) s.1 && rule.permits a p then (some (offer a p), true) else s

theorem foldl_look (ps : List (Pivot α)) (s : Option (Offer α) × Bool) :
    ps.foldl (rule.look a) s =
      (((ps.filter (rule.permits a)).map (offer a)).foldl consider s.1,
        s.2 || !(ps.filter (rule.permits a)).isEmpty) := by
  induction ps generalizing s with
  | nil => exact Prod.ext rfl (Bool.or_false _).symm
  | cons p ps ih =>
    rw [List.foldl_cons, ih, look]
    by_cases hp : rule.permits a p = true
    · rw [if_pos hp, List.filter_cons_of_pos hp]
      simp
    · rw [if_neg hp, List.filter_cons_of_neg hp]

variable (rule a) in
theorem foldl_glance (ps : List (Pivot α)) {s s' : Option (Offer α) × Bool} (hfst : s.1 = s'.1)
    (hsnd : s.2 = true → s'.2 = true) :
    (ps.foldl (rule.glance a) s).1 = (ps.foldl (rule.look a) s').1 ∧
      ((ps.foldl (rule.glance a) s).2 = true → (ps.foldl (rule.look a) s').2 = true) := by
  induction ps generalizing s s' with
  | nil => exact ⟨hfst, hsnd⟩
  | cons p ps ih =>
    refine ih ?_ ?_
    · rw [glance, look, hfst, consider, offer]
      cases improves (a.fill p) s'.1 <;> cases rule.permits a p <;> simp [hfst]
    · rw [glance, look, hfst]
      cases improves (a.fill p) s'.1 <;> cases rule.permits a p
      · exact hsnd
      · exact fun _ => rfl
      · exact hsnd
      · exact id

/-- Go through a line. -/
def scan (rule : PivotSearch α) (a : Active α) (best : Option (Offer α)) :
    Line → Option (Offer α) × Bool
  | .column count j => rule.scanColumn a count j best
  | .row count i => rule.scanRow a count i best

theorem scanColumn_eq (h : a.Consistent columnOpen rowOpen) {j : Nat} (hj : columnOpen j)
    (best : Option (Offer α)) : rule.scanColumn a (a.column j).length j best =
      (a.pivotsOn (.column (a.column j).length j)).foldl (rule.look a) (best, false) := by
  have hlook : ∀ (s : Option (Offer α) × Bool) (t : Nat × α),
      rule.look a s ⟨t.1, j, t.2⟩ =
        if rule.accepts t.2 (largest (a.column j)) then
          if improves (((a.column j).length - 1) * ((a.row t.1).length - 1)) s.1 then
            (some { cost := ((a.column j).length - 1) * ((a.row t.1).length - 1),
                    pivot := { row := t.1, column := j, value := t.2 } }, true)
          else (s.1, true)
        else (s.1, s.2) := by
    intro s t
    rw [look, consider, offer, fill, Nat.mul_comm, permits]
    split
    · split <;> rfl
    · rfl
  rw [scanColumn, h.peak j hj, pivotsOn, List.foldl_map]
  exact (List.foldl_ext _ _ _ fun s t _ => (hlook s t)).symm

theorem scanRow_eq (h : a.Consistent columnOpen rowOpen) (i : Nat) (best : Option (Offer α)) :
    rule.scanRow a (a.row i).length i best =
      (a.pivotsOn (.row (a.row i).length i)).foldl (rule.glance a) (best, false) := by
  rw [scanRow, pivotsOn, List.foldl_map]
  refine List.foldl_ext _ _ _ fun s j hj => ?_
  obtain ⟨x, hx⟩ := (h.mem_row i j).mp hj
  rw [glance, permits, fill, offer, fill, ← h.peak j (h.isOpen_of_mem i j x hx).1]

variable (rule) in
/-- Scanning a line keeps the cheapest of its eligible entries and of what there was. -/
theorem scan_spec (h : a.Consistent columnOpen rowOpen) {l : Line} (hl : l ∈ a.lines)
    (best : Option (Offer α)) :
    (rule.scan a best l).1 = ((rule.candidates a l).map (offer a)).foldl consider best ∧
      ((rule.scan a best l).2 = true → rule.offersAny a l = true) := by
  cases l with
  | column count j =>
    obtain ⟨hj, rfl, -⟩ := h.column_mem_lines.mp hl
    rw [scan, scanColumn_eq h hj, foldl_look]
    exact ⟨rfl, id⟩
  | row count i =>
    obtain ⟨-, rfl, -⟩ := h.row_mem_lines.mp hl
    obtain ⟨hfst, hsnd⟩ :=
      foldl_glance rule a (a.pivotsOn (.row (a.row i).length i)) (s := (best, false)) rfl id
    rw [foldl_look] at hfst hsnd
    rw [scan, scanRow_eq h]
    exact ⟨hfst, hsnd⟩

/-! ## The search -/

/-- What is known of the best offer when these lines have been scanned. -/
structure Leads (rule : PivotSearch α) (a : Active α) (done : List Line)
    (best : Option (Offer α)) : Prop where
  genuine : ∀ o ∈ best, rule.Qualifies a o.pivot ∧ o.cost = a.fill o.pivot
  cheapest : ∀ p, rule.Qualifies a p → (∃ l ∈ done, l.Meets p) → ∃ o ∈ best, o.cost ≤ a.fill p

theorem leads_nil : rule.Leads a [] none :=
  ⟨fun _ ho => absurd ho nofun, fun _ _ hl => absurd hl.choose_spec.1 List.not_mem_nil⟩

theorem Leads.scan {done : List Line} {l : Line} {best : Option (Offer α)}
    (h : rule.Leads a done best) (ha : a.Consistent columnOpen rowOpen) (hl : l ∈ a.lines) :
    rule.Leads a (done ++ [l]) (rule.scan a best l).1 := by
  obtain ⟨hfrom, hle⟩ := foldl_consider_spec ((rule.candidates a l).map (offer a)) best
  rw [(scan_spec rule ha hl best).1]
  refine ⟨fun o ho => ?_, fun p hp hmet => ?_⟩
  · rcases hfrom o ho with ho | ho
    · exact h.genuine o ho
    · obtain ⟨p, hp, rfl⟩ := List.mem_map.mp ho
      exact ⟨((mem_candidates ha).mp hp).1, rfl⟩
  · obtain ⟨k, hk, hmeets⟩ := hmet
    rcases List.mem_append.mp hk with hk | hk
    · obtain ⟨o, ho, hcost⟩ := h.cheapest p hp ⟨k, hk, hmeets⟩
      obtain ⟨o', ho', hcost'⟩ := hle o (Or.inl ho)
      exact ⟨o', ho', hcost'.trans hcost⟩
    · rw [List.mem_singleton.mp hk] at hmeets
      exact hle (offer a p) (Or.inr (List.mem_map_of_mem ((mem_candidates ha).mpr ⟨hp, hmeets⟩)))

/-- A pivot that is as good as any on the examined lines.  It is as good as any at all unless as
many of these lines had eligible entries as the search looks at. -/
structure Chosen (rule : PivotSearch α) (a : Active α) (examined : List Line)
    (p : Pivot α) : Prop where
  qualifies : rule.Qualifies a p
  cheapest : ∀ q, rule.Qualifies a q → (∃ l ∈ examined, l.Meets q) → a.fill p ≤ a.fill q
  limited : (∀ q, rule.Qualifies a q → a.fill p ≤ a.fill q) ∨
    rule.lineLimit ≤ examined.countP (rule.offersAny a)

/-- What is known of a search when it has gone through these lines. -/
def Searched (rule : PivotSearch α) (a : Active α) (done : List Line) : Search α → Prop
  | .running best searched => rule.Leads a done best ∧ searched ≤ done.countP (rule.offersAny a)
  | .settled p => rule.Chosen a done p

def lineStep (rule : PivotSearch α) (a : Active α) (s : Search α) : Line → Search α
  | .column count j => rule.columnStep a count s j
  | .row count i => rule.rowStep a count s i

/-- Of these lines, those that the search goes through before it settles. -/
def examinedFrom (rule : PivotSearch α) (a : Active α) : Search α → List Line → List Line
  | .settled _, _ => []
  | .running _ _, [] => []
  | .running best searched, l :: rest =>
    l :: rule.examinedFrom a (rule.lineStep a (.running best searched) l) rest

/-- The lines that the search goes through. -/
def examined (rule : PivotSearch α) (a : Active α) : List Line :=
  rule.examinedFrom a (.running none 0) a.lines

theorem lineStep_running (best : Option (Offer α)) (searched : Nat) (l : Line) :
    rule.lineStep a (.running best searched) l =
      rule.afterLine l.bound searched (rule.scan a best l) := by
  cases l <;> rfl

theorem Leads.fill_le {done : List Line} {o : Offer α} (h : rule.Leads a done (some o))
    {q : Pivot α} (hq : rule.Qualifies a q) (hmet : ∃ l ∈ done, l.Meets q) :
    a.fill o.pivot ≤ a.fill q := by
  obtain ⟨o', ho', hle⟩ := h.cheapest q hq hmet
  rw [← (h.genuine o rfl).2, Option.some.inj ho']
  exact hle

/-- Nothing that is still to come is cheaper than the bound of the last line. -/
theorem Leads.fill_le_of_le_bound (ha : a.Consistent columnOpen rowOpen) {done rest : List Line}
    {l : Line} (hsplit : a.lines = done ++ l :: rest) {o : Offer α}
    (h : rule.Leads a (done ++ [l]) (some o)) (hbound : o.cost ≤ l.bound) {q : Pivot α}
    (hq : rule.Qualifies a q) : a.fill o.pivot ≤ a.fill q := by
  by_cases hmet : ∃ k ∈ done ++ [l], k.Meets q
  · exact h.fill_le hq hmet
  · rw [← (h.genuine o rfl).2]
    exact hbound.trans
      (ha.bound_le_fill hsplit hq.isEntry fun k hk hmeets => hmet ⟨k, hk, hmeets⟩)

/-- The lines that have been counted are among those with a candidate. -/
theorem counted_le_countP {done : List Line} {l : Line} {searched : Nat} {found : Bool}
    (h : searched ≤ done.countP (rule.offersAny a))
    (hfound : found = true → rule.offersAny a l = true) :
    (if found then searched + 1 else searched) ≤ (done ++ [l]).countP (rule.offersAny a) := by
  rw [List.countP_append, List.countP_singleton]
  by_cases hf : found = true
  · rw [if_pos hf, if_pos (hfound hf)]
    omega
  · rw [if_neg hf]
    omega

theorem searched_lineStep (ha : a.Consistent columnOpen rowOpen) {done rest : List Line} {l : Line}
    (hsplit : a.lines = done ++ l :: rest) {best : Option (Offer α)} {searched : Nat}
    (h : rule.Searched a done (.running best searched)) :
    rule.Searched a (done ++ [l]) (rule.lineStep a (.running best searched) l) := by
  obtain ⟨hleads, hcount⟩ := h
  have hl : l ∈ a.lines := hsplit ▸ List.mem_append_right done List.mem_cons_self
  have hleads := hleads.scan ha hl
  have hfound := (scan_spec rule ha hl best).2
  rw [lineStep_running]
  generalize rule.scan a best l = line at hleads hfound ⊢
  obtain ⟨best', found⟩ := line
  have hsearched := counted_le_countP hcount hfound
  cases best' with
  | none => exact ⟨hleads, hsearched⟩
  | some o =>
    rw [afterLine]
    have hqualifies := (hleads.genuine o rfl).1
    by_cases hbound : o.cost ≤ l.bound
    · rw [if_pos (by simp [hbound])]
      exact ⟨hqualifies, fun q => hleads.fill_le,
        Or.inl fun q => hleads.fill_le_of_le_bound ha hsplit hbound⟩
    · by_cases hlimit : found = true ∧ rule.lineLimit ≤ searched + 1
      · rw [if_pos (by simp [hlimit])]
        rw [if_pos hlimit.1] at hsearched
        exact ⟨hqualifies, fun q => hleads.fill_le, Or.inr (hlimit.2.trans hsearched)⟩
      · rw [if_neg (by simpa [hbound] using hlimit)]
        exact ⟨hleads, hsearched⟩

theorem foldl_lineStep_settled (p : Pivot α) (lines : List Line) :
    lines.foldl (rule.lineStep a) (.settled p) = .settled p := by
  refine List.foldlRecOn lines _ (motive := (· = Search.settled p)) rfl fun s hs l _ => ?_
  rw [hs]
  cases l <;> rfl

theorem searched_foldl (ha : a.Consistent columnOpen rowOpen) {done rest : List Line}
    {s : Search α} (hsplit : a.lines = done ++ rest) (h : rule.Searched a done s) :
    rule.Searched a (done ++ rule.examinedFrom a s rest) (rest.foldl (rule.lineStep a) s) := by
  induction rest generalizing done s with
  | nil =>
    have hnil : rule.examinedFrom a s [] = [] := by cases s <;> rfl
    rw [hnil, List.append_nil]
    exact h
  | cons l rest ih =>
    cases s with
    | settled p =>
      rw [foldl_lineStep_settled, examinedFrom, List.append_nil]
      exact h
    | running best searched =>
      rw [examinedFrom, List.append_cons, List.foldl_cons]
      exact ih (hsplit.trans (List.append_cons ..)) (searched_lineStep ha hsplit h)

/-- A search that has not settled has gone through all lines. -/
theorem examinedFrom_of_running {rest : List Line} {s : Search α} {best : Option (Offer α)}
    {searched : Nat} (h : rest.foldl (rule.lineStep a) s = .running best searched) :
    rule.examinedFrom a s rest = rest := by
  induction rest generalizing s with
  | nil => cases s <;> rfl
  | cons l rest ih =>
    cases s with
    | settled p =>
      rw [foldl_lineStep_settled] at h
      exact absurd h nofun
    | running best' searched' => exact congrArg (l :: ·) (ih h)

theorem foldl_countStep (rule : PivotSearch α) (a : Active α) (s : Search α) :
    (List.range' 1 a.m).foldl (rule.countStep a) s = a.lines.foldl (rule.lineStep a) s := by
  rw [lines, List.foldl_flatMap]
  refine List.foldl_ext _ _ _ fun s count _ => ?_
  rw [linesWith, List.foldl_append, List.foldl_map, List.foldl_map]
  rfl

/-! ## Guarded differences -/

/-- `scanColumn` with every difference guarded. -/
def guardedScanColumn (rule : PivotSearch α) (a : Active α) (count column : Nat)
    (best : Option (Offer α)) : Option (Option (Offer α) × Bool) :=
  let peak := a.columnPeaks.getD column 0
  (a.column column).foldlM (fun (best, found) (row, x) =>
    if rule.accepts x peak then do
      let cost := (← count.ppred) * (← (a.row row).length.ppred)
      if improves cost best then
        return (some { cost := cost, pivot := { row := row, column := column, value := x } }, true)
      else return (best, true)
    else some (best, found)) (best, false)

/-- `scanRow` with every difference guarded. -/
def guardedScanRow (rule : PivotSearch α) (a : Active α) (count row : Nat)
    (best : Option (Offer α)) : Option (Option (Offer α) × Bool) :=
  (a.row row).foldlM (fun (best, found) column => do
    let cost := (← count.ppred) * (← (a.column column).length.ppred)
    let x := a.value row column
    if improves cost best && rule.accepts x (a.columnPeaks.getD column 0) then
      return (some { cost := cost, pivot := { row := row, column := column, value := x } }, true)
    else return (best, found)) (best, false)

/-- `columnStep` with every difference guarded. -/
def guardedColumnStep (rule : PivotSearch α) (a : Active α) (count : Nat) (s : Search α)
    (column : Nat) : Option (Search α) :=
  match s with
  | .running best searched => do
    let line ← rule.guardedScanColumn a count column best
    let others ← count.ppred
    return rule.afterLine (others * others) searched line
  | settled => some settled

/-- `rowStep` with every difference guarded. -/
def guardedRowStep (rule : PivotSearch α) (a : Active α) (count : Nat) (s : Search α)
    (row : Nat) : Option (Search α) :=
  match s with
  | .running best searched => do
    let line ← rule.guardedScanRow a count row best
    let others ← count.ppred
    return rule.afterLine (count * others) searched line
  | settled => some settled

/-- `countStep` with every difference guarded. -/
def guardedCountStep (rule : PivotSearch α) (a : Active α) (s : Search α) (count : Nat) :
    Option (Search α) := do
  let s ← (a.columnsByCount.items count).foldlM (rule.guardedColumnStep a count) s
  (a.rowsByCount.items count).foldlM (rule.guardedRowStep a count) s

/-- `choose` with every difference guarded. -/
def guardedChoose (rule : PivotSearch α) (a : Active α) : Option (PivotDecision α) :=
  match a.columnsByCount.first 0 with
  | some column => some (.emptyColumn column)
  | none => do
    match ← (List.range' 1 a.m).foldlM (rule.guardedCountStep a) (.running none 0) with
    | .settled p => return .pivot p
    | .running (some best) _ => return .pivot best.pivot
    | .running none _ => return .exhausted

theorem ppred_of_pos {n : Nat} (h : 0 < n) : n.ppred = some (n - 1) :=
  Nat.ppred_eq_pred h

theorem guardedScanColumn_eq (h : a.Consistent columnOpen rowOpen) {count : Nat}
    (hcount : 0 < count) (column : Nat) (best : Option (Offer α)) :
    rule.guardedScanColumn a count column best = some (rule.scanColumn a count column best) := by
  refine foldlM_eq_some fun s t ht => ?_
  obtain ⟨best, found⟩ := s
  obtain ⟨row, x⟩ := t
  have hrow : column ∈ a.row row := (h.mem_row _ _).mpr ⟨x, ht⟩
  dsimp only
  split
  · rw [ppred_of_pos hcount, ppred_of_pos (List.length_pos_of_mem hrow)]
    simp only [Option.bind_eq_bind, Option.bind_some, Option.pure_def]
    split <;> rfl
  · rfl

theorem guardedScanRow_eq (h : a.Consistent columnOpen rowOpen) {count : Nat}
    (hcount : 0 < count) (row : Nat) (best : Option (Offer α)) :
    rule.guardedScanRow a count row best = some (rule.scanRow a count row best) := by
  refine foldlM_eq_some fun s j hj => ?_
  obtain ⟨best, found⟩ := s
  obtain ⟨x, hx⟩ := (h.mem_row row j).mp hj
  rw [ppred_of_pos hcount, ppred_of_pos (List.length_pos_of_mem hx)]
  simp only [Option.bind_eq_bind, Option.bind_some, Option.pure_def]
  split <;> rfl

theorem guardedCountStep_eq (h : a.Consistent columnOpen rowOpen) {count : Nat}
    (hcount : 0 < count) (s : Search α) :
    rule.guardedCountStep a s count = some (rule.countStep a s count) := by
  unfold guardedCountStep
  refine bind_eq_of_eq_some (foldlM_eq_some fun s j _ => ?_) (foldlM_eq_some fun s i _ => ?_)
  · cases s with
    | settled p => rfl
    | running best searched =>
      refine bind_eq_of_eq_some (guardedScanColumn_eq h hcount j best) ?_
      exact bind_eq_of_eq_some (ppred_of_pos hcount) rfl
  · cases s with
    | settled p => rfl
    | running best searched =>
      refine bind_eq_of_eq_some (guardedScanRow_eq h hcount i best) ?_
      exact bind_eq_of_eq_some (ppred_of_pos hcount) rfl

/-- No difference of counts stops at zero. -/
theorem guardedChoose_eq (h : a.Consistent columnOpen rowOpen) :
    rule.guardedChoose a = some (rule.choose a) := by
  unfold guardedChoose choose
  cases a.columnsByCount.first 0 with
  | some column => rfl
  | none =>
    refine bind_eq_of_eq_some (foldlM_eq_some fun s count hcount =>
      guardedCountStep_eq h (List.mem_range'_1.mp hcount).1 s) ?_
    cases (List.range' 1 a.m).foldl (rule.countStep a) (.running none 0) with
    | settled p => rfl
    | running best searched => cases best <;> rfl

/-! ## Decisions -/

/-- A search that goes on past an entry that is eligible has an offer. -/
theorem Leads.exists_of_all (ha : a.Consistent columnOpen rowOpen) {best : Option (Offer α)}
    (h : rule.Leads a a.lines best) {p : Pivot α} (hp : rule.Qualifies a p) :
    ∃ o ∈ best, o.cost ≤ a.fill p :=
  h.cheapest p hp ⟨_, (ha.lines_of_mem hp.isEntry).1, rfl⟩

theorem Leads.chosen_of_all (ha : a.Consistent columnOpen rowOpen) {o : Offer α}
    (h : rule.Leads a a.lines (some o)) : rule.Chosen a a.lines o.pivot where
  qualifies := (h.genuine o rfl).1
  cheapest _ := h.fill_le
  limited := Or.inl fun _ hq => h.fill_le hq ⟨_, (ha.lines_of_mem hq.isEntry).1, rfl⟩

variable (rule) in
theorem searched_search (ha : a.Consistent columnOpen rowOpen) :
    rule.Searched a (rule.examined a) (a.lines.foldl (rule.lineStep a) (.running none 0)) :=
  searched_foldl ha (List.nil_append a.lines).symm ⟨leads_nil, le_rfl⟩

variable (rule) in
/-- The three ways in which a search ends. -/
theorem choose_cases (h : a.Consistent columnOpen rowOpen) :
    (∃ j, rule.choose a = .emptyColumn j ∧ columnOpen j ∧ a.column j = []) ∨
    (rule.choose a = .exhausted ∧ ∀ p, ¬rule.Qualifies a p) ∨
    ∃ p, rule.choose a = .pivot p ∧ rule.Chosen a (rule.examined a) p := by
  rw [choose]
  cases hfirst : a.columnsByCount.first 0 with
  | some j =>
    obtain ⟨hopen, hlength⟩ :=
      (h.columns.countOf_iff j 0).mp (h.columns.toTraversable.toWellFormed.first 0 j hfirst).1
    exact Or.inl ⟨j, rfl, hopen, List.length_eq_zero_iff.mp hlength⟩
  | none =>
    have hsearched := searched_search rule h
    rw [foldl_countStep]
    cases hs : a.lines.foldl (rule.lineStep a) (.running none 0) with
    | settled p =>
      rw [hs] at hsearched
      exact Or.inr (Or.inr ⟨p, rfl, hsearched⟩)
    | running best searched =>
      have hall : rule.examined a = a.lines := examinedFrom_of_running hs
      rw [hs, hall] at hsearched
      cases best with
      | none =>
        refine Or.inr (Or.inl ⟨rfl, fun p hp => ?_⟩)
        obtain ⟨o, ho, -⟩ := hsearched.1.exists_of_all h hp
        exact absurd ho (Option.not_mem_none o)
      | some best =>
        exact Or.inr (Or.inr ⟨best.pivot, rfl, hall ▸ hsearched.1.chosen_of_all h⟩)

variable (rule) in
/-- A column is found empty only if it is, the search gives up only if no entry is eligible, and
a pivot is as good as any unless the search has looked at as many lines as it may.  No difference
of counts stops at zero. -/
theorem choose_cheapest (h : a.Consistent columnOpen rowOpen) :
    rule.guardedChoose a = some (rule.choose a) ∧
    (∀ j, rule.choose a = .emptyColumn j → columnOpen j ∧ a.column j = []) ∧
    (rule.choose a = .exhausted → ∀ p, ¬rule.Qualifies a p) ∧
    ∀ p, rule.choose a = .pivot p → rule.Chosen a (rule.examined a) p := by
  refine ⟨guardedChoose_eq h, ?_⟩
  rcases choose_cases rule h with ⟨j, hj, hempty⟩ | ⟨hexhausted, hnone⟩ | ⟨p, hp, hchosen⟩
  · rw [hj]
    simpa using hempty
  · rw [hexhausted]
    simpa using hnone
  · rw [hp]
    simpa using hchosen

/-- A matrix of which the first column has a cheap entry that is too small. -/
def unbalanced : List (List (Nat × Exact 0)) :=
  [[(0, 1), (1, Exact.ofRat 100)], [(0, 1), (1, 1), (2, 1)], [(1, 1), (2, Exact.ofRat 2)]]

theorem choose_cheapest_unbalanced :
    let rule : PivotSearch (Exact 0) := ⟨Exact.ofRat (1 / 2), Exact.ofRat (1 / 1000), 4⟩
    let a := Active.ofColumns unbalanced
    a.Consistent (· < 3) (· < 3) ∧
    rule.choose a = .pivot ⟨2, 2, Exact.ofRat 2⟩ ∧
    rule.examined a = [.column 2 0, .column 2 2] ∧
    a.fill ⟨0, 0, 1⟩ = 1 ∧ ¬rule.Qualifies a ⟨0, 0, 1⟩ ∧
    rule.Qualifies a ⟨2, 2, Exact.ofRat 2⟩ ∧ ∀ q, rule.Qualifies a q → 1 ≤ a.fill q := by
  intro rule a
  have hsquare : SquareColumns unbalanced := ⟨by simp [unbalanced, DistinctKeys], by decide⟩
  have hconsistent : a.Consistent (· < 3) (· < 3) := consistent_ofColumns hsquare
  have hchoose : rule.choose a = .pivot ⟨2, 2, Exact.ofRat 2⟩ := by decide +kernel
  have hexamined : rule.examined a = [.column 2 0, .column 2 2] := by decide +kernel
  obtain ⟨-, -, -, hpivot⟩ := choose_cheapest rule hconsistent
  obtain ⟨hqualifies, -, hlimited⟩ := hpivot _ hchoose
  refine ⟨hconsistent, hchoose, hexamined, by decide +kernel, fun hq => ?_, hqualifies,
    fun q hq => ?_⟩
  · exact absurd hq.threshold_mul_le (by decide +kernel)
  · refine (hlimited.resolve_right ?_) q hq
    rw [hexamined]
    decide +kernel

end PivotSearch

end DualSimplex
