import DualSimplex.Factor.FactoredBasis
import DualSimplex.Proofs.Factor.Factoring
import DualSimplex.Proofs.Factor.Solve

/-!
# The factored basis

Rounding can leave zeros on the list of a solution, but whatever it does a
solution lists positions alone.  The factors of a basis stay well formed, and a
basis that turns out to be singular is paired with rows whose logical variables
are not in what remains of it.
-/

namespace DualSimplex

open Scalar

variable {α : Type} [Scalar α]

namespace SparseVector

/-- The vector has dimension `m` and lists positions only. -/
structure Inside (v : SparseVector α) (m : Nat) : Prop where
  dim_eq : v.dim = m
  lt : ∀ i ∈ v.support, i < m

variable {v : SparseVector α} {m : Nat}

theorem Listed.inside [LawfulScalar α] (h : v.Listed m) : v.Inside m where
  dim_eq := h.dim_eq
  lt _ hi := h.lt hi

omit [Scalar α] in
theorem Inside.put (h : v.Inside m) (i : Nat) (x : α) : (v.put i x).Inside m where
  dim_eq := (dim_put ..).trans h.dim_eq
  lt := h.lt

theorem Inside.collect (h : v.Inside m) {i : Nat} (hi : i < m) (delta : α) :
    (v.collect i delta).Inside m := by
  refine ⟨(dim_collect ..).trans h.dim_eq, fun j hj => ?_⟩
  have hj : j ∈ (if v.get i == 0 then v.support ++ [i] else v.support) := hj
  split at hj
  · rcases List.mem_append.mp hj with hj | hj
    · exact h.lt j hj
    · rw [List.mem_singleton.mp hj]
      exact hi
  · exact h.lt j hj

theorem Inside.dropTiny (h : v.Inside m) : v.dropTiny.Inside m where
  dim_eq := (size_foldl_zero _ _).trans h.dim_eq
  lt _ hi := h.lt _ (List.mem_filter.mp hi).1

omit [Scalar α] in
theorem Inside.addTicks (h : v.Inside m) (ticks : Float) : (v.addTicks ticks).Inside m where
  dim_eq := h.dim_eq
  lt := h.lt

theorem inside_reindex (h : v.dim = m) : v.reindex.Inside m where
  dim_eq := Array.size_map.trans h
  lt _ hi := h ▸ List.mem_range.mp (List.mem_filter.mp hi).1

end SparseVector

namespace Triangle

variable {t : Triangle α} {d : Direction} {entries : Nat → List (Nat × α)} {m : Nat}

theorem inside_spread (hn : t.Numbered m) (x : α) {line : List (Nat × α)}
    (hline : ∀ u ∈ line, u.1 < m) {v : SparseVector α} {agenda : List Nat} (hv : v.Inside m)
    (hagenda : ∀ r ∈ agenda, r ∈ t.ranks) :
    (t.spread d x line v agenda).1.Inside m ∧
      ∀ r ∈ (t.spread d x line v agenda).2, r ∈ t.ranks := by
  induction line generalizing v agenda with
  | nil => exact ⟨hv, hagenda⟩
  | cons u line ih =>
    have hu := hline u List.mem_cons_self
    refine ih (fun w hw => hline w (List.mem_cons_of_mem u hw)) (hv.collect hu _) fun r hr => ?_
    split at hr
    · rcases List.mem_cons.mp ((d.insert_perm _ _).mem_iff.mp hr) with hr | hr
      · rw [hr]
        exact hn.rank_mem u.1 hu
      · exact hagenda r hr
    · exact hagenda r hr

theorem inside_visit (hn : t.Numbered m) (hl : t.Later d entries m) (fuel : Nat)
    {agenda : List Nat} {s : Sweep α} (hs : s.vector.Inside m)
    (hagenda : ∀ r ∈ agenda, r ∈ t.ranks) : (t.visit d entries fuel agenda s).vector.Inside m := by
  induction fuel generalizing agenda s with
  | zero =>
    rw [visit]
    exact hs
  | succ fuel ih =>
    cases agenda with
    | nil =>
      rw [visit]
      exact hs
    | cons r agenda =>
      have hrest : ∀ q ∈ agenda, q ∈ t.ranks := fun q hq => hagenda q (List.mem_cons_of_mem r hq)
      rw [visit]
      split
      · exact ih (hs.put _ _) hrest
      · have hline : ∀ u ∈ entries r, u.1 < m := fun u hu =>
          (hl r (hagenda r List.mem_cons_self) u hu).1
        obtain ⟨hv, hranks⟩ := inside_spread (d := d) hn
          (s.vector.get (t.place r) / t.divisor r) hline (hs.put (t.place r) _) hrest
        exact ih hv hranks

/-- Solving with a triangle lists positions alone. -/
theorem inside_solve (hn : t.Numbered m) (hl : t.Later d t.column m) {v : SparseVector α}
    (hv : v.Inside m) : (t.solve d v).vector.Inside m := by
  rw [solve]
  split
  · refine inside_visit hn hl _ hv fun r hr => ?_
    obtain ⟨i, hi, rfl⟩ := List.mem_map.mp ((d.agenda_perm _).mem_iff.mp hr)
    exact hn.rank_mem i (hv.lt i hi)
  · exact SparseVector.inside_reindex ((dim_foldl t.dim_pushRank ..).trans hv.dim_eq)

end Triangle

namespace LU

theorem inside_relocate {f : Nat → Nat} {m : Nat} (hf : ∀ i, i < m → f i < m)
    {v : SparseVector α} (hv : v.Inside m) : (relocate f v).Inside m := by
  refine ⟨?_, fun j hj => ?_⟩
  · exact (size_foldl_set (fun t : Nat × α => f t.1) Prod.snd _ _).trans
      ((SparseVector.size_foldl_zero _ _).trans hv.dim_eq)
  · obtain ⟨i, hi, rfl⟩ := List.mem_map.mp hj
    exact hf i (hv.lt i hi)

/-- The solution for a column lists basis positions. -/
theorem WellFormed.inside_ftran [LawfulScalar α] {lu : LU α} (h : lu.WellFormed)
    {v : SparseVector α} (hv : v.Listed lu.m) : (lu.ftran v).solution.Inside lu.m := by
  have hspike := RowEta.listed_foldl_mulVec (fun r hr => (h.etas r hr).1) (h.listed_lower hv)
  have hupper := Triangle.inside_solve h.numbered_upper h.later_upper hspike.inside
  exact (inside_relocate (fun i hi => (h.positions.right i hi).1) hupper).dropTiny.addTicks _

end LU

/-! ## Singular matrices -/

namespace Factoring

/-- A column with entries in one row alone is pivoted on in that row, or waits
until the row has been pivoted on. -/
def Waits (columns : List (List (Nat × α))) (f : Factoring α) : Prop :=
  ∀ i j, (∀ t ∈ columns.getD j [], t.1 = i) → (∃ s ∈ f.steps, s.row = i) ∨
    (∀ t ∈ f.active.column j, t.1 = i) ∧ ∀ s ∈ f.steps, s.column ≠ j

variable {columns : List (List (Nat × α))} {f : Factoring α} {m : Nat}

theorem waits_start : (start columns).Waits columns := by
  intro i j hj
  refine Or.inr ⟨fun t ht => ?_, fun s hs => absurd hs List.not_mem_nil⟩
  have ht : t ∈ (Active.ofColumns columns).column j := ht
  rw [Active.column_ofColumns, Active.mem_significantColumns] at ht
  exact hj t ht.1

theorem Invariant.waits_take (h : f.Invariant m) (hf : f.Waits columns)
    {p : Pivot α} (hp : (p.row, p.value) ∈ f.active.column p.column) :
    (f.take p).Waits columns := by
  intro i j hj
  rcases hf i j hj with ⟨s, hs, he⟩ | ⟨hentries, hsteps⟩
  · exact Or.inl ⟨s, List.mem_append_left _ hs, he⟩
  · by_cases hrow : p.row = i
    · exact Or.inl ⟨_, List.mem_append_right _ (List.mem_singleton.mpr rfl), hrow⟩
    · have hcolumn : j ≠ p.column := by
        intro e
        subst e
        exact hrow (hentries _ hp)
      have hnone : ∀ x, (p.row, x) ∉ f.active.column j := fun x hx => hrow (hentries _ hx)
      obtain ⟨-, hout, hsame⟩ := h.active.eliminate p.row p.column p.value
      refine Or.inr ⟨fun t ht => ?_, fun s hs => ?_⟩
      · exact hentries t ((hsame j t hcolumn (hout j t ht).1 hnone).mp ht)
      · rcases List.mem_append.mp hs with hs | hs
        · exact hsteps s hs
        · rw [List.mem_singleton.mp hs]
          exact hcolumn.symm

theorem Invariant.waits_giveUp (h : f.Invariant m) (hf : f.Waits columns) (k : Nat) :
    Waits columns { f with active := f.active.giveUp k, dependent := f.dependent ++ [k] } := by
  intro i j hj
  refine (hf i j hj).imp_right (And.imp_left fun hentries t ht => ?_)
  exact hentries t (((h.active.giveUp k).2 j t).mp ht).1

/-- Rows that can take the places of columns. -/
structure Spares (columns : List (List (Nat × α))) (pairs : List (Nat × Nat)) : Prop where
  positions_nodup : (pairs.map Prod.fst).Nodup
  rows_nodup : (pairs.map Prod.snd).Nodup
  position_lt : ∀ t ∈ pairs, t.1 < columns.length
  row_lt : ∀ t ∈ pairs, t.2 < columns.length
  /-- A column with entries in such a row alone is itself to be replaced. -/
  position_mem : ∀ t ∈ pairs, ∀ j, j < columns.length →
    (∀ u ∈ columns.getD j [], u.1 = t.2) → j ∈ pairs.map Prod.fst

/-- The rows that were not pivoted on. -/
def openRows (f : Factoring α) : List Nat :=
  (List.range f.active.m).filter fun i => !(f.steps.any fun s => s.row == i)

omit [Scalar α] in
theorem mem_openRows {i : Nat} :
    i ∈ f.openRows ↔ i < f.active.m ∧ ∀ s ∈ f.steps, s.row ≠ i := by
  simp [openRows]

omit [Scalar α] in
/-- As many rows are left over as columns. -/
theorem length_openRows (h : f.Decided m) : f.openRows.length = f.dependent.length := by
  have hperm : (f.steps.map PivotStep.row ++ f.openRows).Perm (List.range m) := by
    rw [List.perm_ext_iff_of_nodup _ List.nodup_range]
    · intro i
      rw [List.mem_range, List.mem_append, List.mem_map, mem_openRows, h.m_eq]
      constructor
      · intro hi
        rcases hi with ⟨s, hs, rfl⟩ | hi
        · exact h.sequence.row_lt s hs
        · exact hi.1
      · intro hi
        by_cases hrow : ∃ s ∈ f.steps, s.row = i
        · exact Or.inl hrow
        · exact Or.inr ⟨hi, fun s hs e => hrow ⟨s, hs, e⟩⟩
    · refine List.nodup_append'.mpr ⟨h.sequence.rows_nodup, List.nodup_range.filter _, ?_⟩
      intro i hi hopen
      obtain ⟨s, hs, rfl⟩ := List.mem_map.mp hi
      exact (mem_openRows.mp hopen).2 s hs rfl
  have hlen := hperm.length_eq
  rw [List.length_append, List.length_map, List.length_range] at hlen
  have hadd := h.length_add
  omega

omit [Scalar α] in
/-- The positions of the pairs are the columns that are dependent, in order, and their rows
those that were left over. -/
theorem map_pairs (h : f.Decided m) :
    f.pairs.map Prod.fst = f.dependent.mergeSort (· ≤ ·) ∧ f.pairs.map Prod.snd = f.openRows := by
  have hlen : (f.dependent.mergeSort (· ≤ ·)).length = f.openRows.length := by
    rw [(List.mergeSort_perm ..).length_eq, length_openRows h]
  exact ⟨List.map_fst_zip hlen.le, List.map_snd_zip hlen.ge⟩

omit [Scalar α] in
theorem mem_fst_pairs (h : f.Decided m) {j : Nat} :
    j ∈ f.pairs.map Prod.fst ↔ j < m ∧ ∀ s ∈ f.steps, s.column ≠ j := by
  rw [(map_pairs h).1, (List.mergeSort_perm ..).mem_iff]
  constructor
  · intro hj
    exact ⟨h.dependent_lt j hj, h.dependent_open j hj⟩
  · rintro ⟨hj, hopen⟩
    refine (h.decided j hj).resolve_left ?_
    rintro ⟨s, hs, he⟩
    exact hopen s hs he

omit [Scalar α] in
theorem mem_snd_pairs (h : f.Decided m) {i : Nat} :
    i ∈ f.pairs.map Prod.snd ↔ i < m ∧ ∀ s ∈ f.steps, s.row ≠ i := by
  rw [(map_pairs h).2, mem_openRows, h.m_eq]

omit [Scalar α] in
theorem spares_pairs (h : f.Decided columns.length) (hwaits : f.Waits columns) :
    Spares columns f.pairs := by
  obtain ⟨hfst, hsnd⟩ := map_pairs h
  have hposition := fun {t} (ht : t ∈ f.pairs) =>
    (mem_fst_pairs h).mp (List.mem_map_of_mem (f := Prod.fst) ht)
  have hrow := fun {t} (ht : t ∈ f.pairs) =>
    (mem_snd_pairs h).mp (List.mem_map_of_mem (f := Prod.snd) ht)
  refine ⟨?_, ?_, fun t ht => (hposition ht).1, fun t ht => (hrow ht).1,
    fun t ht j hj hentries => ?_⟩
  · rw [hfst]
    exact (List.mergeSort_perm ..).nodup_iff.mpr h.dependent_nodup
  · rw [hsnd]
    exact List.nodup_range.filter _
  · refine (mem_fst_pairs h).mpr ⟨hj, ?_⟩
    rcases hwaits t.2 j hentries with ⟨s, hs, he⟩ | hwait
    · exact absurd he ((hrow ht).2 s hs)
    · exact hwait.2

end Factoring

/-! ## The basis -/

omit [Scalar α] in
/-- With as many pivots as columns the elimination is complete. -/
theorem Factoring.Invariant.complete {f : Factoring α} {m : Nat} (h : f.Invariant m)
    (hlen : f.steps.length = m) : CompleteElimination f.steps f.upperColumns := by
  subst hlen
  exact h.sequence

section Factor

variable {columns : List (List (Nat × α))} (hcolumns : SquareColumns columns)
  {threshold tolerance : α}

include hcolumns

theorem LU.exists_of_factor {lu : LU α} {summary : FactorSummary α}
    (h : LU.factor columns threshold tolerance = .ok (lu, summary)) :
    ∃ (steps : List (PivotStep α)) (upperColumns : Array (List (Nat × α))),
      CompleteElimination steps upperColumns ∧ steps.length = columns.length ∧
        lu = ofSteps steps upperColumns := by
  obtain ⟨hnone, hlu⟩ := of_factor_eq_ok h
  obtain ⟨hinvariant, -, hlen⟩ := Factoring.run_complete _ hcolumns (P := fun _ => True)
    trivial (fun _ _ _ _ _ => trivial) (fun _ _ _ _ => trivial) hnone
  exact ⟨_, _, hinvariant.complete hlen, hlen, hlu⟩

theorem LU.wellFormed_of_factor {lu : LU α} {summary : FactorSummary α}
    (h : LU.factor columns threshold tolerance = .ok (lu, summary)) :
    lu.WellFormed ∧ lu.m = columns.length := by
  obtain ⟨steps, upperColumns, hcomplete, hlen, rfl⟩ := LU.exists_of_factor hcolumns h
  exact ⟨wellFormed_ofSteps hcomplete, hlen⟩

theorem LU.spares_of_factor {pairs : List (Nat × Nat)}
    (h : LU.factor columns threshold tolerance = .error pairs) :
    Factoring.Spares columns pairs := by
  obtain ⟨hdecided, g, -, hwaits, hg⟩ := Factoring.run_start _ hcolumns
    (P := Factoring.Waits columns) Factoring.waits_start
    (fun f p hf hw hp => hf.waits_take hw hp.1) (fun f j hf hw => hf.waits_giveUp hw j)
  rw [eq_pairs_of_factor h]
  refine Factoring.spares_pairs hdecided ?_
  -- Columns given up at the very end change neither the steps nor what is left.
  rcases hg with hg | hg
  · rw [hg]
    exact hwaits
  · rw [hg]
    exact hwaits

end Factor

namespace FactoredBasis

/-- The factors of a basis of size `m`, and a column to update them with. -/
structure WellFormed (f : FactoredBasis α) (m : Nat) : Prop where
  lu : f.lu.WellFormed
  m_eq : f.lu.m = m
  spike : f.spike.Listed m

variable {f : FactoredBasis α} {m : Nat}

theorem WellFormed.congr {f' : FactoredBasis α} (h : f.WellFormed m) (hlu : f'.lu = f.lu)
    (hspike : f'.spike = f.spike) : f'.WellFormed m where
  lu := by rw [hlu]; exact h.lu
  m_eq := by rw [hlu]; exact h.m_eq
  spike := by rw [hspike]; exact h.spike

theorem wellFormed_identity [LawfulScalar α] (m : Nat) (parameters : FactorPolicy α) :
    (identity m parameters).WellFormed m where
  lu := LU.wellFormed_identity m
  m_eq := (List.length_map _).trans List.length_range
  spike := SparseVector.listed_zero m _

/-- An update changes the factors and nothing else. -/
theorem exists_of_update_eq_ok {position : Nat} {pivot : α} {f' : FactoredBasis α}
    (h : f.update position pivot = .ok f') : ∃ lu, f.lu.update position f.spike pivot
      f.parameters.pivotTolerance = .ok lu ∧ f' = { f with lu := lu } := by
  unfold FactoredBasis.update at h
  split at h
  · rename_i lu hlu
    exact ⟨lu, hlu, (Except.ok.inj h).symm⟩
  · exact absurd h nofun

/-! ## Factoring anew -/

theorem raise_eq_none_iff : f.raise? = none ↔ f.parameters.thresholdCeiling ≤ f.threshold := by
  unfold raise?
  split
  · rename_i hceiling
    exact iff_of_true rfl hceiling
  · rename_i hbelow
    exact iff_of_false nofun hbelow

/-- New factors in the place of the old ones. -/
def withFactors (f : FactoredBasis α) (lu : LU α) (summary : FactorSummary α) : FactoredBasis α :=
  { f with
    lu := lu
    factorWork := larger summary.ticks (Float.ofNat f.m)
    solveWork := 0 }

variable {columns : List (List (Nat × α))} {summary : FactorSummary α}

/-- New factors come from the columns, unless they have grown too much and the threshold can be
raised.  A failure changes nothing but the threshold. -/
theorem factorAnew_cases (f : FactoredBasis α) (columns : List (List (Nat × α))) :
    (∃ lu summary, LU.factor columns f.threshold f.parameters.pivotTolerance = .ok (lu, summary) ∧
      (tolerableGrowth < summary.growth → f.raise? = none) ∧
      f.factorAnew columns = (f.withFactors lu summary, .ok summary)) ∨
    ∃ factor failure, f.factorAnew columns = (factor, .error failure) ∧
      factor = { f with threshold := factor.threshold } := by
  unfold FactoredBasis.factorAnew
  split
  · exact Or.inr ⟨f, _, rfl, rfl⟩
  · rename_i lu summary hfactor
    dsimp only
    split
    · split
      · rename_i raised hraised
        exact Or.inr ⟨raised, _, rfl, eq_of_raise hraised⟩
      · rename_i hceiling
        exact Or.inl ⟨lu, summary, hfactor, fun _ => hceiling, rfl⟩
    · rename_i hgrowth
      exact Or.inl ⟨lu, summary, hfactor, fun hc => absurd hc hgrowth, rfl⟩

theorem parameters_factorAnew (f : FactoredBasis α) (columns : List (List (Nat × α))) :
    (f.factorAnew columns).1.parameters = f.parameters := by
  rcases f.factorAnew_cases columns with ⟨lu, summary, -, -, hnew⟩ | ⟨factor, _, hnew, hsame⟩
  · rw [hnew]
    rfl
  · rw [hnew, hsame]

theorem of_factorAnew_ok {factor : FactoredBasis α}
    (h : f.factorAnew columns = (factor, .ok summary)) :
    ∃ lu, LU.factor columns f.threshold f.parameters.pivotTolerance = .ok (lu, summary) ∧
      (tolerableGrowth < summary.growth → f.raise? = none) ∧
      factor = f.withFactors lu summary := by
  rcases f.factorAnew_cases columns with ⟨lu, summary', hfactor, hgrowth, hnew⟩ | ⟨_, _, hnew, -⟩
  · obtain ⟨rfl, hsummary⟩ := Prod.mk.inj (hnew.symm.trans h)
    obtain rfl := Except.ok.inj hsummary
    exact ⟨lu, hfactor, hgrowth, rfl⟩
  · exact absurd (Prod.mk.inj (hnew.symm.trans h)).2 nofun

theorem factorAnew_ok {lu : LU α}
    (hfactor : LU.factor columns f.threshold f.parameters.pivotTolerance = .ok (lu, summary))
    (hgrowth : tolerableGrowth < summary.growth → f.raise? = none) :
    f.factorAnew columns = (f.withFactors lu summary, .ok summary) := by
  unfold FactoredBasis.factorAnew
  rw [hfactor]
  dsimp only
  split
  · rename_i hlarge
    rw [hgrowth hlarge]
    rfl
  · rfl

section Lawful

variable [LawfulScalar α] (h : f.WellFormed m)

include h

theorem WellFormed.ftranSpike {v : SparseVector α} (hv : v.Listed m) :
    (f.ftranSpike v).1.WellFormed m := by
  have hspike := h.lu.listed_spike (h.m_eq.symm ▸ hv)
  exact ⟨h.lu, h.m_eq, h.spike.assign (h.m_eq ▸ hspike)⟩

theorem WellFormed.update {position : Nat} (hposition : position < m) {pivot : α}
    {f' : FactoredBasis α} (hupdate : f.update position pivot = .ok f') : f'.WellFormed m := by
  obtain ⟨lu, hlu, rfl⟩ := exists_of_update_eq_ok hupdate
  refine ⟨?_, ?_, h.spike⟩
  · refine h.lu.update (h.m_eq.symm ▸ hposition) h.spike.nodup (fun i hi => ?_) hlu
    exact h.m_eq.symm ▸ h.spike.lt hi
  · obtain ⟨-, hlu⟩ := LU.eq_of_update_eq_ok hlu
    rw [hlu]
    exact h.m_eq

omit [LawfulScalar α] in
theorem WellFormed.factorAnew (hcolumns : SquareColumns columns) (hlen : columns.length = m) :
    (f.factorAnew columns).1.WellFormed m := by
  rcases f.factorAnew_cases columns with ⟨lu, summary, hfactor, -, hnew⟩ | ⟨factor, _, hnew, hsame⟩
  · obtain ⟨hlu, hm⟩ := LU.wellFormed_of_factor hcolumns hfactor
    rw [hnew]
    exact ⟨hlu, hm.trans hlen, h.spike⟩
  · rw [hnew, hsame]
    exact ⟨h.lu, h.m_eq, h.spike⟩

end Lawful

end FactoredBasis
end DualSimplex
