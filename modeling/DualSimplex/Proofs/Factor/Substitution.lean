import Mathlib.Tactic.FieldSimp
import DualSimplex.Proofs.Factor.Sweep

/-!
# Substitution

With exact scalars every sweep over a triangle solves a triangular system.  A
sweep that pushes what it has solved for to the positions of later ranks, be it
sparse or dense, solves with the triangle whose columns it reads.  One that
pulls solves with its transpose, and since such systems have one solution it
agrees with the sparse sweep over the rows.
-/

namespace DualSimplex

open Scalar Exact

namespace Triangle

/-- The divisors of an exact triangle are not zero, and what is left at a zero
position is worth zero. -/
structure Regular (t : Triangle (Exact 0)) : Prop where
  divisor : ∀ r ∈ t.ranks, (t.divisor r).value ≠ 0
  retire_value : ∀ x, x.value = 0 → (t.retire x).value = 0
  retire_listed : ∀ x, (x == 0) = false → (t.retire x == 0) = false

variable {t : Triangle (Exact 0)} {d : Direction} {entries : Nat → List (Nat × Exact 0)} {m : Nat}

theorem Regular.storable (h : t.Regular) : t.Storable where
  solution r hr x hx := by
    refine beq_zero_eq_false ?_
    rw [value_div]
    exact div_ne_zero (isTiny_eq_false.mp hx) (h.divisor r hr)
  retire := h.retire_listed

/-- The entry at two positions of the triangle with the given columns. -/
def entryBy (t : Triangle (Exact 0)) (entries : Nat → List (Nat × Exact 0)) (i j : Nat) : ℚ :=
  (if i = j then (t.divisor (t.rank j)).value else 0) + coefficient (entries (t.rank j)) i

/-- Entries lie off the diagonal. -/
theorem coefficient_place (hl : t.Later d entries m) (hn : t.Numbered m) {r s : Nat}
    (hr : r ∈ t.ranks) (hs : s ∈ t.ranks) (h : ¬ d.Before r s) :
    coefficient (entries r) (t.place s) = 0 := by
  refine coefficient_of_notMem fun u hu e => h ?_
  rw [← hn.rank_place s hs, ← e]
  exact (hl r hr u hu).2

/-- What is listed under the ranks, by position. -/
theorem sum_order (hn : t.Numbered m) (f : Nat → ℚ) :
    ((d.order t.ranks).map fun r => f (t.place r)).sum = ∑ j ∈ Finset.range m, f j := by
  have hperm : ((d.order t.ranks).map t.place).Perm (List.range m) := by
    have hnodup : ((d.order t.ranks).map t.place).Nodup := by
      refine List.Nodup.map_on (fun r hr s hs e => ?_)
        ((Direction.pairwise_order hn.sorted).imp Direction.Before.ne)
      exact by_contra fun hne =>
        hn.place_ne (Direction.mem_order.mp hr) (Direction.mem_order.mp hs) hne e
    rw [List.perm_ext_iff_of_nodup hnodup List.nodup_range]
    intro i
    rw [List.mem_map, List.mem_range]
    constructor
    · rintro ⟨r, hr, rfl⟩
      exact hn.place_lt r (Direction.mem_order.mp hr)
    · exact fun hi =>
        ⟨t.rank i, Direction.mem_order.mpr (hn.rank_mem i hi), hn.place_rank i hi⟩
  have hsum := (hperm.map f).sum_eq
  rw [List.map_map] at hsum
  rw [← List.toFinset_range, List.sum_toFinset f List.nodup_range]
  exact hsum

/-! ## Pushing -/

/-- Solve for one rank, and push the solution to the other positions. -/
def substitute (t : Triangle (Exact 0)) (entries : Nat → List (Nat × Exact 0)) (f : Nat → ℚ)
    (r : Nat) : Nat → ℚ := fun i =>
  if i = t.place r then f (t.place r) / (t.divisor r).value
  else f i - coefficient (entries r) i * (f (t.place r) / (t.divisor r).value)

/-- What substitution through the ranks to come leaves solves the system, and the
right-hand side is made up of it. -/
theorem foldl_substitute (hn : t.Numbered m) (hl : t.Later d entries m)
    (hdivisor : ∀ r ∈ t.ranks, (t.divisor r).value ≠ 0) {rest : List Nat} (hrest : t.Suffix d rest)
    (f : Nat → ℚ) {i : Nat} (hi : i < m) :
    f i = (if t.rank i ∈ rest then 0 else rest.foldl (t.substitute entries) f i) +
      (rest.map fun r => rest.foldl (t.substitute entries) f (t.place r) *
        t.entryBy entries i (t.place r)).sum := by
  induction rest generalizing f i with
  | nil => simp
  | cons r rest ih =>
    have hr := hrest.mem_ranks r List.mem_cons_self
    have hsorted := List.pairwise_cons.mp hrest.sorted
    have hafter := @ih hrest.tail (t.substitute entries f r)
    rw [List.foldl_cons, List.map_cons, List.sum_cons]
    generalize rest.foldl (t.substitute entries) (t.substitute entries f r) = g at hafter
    -- Later ranks leave what has been solved for alone.
    have hsolved : g (t.place r) = f (t.place r) / (t.divisor r).value := by
      have h := hafter (hn.place_lt r hr)
      rw [hn.rank_place r hr, if_neg fun hmem => (hsorted.1 r hmem).ne rfl] at h
      have hzero : (rest.map fun s => g (t.place s) * t.entryBy entries (t.place r) (t.place s)) =
          rest.map fun _ => (0 : ℚ) := by
        refine List.map_congr_left fun s hs => ?_
        have hmem := hrest.mem_ranks s (List.mem_cons_of_mem r hs)
        rw [entryBy, if_neg (hn.place_ne hr hmem (hsorted.1 s hs).ne), hn.rank_place s hmem,
          coefficient_place hl hn hmem hr (hsorted.1 s hs).asymm, add_zero, mul_zero]
      rw [hzero] at h
      rw [substitute, if_pos rfl] at h
      simpa using h.symm
    by_cases hplace : t.place r = i
    · subst hplace
      have h := hafter (hn.place_lt r hr)
      rw [substitute, if_pos rfl, hn.rank_place r hr,
        if_neg fun hmem => (hsorted.1 r hmem).ne rfl, hsolved] at h
      have htail : (rest.map fun s => g (t.place s) *
          t.entryBy entries (t.place r) (t.place s)).sum = 0 := by linarith
      rw [htail, hn.rank_place r hr, if_pos List.mem_cons_self, hsolved, entryBy, if_pos rfl,
        hn.rank_place r hr, coefficient_place hl hn hr hr fun h => h.ne rfl, add_zero, add_zero,
        zero_add, div_mul_cancel₀ _ (hdivisor r hr)]
    · have h := hafter hi
      have hmem : t.rank i ∈ r :: rest ↔ t.rank i ∈ rest := by
        rw [List.mem_cons]
        refine ⟨fun h' => h'.resolve_left fun e => hplace ?_, Or.inr⟩
        exact (hn.eq_place_iff hr hi).mpr e.symm
      rw [substitute, if_neg (Ne.symm hplace)] at h
      simp only [hmem]
      rw [hsolved, entryBy, if_neg (Ne.symm hplace), hn.rank_place r hr, zero_add]
      linarith

/-- Substitution through all ranks solves the system of the triangle with the
given columns. -/
theorem sum_entryBy_substitute (hn : t.Numbered m) (hl : t.Later d entries m)
    (hdivisor : ∀ r ∈ t.ranks, (t.divisor r).value ≠ 0) (f : Nat → ℚ) {i : Nat} (hi : i < m) :
    ∑ j ∈ Finset.range m, t.entryBy entries i j *
      (d.order t.ranks).foldl (t.substitute entries) f j = f i := by
  have h := foldl_substitute hn hl hdivisor (hn.suffix_order (d := d)) f hi
  rw [if_pos (Direction.mem_order.mpr (hn.rank_mem i hi)), zero_add] at h
  rw [h, ← sum_order hn (d := d)]
  exact congrArg List.sum (List.map_congr_left fun r _ => mul_comm _ _)

theorem valueAt_distribute (solution : Exact 0) {line : List (Nat × Exact 0)}
    {v : SparseVector (Exact 0)} (hdim : v.dim = m) (hlt : ∀ u ∈ line, u.1 < m) (i : Nat) :
    (distribute solution line v).valueAt i = v.valueAt i - coefficient line i * solution.value := by
  induction line generalizing v with
  | nil => rw [coefficient_nil, zero_mul, sub_zero]; rfl
  | cons u line ih =>
    have hu := hlt u List.mem_cons_self
    show (distribute solution line (v.collect u.1 (-u.2 * solution))).valueAt i = _
    rw [ih ((SparseVector.dim_collect ..).trans hdim)
      fun w hw => hlt w (List.mem_cons_of_mem u hw), SparseVector.valueAt_collect,
      coefficient_cons, value_mul, value_neg]
    by_cases he : u.1 = i
    · rw [if_pos ⟨he, by rw [hdim, ← he]; exact hu⟩, if_pos he]
      ring
    · rw [if_neg fun h => he h.1, if_neg he]
      ring

theorem valueAt_sparseStep (hn : t.Numbered m) (hl : t.Later d entries m) (ht : t.Regular)
    {s : Sweep (Exact 0)} (hdim : s.vector.dim = m) {r : Nat} (hr : r ∈ t.ranks) :
    (t.sparseStep entries s r).vector.valueAt =
      t.substitute entries s.vector.valueAt r := by
  funext i
  have hplace : t.place r < s.vector.dim := by rw [hdim]; exact hn.place_lt r hr
  have hdiagonal : coefficient (entries r) (t.place r) = 0 :=
    coefficient_place hl hn hr hr fun h => h.ne rfl
  -- A position that is worth nothing changes nothing.
  have hnothing : s.vector.valueAt (t.place r) = 0 →
      t.substitute entries s.vector.valueAt r i = s.vector.valueAt i := by
    intro hzero
    rw [substitute, hzero, zero_div, mul_zero, sub_zero]
    split
    · rename_i he
      rw [he, hzero]
    · rfl
  rw [sparseStep]
  by_cases hzero : (s.vector.get (t.place r) == 0) = true
  · rw [if_pos hzero, hnothing (value_eq_zero_of_beq hzero)]
  · rw [if_neg hzero]
    by_cases htiny : isTiny (s.vector.get (t.place r)) = true
    · have hvalue := isTiny_zero_cutoff_iff.mp htiny
      rw [if_pos htiny, hnothing hvalue, SparseVector.valueAt_put]
      split
      · rename_i he
        rw [ht.retire_value _ hvalue, ← he.1]
        exact hvalue.symm
      · rfl
    · rw [if_neg htiny, valueAt_distribute _ ((SparseVector.dim_put ..).trans hdim)
        (fun u hu => (hl r hr u hu).1), SparseVector.valueAt_put, substitute, value_div]
      by_cases he : t.place r = i
      · subst he
        rw [if_pos ⟨rfl, hplace⟩, if_pos rfl, hdiagonal, zero_mul, sub_zero]
        rfl
      · rw [if_neg fun h => he h.1, if_neg (Ne.symm he)]
        rfl

theorem dim_distribute (solution : Exact 0) (line : List (Nat × Exact 0))
    (v : SparseVector (Exact 0)) : (distribute solution line v).dim = v.dim := by
  induction line generalizing v with
  | nil => rfl
  | cons u line ih => exact (ih _).trans (SparseVector.dim_collect ..)

theorem dim_sparseStep (s : Sweep (Exact 0)) (r : Nat) :
    (t.sparseStep entries s r).vector.dim = s.vector.dim := by
  rw [sparseStep]
  split
  · rfl
  · split
    · exact SparseVector.dim_put ..
    · exact (dim_distribute ..).trans (SparseVector.dim_put ..)

/-- A sweep whose steps compute with vectors what `step` computes with their
values. -/
theorem valueAt_foldl (act : Sweep (Exact 0) → Nat → Sweep (Exact 0))
    {step : (Nat → ℚ) → Nat → Nat → ℚ} {ranks : List Nat} {s : Sweep (Exact 0)}
    (hact : ∀ s : Sweep (Exact 0), s.vector.dim = m → ∀ r ∈ ranks,
      (act s r).vector.dim = m ∧ (act s r).vector.valueAt = step s.vector.valueAt r)
    (hdim : s.vector.dim = m) :
    (ranks.foldl act s).vector.dim = m ∧
      (ranks.foldl act s).vector.valueAt = ranks.foldl step s.vector.valueAt := by
  induction ranks generalizing s with
  | nil => exact ⟨hdim, rfl⟩
  | cons r ranks ih =>
    obtain ⟨hd, hv⟩ := hact s hdim r List.mem_cons_self
    rw [List.foldl_cons, List.foldl_cons, ← hv]
    exact ih (fun s hs u hu => hact s hs u (List.mem_cons_of_mem r hu)) hd

theorem valueAt_sparseSweep (hn : t.Numbered m) (hl : t.Later d entries m) (ht : t.Regular)
    {v : SparseVector (Exact 0)} (hv : v.Listed m) :
    (t.sparseSweep d entries v).vector.valueAt =
      (d.order t.ranks).foldl (t.substitute entries) v.valueAt := by
  rw [sparseSweep_eq_foldl hn hl ht.storable hv]
  refine (valueAt_foldl _ (m := m) (s := { vector := v, touched := 0 }) ?_ hv.dim_eq).2
  intro s hs r hr
  exact ⟨(dim_sparseStep s r).trans hs,
    valueAt_sparseStep hn hl ht hs (Direction.mem_order.mp hr)⟩

theorem valueAt_foldl_put (solution : Exact 0) {line : List (Nat × Exact 0)}
    {v : SparseVector (Exact 0)} (hdim : v.dim = m) (hlt : ∀ u ∈ line, u.1 < m) :
    (line.foldl (fun v (k, a) => v.put k (v.get k - a * solution)) v).dim = m ∧
    ∀ i, (line.foldl (fun v (k, a) => v.put k (v.get k - a * solution)) v).valueAt i =
      v.valueAt i - coefficient line i * solution.value := by
  induction line generalizing v with
  | nil => exact ⟨hdim, fun i => by rw [coefficient_nil, zero_mul, sub_zero]; rfl⟩
  | cons u line ih =>
    have hu := hlt u List.mem_cons_self
    have h := @ih (v.put u.1 (v.get u.1 - u.2 * solution)) ((SparseVector.dim_put ..).trans hdim)
      fun w hw => hlt w (List.mem_cons_of_mem u hw)
    refine ⟨h.1, fun i => (h.2 i).trans ?_⟩
    rw [SparseVector.valueAt_put, coefficient_cons, value_sub, value_mul]
    by_cases he : u.1 = i
    · rw [if_pos ⟨he, by rw [hdim, ← he]; exact hu⟩, if_pos he, he]
      show v.valueAt i - _ - _ = _
      ring
    · rw [if_neg fun h => he h.1, if_neg he]
      ring

theorem valueAt_pushRank (hn : t.Numbered m) (hl : t.Later d t.column m) {s : Sweep (Exact 0)}
    (hdim : s.vector.dim = m) {r : Nat} (hr : r ∈ t.ranks) :
    (t.pushRank s r).vector.dim = m ∧
      (t.pushRank s r).vector.valueAt = t.substitute t.column s.vector.valueAt r := by
  have hplace : t.place r < s.vector.dim := by rw [hdim]; exact hn.place_lt r hr
  rw [pushRank]
  by_cases hzero : (s.vector.get (t.place r) == 0) = true
  · rw [if_pos hzero]
    refine ⟨hdim, funext fun i => ?_⟩
    have hvalue : s.vector.valueAt (t.place r) = 0 := value_eq_zero_of_beq hzero
    rw [substitute, hvalue, zero_div, mul_zero, sub_zero]
    split
    · rename_i he
      rw [he, hvalue]
    · rfl
  · rw [if_neg hzero]
    obtain ⟨hd, hv⟩ := valueAt_foldl_put (m := m) (s.vector.get (t.place r) / t.divisor r)
      (v := s.vector.put (t.place r) (s.vector.get (t.place r) / t.divisor r))
      ((SparseVector.dim_put ..).trans hdim) (fun u hu => (hl r hr u hu).1)
    refine ⟨hd, funext fun i => (hv i).trans ?_⟩
    rw [SparseVector.valueAt_put, substitute, value_div]
    by_cases he : t.place r = i
    · subst he
      rw [if_pos ⟨rfl, hplace⟩, if_pos rfl, coefficient_place hl hn hr hr fun h => h.ne rfl,
        zero_mul, sub_zero]
      rfl
    · rw [if_neg fun h => he h.1, if_neg (Ne.symm he)]
      rfl

theorem valueAt_denseSweep_pushRank (hn : t.Numbered m) (hl : t.Later d t.column m)
    {v : SparseVector (Exact 0)} (hdim : v.dim = m) :
    (t.denseSweep d t.pushRank v).vector.Listed m ∧
    (t.denseSweep d t.pushRank v).vector.valueAt =
      (d.order t.ranks).foldl (t.substitute t.column) v.valueAt := by
  obtain ⟨hd, hv⟩ := valueAt_foldl t.pushRank (s := { vector := v, touched := 0 })
    (fun s hs r hr => valueAt_pushRank hn hl hs ((Direction.mem_order (d := d)).mp hr)) hdim
  exact ⟨SparseVector.listed_reindex hd,
    funext fun i => (SparseVector.valueAt_reindex _ i).trans (congrFun hv i)⟩

/-! ## Pulling -/

/-- Solve for one rank after subtracting what its column takes up. -/
def gather (t : Triangle (Exact 0)) (f : Nat → ℚ) (r : Nat) : Nat → ℚ := fun i =>
  if i = t.place r then
    (f i - ((t.column r).map fun u => u.2.value * f u.1).sum) / (t.divisor r).value
  else f i

theorem foldl_gather_of_notMem {rest : List Nat} {f : Nat → ℚ} {i : Nat}
    (h : ∀ r ∈ rest, t.place r ≠ i) : rest.foldl t.gather f i = f i := by
  induction rest generalizing f with
  | nil => rfl
  | cons r rest ih =>
    rw [List.foldl_cons, ih fun s hs => h s (List.mem_cons_of_mem r hs), gather,
      if_neg (Ne.symm (h r List.mem_cons_self))]

/-- Ranks come to be solved for after those that their columns have entries
at. -/
theorem foldl_gather (hn : t.Numbered m) (hl : t.Later d.opposite t.column m)
    (hdivisor : ∀ r ∈ t.ranks, (t.divisor r).value ≠ 0) {rest : List Nat} (hrest : t.Suffix d rest)
    (f : Nat → ℚ) {r : Nat} (hr : r ∈ rest) :
    (t.divisor r).value * rest.foldl t.gather f (t.place r) +
      ((t.column r).map fun u => u.2.value * rest.foldl t.gather f u.1).sum = f (t.place r) := by
  induction rest generalizing f with
  | nil => exact absurd hr List.not_mem_nil
  | cons s rest ih =>
    have hs := hrest.mem_ranks s List.mem_cons_self
    have hsorted := List.pairwise_cons.mp hrest.sorted
    rw [List.foldl_cons]
    by_cases hrs : r = s
    · subst hrs
      have hlast : rest.foldl t.gather (t.gather f r) (t.place r) = t.gather f r (t.place r) := by
        refine foldl_gather_of_notMem fun u hu => ?_
        exact (hn.place_ne hs (hrest.mem_ranks u (List.mem_cons_of_mem r hu))
          (hsorted.1 u hu).ne).symm
      have hknown : ((t.column r).map fun u =>
            u.2.value * rest.foldl t.gather (t.gather f r) u.1) =
          (t.column r).map fun u => u.2.value * f u.1 := by
        refine List.map_congr_left fun u hu => ?_
        obtain ⟨hlt, hbefore⟩ := hl r hs u hu
        have hbefore := Direction.before_opposite.mp hbefore
        rw [foldl_gather_of_notMem, gather, if_neg]
        · rintro e
          rw [e, hn.rank_place r hs] at hbefore
          exact hbefore.ne rfl
        · intro w hw e
          rw [← e, hn.rank_place w (hrest.mem_ranks w (List.mem_cons_of_mem r hw))] at hbefore
          exact hbefore.asymm (hsorted.1 w hw)
      rw [hlast, hknown, gather, if_pos rfl, mul_div_cancel₀ _ (hdivisor r hs), sub_add_cancel]
    · have hmem := (List.mem_cons.mp hr).resolve_left hrs
      rw [ih hrest.tail _ hmem, gather,
        if_neg (hn.place_ne (hrest.mem_ranks r hr) hs hrs)]

/-- Pulling through all ranks solves the system of the transpose. -/
theorem sum_entryBy_gather (hn : t.Numbered m) (hl : t.Later d.opposite t.column m)
    (hdivisor : ∀ r ∈ t.ranks, (t.divisor r).value ≠ 0) (f : Nat → ℚ) {j : Nat} (hj : j < m) :
    ∑ i ∈ Finset.range m, t.entryBy t.column i j * (d.order t.ranks).foldl t.gather f i = f j := by
  have hr := hn.rank_mem j hj
  have h := foldl_gather hn hl hdivisor (hn.suffix_order (d := d)) f
    (Direction.mem_order.mpr hr)
  rw [hn.place_rank j hj] at h
  simp only [entryBy, add_mul, Finset.sum_add_distrib, ite_mul, zero_mul]
  rw [Finset.sum_ite_eq' , if_pos (Finset.mem_range.mpr hj),
    sum_coefficient_mul fun u hu => (hl _ hr u hu).1]
  exact h

theorem valueAt_pullRank (hn : t.Numbered m) {s : Sweep (Exact 0)} (hdim : s.vector.dim = m)
    {r : Nat} (hr : r ∈ t.ranks) : (t.pullRank s r).vector.dim = m ∧
      (t.pullRank s r).vector.valueAt = t.gather s.vector.valueAt r := by
  have hplace : t.place r < s.vector.dim := by rw [hdim]; exact hn.place_lt r hr
  refine ⟨(SparseVector.dim_put ..).trans hdim, funext fun i => ?_⟩
  rw [pullRank, SparseVector.valueAt_put, gather, value_div, value_sub, value_sum, List.map_map]
  by_cases he : t.place r = i
  · subst he
    rw [if_pos ⟨rfl, hplace⟩, if_pos rfl]
    rfl
  · rw [if_neg fun h => he h.1, if_neg (Ne.symm he)]

theorem valueAt_denseSweep_pullRank (hn : t.Numbered m) {v : SparseVector (Exact 0)}
    (hdim : v.dim = m) :
    (t.denseSweep d t.pullRank v).vector.Listed m ∧
    (t.denseSweep d t.pullRank v).vector.valueAt =
      (d.order t.ranks).foldl t.gather v.valueAt := by
  obtain ⟨hd, hv⟩ := valueAt_foldl t.pullRank (s := { vector := v, touched := 0 })
    (fun s hs r hr => valueAt_pullRank hn hs ((Direction.mem_order (d := d)).mp hr)) hdim
  exact ⟨SparseVector.listed_reindex hd,
    funext fun i => (SparseVector.valueAt_reindex _ i).trans (congrFun hv i)⟩

/-! ## Solving -/

/-- An exact triangle whose columns have their entries at the positions of ranks
that are later in one direction, and whose rows hold the same entries. -/
structure Lawful (t : Triangle (Exact 0)) (d : Direction) (m : Nat) : Prop where
  numbered : t.Numbered m
  regular : t.Regular
  later : t.Later d t.column m
  column_keys : ∀ r ∈ t.ranks, DistinctKeys (t.column r)
  row_keys : ∀ r ∈ t.ranks, DistinctKeys (t.row r)
  mem_row : ∀ r ∈ t.ranks, ∀ i x,
    (i, x) ∈ t.row r ↔ i < m ∧ (t.place r, x) ∈ t.column (t.rank i)

/-- The entry at two positions. -/
def entry (t : Triangle (Exact 0)) (i j : Nat) : ℚ :=
  t.entryBy t.column i j

theorem Lawful.later_row (h : t.Lawful d m) : t.Later d.opposite t.row m :=
  h.later.transpose h.numbered fun r hr i x => (h.mem_row r hr i x).mp

/-- By rows the triangle is its transpose. -/
theorem Lawful.entryBy_row (h : t.Lawful d m) {i j : Nat} (hi : i < m) (hj : j < m) :
    t.entryBy t.row i j = t.entry j i := by
  have hri := h.numbered.rank_mem i hi
  have hrj := h.numbered.rank_mem j hj
  have hcoefficient : coefficient (t.row (t.rank j)) i = coefficient (t.column (t.rank i)) j := by
    refine coefficient_congr (h.row_keys _ hrj) (h.column_keys _ hri) fun x => ?_
    rw [h.mem_row _ hrj, h.numbered.place_rank j hj]
    exact ⟨And.right, fun hx => ⟨hi, hx⟩⟩
  rw [entry, entryBy, entryBy, hcoefficient]
  by_cases hij : i = j
  · rw [hij]
  · rw [if_neg hij, if_neg (Ne.symm hij)]

/-- The values that solve the system, by pushing. -/
def solution (t : Triangle (Exact 0)) (d : Direction) (f : Nat → ℚ) : Nat → ℚ :=
  (d.order t.ranks).foldl (t.substitute t.column) f

/-- The values that solve the system of the transpose, by pushing. -/
def solutionTransposed (t : Triangle (Exact 0)) (d : Direction) (f : Nat → ℚ) : Nat → ℚ :=
  (d.opposite.order t.ranks).foldl (t.substitute t.row) f

theorem Lawful.sum_entry_solution (h : t.Lawful d m) (f : Nat → ℚ) {i : Nat} (hi : i < m) :
    ∑ j ∈ Finset.range m, t.entry i j * t.solution d f j = f i :=
  sum_entryBy_substitute h.numbered h.later h.regular.divisor f hi

theorem Lawful.sum_entry_solutionTransposed (h : t.Lawful d m) (f : Nat → ℚ) {j : Nat}
    (hj : j < m) :
    ∑ i ∈ Finset.range m, t.entry i j * t.solutionTransposed d f i = f j := by
  rw [← sum_entryBy_substitute h.numbered h.later_row h.regular.divisor f hj]
  refine Finset.sum_congr rfl fun i hi => ?_
  rw [h.entryBy_row hj (Finset.mem_range.mp hi)]
  rfl

/-- The inner product of a vector with the image of another, either way. -/
theorem sum_sum_mul_comm (a : Nat → Nat → ℚ) (x y : Nat → ℚ) (m : Nat) :
    ∑ j ∈ Finset.range m, (∑ i ∈ Finset.range m, a i j * y i) * x j =
      ∑ i ∈ Finset.range m, (∑ j ∈ Finset.range m, a i j * x j) * y i := by
  simp only [Finset.sum_mul]
  rw [Finset.sum_comm]
  exact Finset.sum_congr rfl fun i _ => Finset.sum_congr rfl fun j _ => by ring

/-- What solves a system for a unit vector picks out one value. -/
theorem sum_ite_mul {m k : Nat} (hk : k < m) (x : Nat → ℚ) {f : Nat → ℚ}
    (hf : ∀ j, j < m → f j = if k = j then 1 else 0) :
    ∑ j ∈ Finset.range m, f j * x j = x k := by
  rw [Finset.sum_congr rfl fun j hj => by rw [hf j (Finset.mem_range.mp hj)]]
  simp only [ite_mul, one_mul, zero_mul]
  rw [Finset.sum_ite_eq, if_pos (Finset.mem_range.mpr hk)]

theorem Lawful.eq_of_sum_entry_transposed (h : t.Lawful d m) {y y' : Nat → ℚ}
    (heq : ∀ j, j < m → ∑ i ∈ Finset.range m, t.entry i j * y i =
      ∑ i ∈ Finset.range m, t.entry i j * y' i) {k : Nat} (hk : k < m) : y k = y' k := by
  have hunit := fun i (hi : i < m) => h.sum_entry_solution (fun i => if k = i then 1 else 0) hi
  rw [← sum_ite_mul hk y hunit, ← sum_ite_mul hk y' hunit, ← sum_sum_mul_comm t.entry _ y,
    ← sum_sum_mul_comm t.entry _ y']
  exact Finset.sum_congr rfl fun j hj => by rw [heq j (Finset.mem_range.mp hj)]

section Solve

variable (h : t.Lawful d m) {v : SparseVector (Exact 0)} (hv : v.Listed m)

include h hv

theorem Lawful.sparseSweep_column : (t.sparseSweep d t.column v).vector.Listed m ∧
    (t.sparseSweep d t.column v).vector.valueAt = t.solution d v.valueAt :=
  ⟨listed_sparseSweep h.numbered h.later h.regular.storable hv,
    valueAt_sparseSweep h.numbered h.later h.regular hv⟩

theorem Lawful.denseSweep_pushRank : (t.denseSweep d t.pushRank v).vector.Listed m ∧
    (t.denseSweep d t.pushRank v).vector.valueAt = t.solution d v.valueAt :=
  valueAt_denseSweep_pushRank h.numbered h.later hv.dim_eq

theorem Lawful.sparseSweep_row : (t.sparseSweep d.opposite t.row v).vector.Listed m ∧
    (t.sparseSweep d.opposite t.row v).vector.valueAt = t.solutionTransposed d v.valueAt :=
  ⟨listed_sparseSweep h.numbered h.later_row h.regular.storable hv,
    valueAt_sparseSweep h.numbered h.later_row h.regular hv⟩

theorem Lawful.denseSweep_pullRank : (t.denseSweep d.opposite t.pullRank v).vector.Listed m ∧
    (t.denseSweep d.opposite t.pullRank v).vector.valueAt = t.solutionTransposed d v.valueAt := by
  have hlater : t.Later d.opposite.opposite t.column m := by
    cases d <;> exact h.later
  obtain ⟨hlisted, hvalue⟩ := valueAt_denseSweep_pullRank (d := d.opposite) h.numbered hv.dim_eq
  refine ⟨hlisted, funext fun i => ?_⟩
  by_cases hi : i < m
  · rw [hvalue]
    refine h.eq_of_sum_entry_transposed (fun j hj => ?_) hi
    rw [h.sum_entry_solutionTransposed v.valueAt hj]
    exact sum_entryBy_gather h.numbered hlater h.regular.divisor v.valueAt hj
  · obtain ⟨hlisted', hvalue'⟩ := h.sparseSweep_row hv
    rw [← hvalue', SparseVector.valueAt_of_dim_le (by rw [hlisted.dim_eq]; omega),
      SparseVector.valueAt_of_dim_le (by rw [hlisted'.dim_eq]; omega)]

/-- Solving with the triangle, along whichever path. -/
theorem Lawful.solve : (t.solve d v).vector.Listed m ∧
    (t.solve d v).vector.valueAt = t.solution d v.valueAt := by
  rw [Triangle.solve]
  split
  · exact h.sparseSweep_column hv
  · exact h.denseSweep_pushRank hv

/-- Solving with the transpose of the triangle, along whichever path. -/
theorem Lawful.solveTransposed : (t.solveTransposed d.opposite v).vector.Listed m ∧
    (t.solveTransposed d.opposite v).vector.valueAt = t.solutionTransposed d v.valueAt := by
  rw [Triangle.solveTransposed]
  split
  · exact h.sparseSweep_row hv
  · exact h.denseSweep_pullRank hv

end Solve

end Triangle
end DualSimplex
