import DualSimplex.Proofs.Sparse

/-!
# Sweeps over a triangle

A sparse sweep keeps an agenda of the ranks that it has still to visit.  Since
entries lead to later ranks alone, the agenda always holds those of the ranks
to come whose positions are not zero, and the sweep does to its vector what
going through all ranks would do.
-/

namespace DualSimplex

open Scalar

/-! ## Agendas -/

namespace Direction

/-- Whether the first rank comes before the second. -/
def Before (d : Direction) (a b : Nat) : Prop :=
  match d with
  | .ascending => a < b
  | .descending => b < a

def opposite : Direction → Direction
  | ascending => descending
  | descending => ascending

variable {d : Direction} {a b c : Nat}

theorem before_opposite : d.opposite.Before a b ↔ d.Before b a := by
  cases d <;> exact Iff.rfl

theorem Before.ne (h : d.Before a b) : a ≠ b := by
  cases d
  · exact Nat.ne_of_lt h
  · exact Nat.ne_of_gt h

theorem Before.asymm (h : d.Before a b) : ¬ d.Before b a := by
  cases d
  · exact Nat.lt_asymm h
  · exact Nat.lt_asymm h

theorem precedes_of_before (h : d.Before a b) : d.precedes a b = true := by
  cases d
  · exact decide_eq_true (Nat.le_of_lt h)
  · exact decide_eq_true (Nat.le_of_lt h)

theorem precedes_total (d : Direction) (a b : Nat) :
    d.precedes a b = true ∨ d.precedes b a = true := by
  cases d <;> simp only [precedes, decide_eq_true_eq] <;> omega

theorem precedes_trans (hab : d.precedes a b = true) (hbc : d.precedes b c = true) :
    d.precedes a c = true := by
  cases d <;> simp only [precedes, decide_eq_true_eq] at hab hbc ⊢ <;> omega

theorem precedes_antisymm (hab : d.precedes a b = true) (hba : d.precedes b a = true) :
    a = b := by
  cases d <;> simp only [precedes, decide_eq_true_eq] at hab hba <;> omega

/-- An agenda in the order of the direction. -/
def Sorted (d : Direction) (agenda : List Nat) : Prop :=
  agenda.Pairwise fun a b => d.precedes a b = true

theorem sorted_insert (r : Nat) {agenda : List Nat} (h : d.Sorted agenda) :
    d.Sorted (d.insert r agenda) := by
  induction agenda with
  | nil => exact List.pairwise_singleton _ r
  | cons s rest ih =>
    have hs := List.pairwise_cons.mp h
    rw [insert]
    split
    · rename_i hrs
      refine List.pairwise_cons.mpr ⟨fun u hu => ?_, h⟩
      rcases List.mem_cons.mp hu with rfl | hu
      · exact hrs
      · exact precedes_trans hrs (hs.1 u hu)
    · rename_i hrs
      refine List.pairwise_cons.mpr ⟨fun u hu => ?_, ih hs.2⟩
      rcases List.mem_cons.mp ((d.insert_perm r rest).mem_iff.mp hu) with rfl | hu
      · exact (d.precedes_total s u).resolve_right hrs
      · exact hs.1 u hu

theorem sorted_agenda (ranks : List Nat) : d.Sorted (d.agenda ranks) := by
  induction ranks with
  | nil => exact List.Pairwise.nil
  | cons r ranks ih => exact sorted_insert r ih

/-- A sorted agenda is known from the ranks on it. -/
theorem eq_filter_of_mem_iff {agenda ranks : List Nat} {p : Nat → Bool}
    (hsorted : d.Sorted agenda) (hnodup : agenda.Nodup) (hranks : ranks.Pairwise d.Before)
    (h : ∀ r, r ∈ agenda ↔ r ∈ ranks ∧ p r = true) : agenda = ranks.filter p := by
  have hfilter := hranks.filter p
  have hperm : agenda.Perm (ranks.filter p) := by
    rw [List.perm_ext_iff_of_nodup hnodup (hfilter.imp Before.ne)]
    intro r
    rw [h, List.mem_filter]
  exact hperm.eq_of_pairwise (fun _ _ _ _ => precedes_antisymm) hsorted
    (hfilter.imp precedes_of_before)

/-- Putting a rank on an agenda, as a change of what is to be visited. -/
theorem insert_filter {ranks : List Nat} {p q : Nat → Bool} {r : Nat}
    (hranks : ranks.Pairwise d.Before) (hr : r ∈ ranks) (hp : p r = false)
    (hq : ∀ s ∈ ranks, q s = true ↔ s = r ∨ p s = true) :
    d.insert r (ranks.filter p) = ranks.filter q := by
  have hperm := d.insert_perm r (ranks.filter p)
  have hnodup : (r :: ranks.filter p).Nodup := by
    refine List.nodup_cons.mpr ⟨fun h => ?_, (hranks.filter p).imp Before.ne⟩
    rw [(List.mem_filter.mp h).2] at hp
    exact absurd hp Bool.noConfusion
  refine eq_filter_of_mem_iff ?_ (hperm.nodup_iff.mpr hnodup) hranks fun s => ?_
  · exact sorted_insert r ((hranks.filter p).imp precedes_of_before)
  · rw [hperm.mem_iff, List.mem_cons, List.mem_filter]
    constructor
    · rintro (rfl | h)
      · exact ⟨hr, (hq s hr).mpr (Or.inl rfl)⟩
      · exact ⟨h.1, (hq s h.1).mpr (Or.inr h.2)⟩
    · rintro ⟨hs, h⟩
      exact ((hq s hs).mp h).imp_right fun h => ⟨hs, h⟩

theorem pairwise_order {ranks : List Nat} (h : ranks.Pairwise (· < ·)) :
    (d.order ranks).Pairwise d.Before := by
  cases d
  · exact h
  · exact List.pairwise_reverse.mpr h

theorem mem_order {ranks : List Nat} {r : Nat} : r ∈ d.order ranks ↔ r ∈ ranks := by
  cases d
  · exact Iff.rfl
  · exact List.mem_reverse

theorem length_order (ranks : List Nat) : (d.order ranks).length = ranks.length := by
  cases d
  · rfl
  · exact List.length_reverse

end Direction

namespace Triangle

variable {α : Type}

/-! ## Ranks and positions -/

/-- The ranks in use and the positions below `m` belong to each other. -/
structure Numbered (t : Triangle α) (m : Nat) : Prop where
  sorted : t.ranks.Pairwise (· < ·)
  place_lt : ∀ r ∈ t.ranks, t.place r < m
  rank_place : ∀ r ∈ t.ranks, t.rank (t.place r) = r
  rank_mem : ∀ i, i < m → t.rank i ∈ t.ranks
  place_rank : ∀ i, i < m → t.place (t.rank i) = i

/-- The entries of a rank in use lie at positions of later ranks. -/
def Later (t : Triangle α) (d : Direction) (entries : Nat → List (Nat × α)) (m : Nat) : Prop :=
  ∀ r ∈ t.ranks, ∀ u ∈ entries r, u.1 < m ∧ d.Before r (t.rank u.1)

variable {t : Triangle α} {d : Direction} {entries : Nat → List (Nat × α)} {m : Nat}

theorem Numbered.eq_place_iff (h : t.Numbered m) {r i : Nat} (hr : r ∈ t.ranks) (hi : i < m) :
    t.place r = i ↔ r = t.rank i := by
  constructor
  · rintro rfl
    exact (h.rank_place r hr).symm
  · rintro rfl
    exact h.place_rank i hi

theorem Numbered.place_ne (h : t.Numbered m) {r s : Nat} (hr : r ∈ t.ranks) (hs : s ∈ t.ranks)
    (hne : r ≠ s) : t.place r ≠ t.place s := fun e =>
  hne (by rw [← h.rank_place r hr, e, h.rank_place s hs])

theorem Numbered.length_le (h : t.Numbered m) : t.ranks.length ≤ m := by
  have hnodup : (t.ranks.map t.place).Nodup :=
    List.Nodup.map_on (fun r hr s hs e => by_contra fun hne => h.place_ne hr hs hne e)
      (h.sorted.imp Nat.ne_of_lt)
  have hsub : (t.ranks.map t.place).Subperm (List.range m) := by
    refine hnodup.subperm fun i hi => ?_
    obtain ⟨r, hr, rfl⟩ := List.mem_map.mp hi
    exact List.mem_range.mpr (h.place_lt r hr)
  have := hsub.length_le
  rwa [List.length_map, List.length_range] at this

/-- Ranks still to come in a sweep: with a rank, all those after it. -/
structure Suffix (t : Triangle α) (d : Direction) (rest : List Nat) : Prop where
  sorted : rest.Pairwise d.Before
  mem_ranks : ∀ r ∈ rest, r ∈ t.ranks
  closed : ∀ r ∈ rest, ∀ s ∈ t.ranks, d.Before r s → s ∈ rest

theorem Numbered.suffix_order (h : t.Numbered m) : t.Suffix d (d.order t.ranks) :=
  ⟨Direction.pairwise_order h.sorted, fun _ => Direction.mem_order.mp,
    fun _ _ _ hs _ => Direction.mem_order.mpr hs⟩

theorem Suffix.tail {r : Nat} {rest : List Nat} (h : t.Suffix d (r :: rest)) :
    t.Suffix d rest := by
  have hr := List.pairwise_cons.mp h.sorted
  refine ⟨hr.2, fun s hs => h.mem_ranks s (List.mem_cons_of_mem r hs), fun s hs u hu hsu => ?_⟩
  refine (List.mem_cons.mp (h.closed s (List.mem_cons_of_mem r hs) u hu hsu)).resolve_left ?_
  rintro rfl
  exact hsu.asymm (hr.1 s hs)

/-- The entries of the first rank to come lie at positions of the others. -/
theorem Suffix.rank_mem {r : Nat} {rest : List Nat} (h : t.Suffix d (r :: rest))
    (hlater : t.Later d entries m) (hnumbered : t.Numbered m) {u : Nat × α} (hu : u ∈ entries r) :
    u.1 < m ∧ t.rank u.1 ∈ rest := by
  have hr := h.mem_ranks r List.mem_cons_self
  obtain ⟨hlt, hbefore⟩ := hlater r hr u hu
  refine ⟨hlt, (List.mem_cons.mp ?_).resolve_left fun e => hbefore.ne e.symm⟩
  exact h.closed r List.mem_cons_self _ (hnumbered.rank_mem _ hlt) hbefore

/-- If the columns lead to later ranks, then the rows lead to earlier ones. -/
theorem Later.transpose (hn : t.Numbered m) (h : t.Later d t.column m)
    (hrow : ∀ r ∈ t.ranks, ∀ i x, (i, x) ∈ t.row r →
      i < m ∧ (t.place r, x) ∈ t.column (t.rank i)) : t.Later d.opposite t.row m := by
  rintro r hr ⟨i, x⟩ hu
  obtain ⟨hi, hx⟩ := hrow r hr i x hu
  have hbefore := (h _ (hn.rank_mem i hi) _ hx).2
  rw [hn.rank_place r hr] at hbefore
  exact ⟨hi, Direction.before_opposite.mpr hbefore⟩

/-! ## Sparse sweeps -/

variable [Scalar α]

/-- What a sparse sweep stores at a listed position is not `0`. -/
structure Storable (t : Triangle α) : Prop where
  solution : ∀ r ∈ t.ranks, ∀ x : α, isTiny x = false → (x / t.divisor r == 0) = false
  retire : ∀ x : α, (x == 0) = false → (t.retire x == 0) = false

/-- Subtract multiples of a solution from other positions. -/
def distribute (solution : α) (entries : List (Nat × α)) (v : SparseVector α) : SparseVector α :=
  entries.foldl (fun v u => v.collect u.1 (-u.2 * solution)) v

/-- What a sparse sweep does for one rank. -/
def sparseStep (t : Triangle α) (entries : Nat → List (Nat × α)) (s : Sweep α) (r : Nat) :
    Sweep α :=
  let x := s.vector.get (t.place r)
  if x == 0 then s
  else if isTiny x then { s with vector := s.vector.put (t.place r) (t.retire x) }
  else
    { vector := distribute (x / t.divisor r) (entries r)
        (s.vector.put (t.place r) (x / t.divisor r))
      touched := s.touched + (entries r).length + 1 }

/-- What a visit to a rank does, whatever else there is to visit. -/
def visitRank (t : Triangle α) (entries : Nat → List (Nat × α)) (s : Sweep α) (r : Nat) :
    Sweep α :=
  let x := s.vector.get (t.place r)
  if isTiny x then { s with vector := s.vector.put (t.place r) (t.retire x) }
  else
    { vector := distribute (x / t.divisor r) (entries r)
        (s.vector.put (t.place r) (x / t.divisor r))
      touched := s.touched + (entries r).length + 1 }

/-- What a visit to a rank makes of the agenda. -/
def agendaAfter (t : Triangle α) (d : Direction) (entries : Nat → List (Nat × α)) (s : Sweep α)
    (r : Nat) (agenda : List Nat) : List Nat :=
  let x := s.vector.get (t.place r)
  if isTiny x then agenda
  else (t.spread d (x / t.divisor r) (entries r)
    (s.vector.put (t.place r) (x / t.divisor r)) agenda).2

/-- Whether a sweep has to visit a rank. -/
def pending (t : Triangle α) (v : SparseVector α) (r : Nat) : Bool :=
  !(v.get (t.place r) == 0)

theorem sparseStep_of_pending {s : Sweep α} {r : Nat} (h : t.pending s.vector r = true) :
    t.sparseStep entries s r = t.visitRank entries s r := by
  rw [pending, Bool.not_eq_true'] at h
  rw [sparseStep, if_neg (Bool.eq_false_iff.mp h)]
  rfl

theorem sparseStep_of_not_pending {s : Sweep α} {r : Nat} (h : t.pending s.vector r = false) :
    t.sparseStep entries s r = s := by
  rw [pending, Bool.not_eq_false'] at h
  rw [sparseStep, if_pos h]

theorem fst_spread (solution : α) (line : List (Nat × α)) (v : SparseVector α)
    (agenda : List Nat) :
    (t.spread d solution line v agenda).1 = distribute solution line v := by
  induction line generalizing v agenda with
  | nil => rfl
  | cons u line ih => exact ih _ _

/-- Visiting an agenda starts with a visit to its first rank. -/
theorem visit_cons (fuel r : Nat) (agenda : List Nat) (s : Sweep α) :
    t.visit d entries (fuel + 1) (r :: agenda) s =
      t.visit d entries fuel (t.agendaAfter d entries s r agenda) (t.visitRank entries s r) := by
  rw [visit, agendaAfter, visitRank]
  split
  · rfl
  · rw [← fst_spread (t := t) (d := d) _ _ _ agenda]

theorem pending_put_ne {rest : List Nat} {r u : Nat} (hn : t.Numbered m)
    (hrest : t.Suffix d (r :: rest)) (hu : u ∈ rest) (v : SparseVector α) (x : α) :
    t.pending (v.put (t.place r) x) u = t.pending v u := by
  have hbefore := (List.pairwise_cons.mp hrest.sorted).1 u hu
  rw [pending, pending, SparseVector.get_put_ne]
  exact hn.place_ne (hrest.mem_ranks r List.mem_cons_self)
    (hrest.mem_ranks u (List.mem_cons_of_mem r hu)) hbefore.ne

section

variable [LawfulScalar α]

theorem listed_distribute {v : SparseVector α} (hv : v.Listed m) (solution : α)
    {line : List (Nat × α)} (hlt : ∀ u ∈ line, u.1 < m) :
    (distribute solution line v).Listed m := by
  induction line generalizing v with
  | nil => exact hv
  | cons u line ih =>
    exact ih (hv.collect (hlt u List.mem_cons_self) _) fun w hw =>
      hlt w (List.mem_cons_of_mem u hw)

theorem listed_sparseStep (hl : t.Later d entries m) (hs : t.Storable)
    {s : Sweep α} (hv : s.vector.Listed m) {r : Nat} (hr : r ∈ t.ranks) :
    (t.sparseStep entries s r).vector.Listed m := by
  rw [sparseStep]
  by_cases hzero : (s.vector.get (t.place r) == 0) = true
  · rw [if_pos hzero]
    exact hv
  · have hmem := (hv.mem_support (t.place r)).mpr (Bool.eq_false_iff.mpr hzero)
    rw [if_neg hzero]
    by_cases htiny : isTiny (s.vector.get (t.place r)) = true
    · rw [if_pos htiny]
      exact hv.put hmem (hs.retire _ (Bool.eq_false_iff.mpr hzero))
    · rw [if_neg htiny]
      exact listed_distribute (hv.put hmem (hs.solution r hr _ (Bool.eq_false_iff.mpr htiny))) _
        fun u hu => (hl r hr u hu).1

/-- Subtracting from other positions puts those on the agenda that become
nonzero. -/
theorem spread_eq (hn : t.Numbered m) {rest : List Nat} (hsorted : rest.Pairwise d.Before)
    (hranks : ∀ r ∈ rest, r ∈ t.ranks) (solution : α) {line : List (Nat × α)}
    (hline : ∀ u ∈ line, u.1 < m ∧ t.rank u.1 ∈ rest) {v : SparseVector α} (hv : v.Listed m) :
    t.spread d solution line v (rest.filter (t.pending v)) =
      (distribute solution line v, rest.filter (t.pending (distribute solution line v))) := by
  induction line generalizing v with
  | nil => rfl
  | cons u line ih =>
    obtain ⟨hi, hrank⟩ := hline u List.mem_cons_self
    have hagenda : (if v.get u.1 == 0 then d.insert (t.rank u.1) (rest.filter (t.pending v))
        else rest.filter (t.pending v)) =
        rest.filter (t.pending (v.collect u.1 (-u.2 * solution))) := by
      have hafter := hv.collect hi (-u.2 * solution)
      have hpending : ∀ r ∈ rest, t.pending (v.collect u.1 (-u.2 * solution)) r = true ↔
          r = t.rank u.1 ∨ t.pending v r = true := by
        intro r hr
        rw [pending, pending, Bool.not_eq_true', Bool.not_eq_true', ← hafter.mem_support,
          ← hv.mem_support, ← hn.eq_place_iff (hranks r hr) hi]
        show _ ∈ (if v.get u.1 == 0 then v.support ++ [u.1] else v.support) ↔ _
        split
        · rw [List.mem_append, List.mem_singleton, or_comm]
        · rename_i hlisted
          refine ⟨Or.inr, fun h => h.elim (fun e => ?_) id⟩
          rw [e, hv.mem_support]
          exact Bool.eq_false_iff.mpr hlisted
      by_cases hzero : (v.get u.1 == 0) = true
      · rw [if_pos hzero]
        refine Direction.insert_filter hsorted hrank ?_ hpending
        rw [pending, hn.place_rank u.1 hi, hzero]
        rfl
      · rw [if_neg hzero]
        refine List.filter_congr fun r hr => Bool.eq_iff_iff.mpr ?_
        rw [hpending r hr]
        refine ⟨Or.inr, fun h => h.elim (fun e => ?_) id⟩
        rw [e, pending, hn.place_rank u.1 hi, Bool.eq_false_iff.mpr hzero]
        rfl
    show t.spread d solution line (v.collect u.1 (-u.2 * solution)) (if _ then _ else _) = _
    rw [hagenda]
    exact ih (fun w hw => hline w (List.mem_cons_of_mem u hw)) (hv.collect hi _)

/-- A visit puts those ranks on the agenda whose positions become nonzero. -/
theorem agendaAfter_eq (hn : t.Numbered m) (hl : t.Later d entries m) (hs : t.Storable)
    {r : Nat} {rest : List Nat} (hrest : t.Suffix d (r :: rest)) {s : Sweep α}
    (hv : s.vector.Listed m) (hr : t.pending s.vector r = true) :
    t.agendaAfter d entries s r (rest.filter (t.pending s.vector)) =
      rest.filter (t.pending (t.visitRank entries s r).vector) := by
  rw [pending, Bool.not_eq_true'] at hr
  have hput : ∀ x, rest.filter (t.pending s.vector) =
      rest.filter (t.pending (s.vector.put (t.place r) x)) := fun x =>
    List.filter_congr fun u hu => (pending_put_ne hn hrest hu s.vector x).symm
  rw [agendaAfter, visitRank]
  split
  · exact hput _
  · rename_i htiny
    have hlisted := hv.put ((hv.mem_support _).mpr hr)
      (hs.solution r (hrest.mem_ranks r List.mem_cons_self) _ (Bool.eq_false_iff.mpr htiny))
    rw [hput, spread_eq hn hrest.tail.sorted hrest.tail.mem_ranks _
      (fun u hu => hrest.rank_mem hl hn hu) hlisted]

/-- Visiting the ranks of an agenda does the work for all ranks to come. -/
theorem visit_eq_foldl (hn : t.Numbered m) (hl : t.Later d entries m) (hs : t.Storable)
    {rest : List Nat} (hrest : t.Suffix d rest) {fuel : Nat} (hfuel : rest.length ≤ fuel)
    {s : Sweep α} (hv : s.vector.Listed m) :
    t.visit d entries fuel (rest.filter (t.pending s.vector)) s =
      rest.foldl (t.sparseStep entries) s := by
  induction rest generalizing fuel s with
  | nil =>
    cases fuel <;> rfl
  | cons r rest ih =>
    rw [List.length_cons] at hfuel
    obtain ⟨fuel, rfl⟩ : ∃ n, fuel = n + 1 := ⟨fuel - 1, by omega⟩
    have hstep := listed_sparseStep hl hs hv (hrest.mem_ranks r List.mem_cons_self)
    rw [List.foldl_cons]
    cases hr : t.pending s.vector r
    · rw [List.filter_cons_of_neg (Bool.eq_false_iff.mp hr), sparseStep_of_not_pending hr]
      exact ih hrest.tail (by omega) hv
    · rw [sparseStep_of_pending hr] at hstep ⊢
      rw [List.filter_cons_of_pos hr, visit_cons, agendaAfter_eq hn hl hs hrest hv hr]
      exact ih hrest.tail (by omega) hstep

/-- The agenda that a sparse sweep starts with. -/
theorem agenda_eq_filter (hn : t.Numbered m) {v : SparseVector α} (hv : v.Listed m) :
    d.agenda (v.support.map t.rank) = (d.order t.ranks).filter (t.pending v) := by
  have hperm := d.agenda_perm (v.support.map t.rank)
  have hnodup : (v.support.map t.rank).Nodup := by
    refine List.Nodup.map_on (fun i hi j hj e => ?_) hv.nodup
    rw [← hn.place_rank i (hv.lt hi), e, hn.place_rank j (hv.lt hj)]
  refine Direction.eq_filter_of_mem_iff (Direction.sorted_agenda _)
    (hperm.nodup_iff.mpr hnodup) (Direction.pairwise_order hn.sorted) fun r => ?_
  rw [hperm.mem_iff, List.mem_map, Direction.mem_order, pending, Bool.not_eq_true']
  constructor
  · rintro ⟨i, hi, rfl⟩
    rw [hn.place_rank i (hv.lt hi)]
    exact ⟨hn.rank_mem i (hv.lt hi), (hv.mem_support i).mp hi⟩
  · rintro ⟨hr, hne⟩
    exact ⟨t.place r, (hv.mem_support _).mpr hne, hn.rank_place r hr⟩

omit [LawfulScalar α] in
theorem length_order_le (hn : t.Numbered m) {v : SparseVector α} (hv : v.Listed m) :
    (d.order t.ranks).length ≤ v.count + v.dim := by
  rw [Direction.length_order, hv.dim_eq]
  exact Nat.le_add_left_of_le hn.length_le

/-- A sparse sweep goes through all ranks in effect. -/
theorem sparseSweep_eq_foldl (hn : t.Numbered m) (hl : t.Later d entries m) (hs : t.Storable)
    {v : SparseVector α} (hv : v.Listed m) :
    t.sparseSweep d entries v =
      (d.order t.ranks).foldl (t.sparseStep entries) { vector := v, touched := 0 } := by
  rw [sparseSweep, agenda_eq_filter hn hv]
  exact visit_eq_foldl (s := { vector := v, touched := 0 }) hn hl hs hn.suffix_order
    (length_order_le hn hv) hv

theorem listed_sparseSweep (hn : t.Numbered m) (hl : t.Later d entries m) (hs : t.Storable)
    {v : SparseVector α} (hv : v.Listed m) : (t.sparseSweep d entries v).vector.Listed m := by
  rw [sparseSweep_eq_foldl hn hl hs hv]
  have hfold : ∀ (rest : List Nat) (s : Sweep α), (∀ r ∈ rest, r ∈ t.ranks) →
      s.vector.Listed m → (rest.foldl (t.sparseStep entries) s).vector.Listed m := by
    intro rest
    induction rest with
    | nil => exact fun s _ hv => hv
    | cons r rest ih =>
      exact fun s hr hv => ih _ (fun u hu => hr u (List.mem_cons_of_mem r hu))
        (listed_sparseStep hl hs hv (hr r List.mem_cons_self))
  exact hfold _ _ (fun r => Direction.mem_order.mp) hv

end

theorem dim_pushRank (t : Triangle α) (s : Sweep α) (r : Nat) :
    (t.pushRank s r).vector.dim = s.vector.dim := by
  have hput : ∀ (line : List (Nat × α)) (x : α) (v : SparseVector α),
      (line.foldl (fun v u => v.put u.1 (v.get u.1 - u.2 * x)) v).dim = v.dim := by
    intro line x
    induction line with
    | nil => exact fun v => rfl
    | cons u line ih => exact fun v => (ih _).trans (SparseVector.dim_put ..)
  rw [pushRank]
  split
  · rfl
  · exact (hput _ _ _).trans (SparseVector.dim_put ..)

theorem dim_pullRank (t : Triangle α) (s : Sweep α) (r : Nat) :
    (t.pullRank s r).vector.dim = s.vector.dim :=
  SparseVector.dim_put ..

omit [Scalar α] in
theorem dim_foldl {step : Sweep α → Nat → Sweep α}
    (hstep : ∀ s r, (step s r).vector.dim = s.vector.dim) (ranks : List Nat) (s : Sweep α) :
    (ranks.foldl step s).vector.dim = s.vector.dim := by
  induction ranks generalizing s with
  | nil => rfl
  | cons r ranks ih => exact (ih _).trans (hstep s r)

/-! ## Solving along either path -/

section

variable [LawfulScalar α] {v : SparseVector α}

/-- A dense sweep makes the list anew. -/
theorem listed_denseSweep {step : Sweep α → Nat → Sweep α}
    (hstep : ∀ s r, (step s r).vector.dim = s.vector.dim) (hdim : v.dim = m) :
    (t.denseSweep d step v).vector.Listed m :=
  SparseVector.listed_reindex ((dim_foldl hstep ..).trans hdim)

theorem listed_solve (hn : t.Numbered m) (hl : t.Later d t.column m) (hs : t.Storable)
    (hv : v.Listed m) : (t.solve d v).vector.Listed m := by
  rw [solve]
  split
  · exact listed_sparseSweep hn hl hs hv
  · exact listed_denseSweep t.dim_pushRank hv.dim_eq

theorem listed_solveTransposed (hn : t.Numbered m) (hl : t.Later d t.row m) (hs : t.Storable)
    (hv : v.Listed m) : (t.solveTransposed d v).vector.Listed m := by
  rw [solveTransposed]
  split
  · exact listed_sparseSweep hn hl hs hv
  · exact listed_denseSweep t.dim_pullRank hv.dim_eq

end

end Triangle
end DualSimplex
