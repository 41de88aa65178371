import DualSimplex.Proofs.Double
import DualSimplex.Proofs.Factor.Maintained
import DualSimplex.Proofs.Factor.Solve
import DualSimplex.Proofs.Program

/-!
# What a solve lists and visits

Every stage of a solve leaves a list of the positions that are not zero, provided that no
division by the diagonal makes zero of a value that is not tiny.  A sparse sweep takes no rank
from its agenda twice then.  For doubles it is enough that the diagonal is finite.  The values
of a solution are not tiny, but some may be no numbers if there was an overflow on the way.
-/

namespace DualSimplex

open Scalar

variable {α : Type} [Scalar α]

/-! ## Visits -/

namespace Triangle

variable {t : Triangle α} {d : Direction} {entries : Nat → List (Nat × α)} {m : Nat}

/-- The ranks that are taken from an agenda in turn, and what is left on it at the end. -/
def trail (t : Triangle α) (d : Direction) (entries : Nat → List (Nat × α)) :
    Nat → List Nat → Sweep α → List Nat × List Nat
  | 0, agenda, _ => ([], agenda)
  | _ + 1, [], _ => ([], [])
  | fuel + 1, r :: agenda, s =>
    let later := t.trail d entries fuel (t.agendaAfter d entries s r agenda)
      (t.visitRank entries s r)
    (r :: later.1, later.2)

/-- All that visiting an agenda does is to visit the ranks that are taken from it. -/
theorem visit_eq_foldl_trail (fuel : Nat) (agenda : List Nat) (s : Sweep α) :
    t.visit d entries fuel agenda s =
      (t.trail d entries fuel agenda s).1.foldl (t.visitRank entries) s := by
  induction fuel generalizing agenda s with
  | zero => rfl
  | succ fuel ih =>
    cases agenda with
    | nil => rfl
    | cons r agenda =>
      rw [visit_cons, ih]
      rfl

/-- The ranks taken are some of those to come, in their order. -/
theorem trail_spec [LawfulScalar α] (hn : t.Numbered m) (hl : t.Later d entries m)
    (hs : t.Storable) {rest : List Nat} (hrest : t.Suffix d rest) {fuel : Nat}
    (hfuel : rest.length ≤ fuel) {s : Sweep α} (hv : s.vector.Listed m) :
    (t.trail d entries fuel (rest.filter (t.pending s.vector)) s).1.Sublist rest ∧
      (t.trail d entries fuel (rest.filter (t.pending s.vector)) s).2 = [] := by
  -- The agenda always holds those of the ranks to come that are pending.
  induction rest generalizing fuel s with
  | nil => cases fuel <;> exact ⟨List.Sublist.refl _, rfl⟩
  | cons r rest ih =>
    rw [List.length_cons] at hfuel
    obtain ⟨fuel, rfl⟩ : ∃ n, fuel = n + 1 := ⟨fuel - 1, by omega⟩
    have hstep := listed_sparseStep hl hs hv (hrest.mem_ranks r List.mem_cons_self)
    cases hr : t.pending s.vector r
    · rw [List.filter_cons_of_neg (Bool.eq_false_iff.mp hr)]
      exact (ih hrest.tail (by omega) hv).imp_left (List.Sublist.cons r)
    · rw [sparseStep_of_pending hr] at hstep
      rw [List.filter_cons_of_pos hr, trail, agendaAfter_eq hn hl hs hrest hv hr]
      exact (ih hrest.tail (by omega) hstep).imp_left (List.Sublist.cons_cons r)

/-- What becomes of the agenda of a sparse sweep. -/
def sweepTrail (t : Triangle α) (d : Direction) (entries : Nat → List (Nat × α))
    (v : SparseVector α) : List Nat × List Nat :=
  t.trail d entries (v.count + v.dim) (d.agenda (v.support.map t.rank))
    { vector := v, touched := 0 }

/-- A sparse sweep takes ranks in use from its agenda until there are none left, and none
twice.  It does nothing but to visit them. -/
structure VisitsOnce (t : Triangle α) (d : Direction) (entries : Nat → List (Nat × α))
    (v : SparseVector α) : Prop where
  nodup : (t.sweepTrail d entries v).1.Nodup
  mem_ranks : ∀ r ∈ (t.sweepTrail d entries v).1, r ∈ t.ranks
  left_nil : (t.sweepTrail d entries v).2 = []
  sparseSweep_eq : t.sparseSweep d entries v =
    (t.sweepTrail d entries v).1.foldl (t.visitRank entries) { vector := v, touched := 0 }

theorem visitsOnce [LawfulScalar α] (hn : t.Numbered m) (hl : t.Later d entries m)
    (hs : t.Storable) {v : SparseVector α} (hv : v.Listed m) : t.VisitsOnce d entries v := by
  have htrail : (t.sweepTrail d entries v).1.Sublist (d.order t.ranks) ∧
      (t.sweepTrail d entries v).2 = [] := by
    rw [sweepTrail, agenda_eq_filter hn hv]
    exact trail_spec (s := { vector := v, touched := 0 }) hn hl hs hn.suffix_order
      (length_order_le hn hv) hv
  obtain ⟨hsublist, hleft⟩ := htrail
  refine ⟨?_, fun r hr => Direction.mem_order.mp (hsublist.subset hr), hleft,
    visit_eq_foldl_trail ..⟩
  exact ((Direction.pairwise_order hn.sorted).sublist hsublist).imp Direction.Before.ne

end Triangle

/-! ## Stages of a solve -/

/-- The list has the positions that are not zero, and none of them is tiny. -/
structure SparseVector.Tight (v : SparseVector α) (m : Nat) : Prop extends v.Listed m where
  isTiny_get : ∀ i ∈ v.support, isTiny (v.get i) = false

theorem SparseVector.Listed.tight_dropTiny [LawfulScalar α] {v : SparseVector α} {m : Nat}
    (h : v.Listed m) : v.dropTiny.Tight m where
  toListed := h.dropTiny
  isTiny_get i hi := by
    have hi := (List.mem_filter.mp hi).2
    rw [Bool.not_eq_true'] at hi
    rw [get_dropTiny, if_neg fun h => absurd (hi.symm.trans h.2) Bool.false_ne_true]
    exact hi

namespace LU

/-- What is left for the upper triangle in solving with the matrix. -/
def ftranMiddle (lu : LU α) (v : SparseVector α) : SparseVector α :=
  lu.etas.foldl (fun v r => r.mulVec v) (lu.lowerTriangle.solve .ascending v).vector

/-- What is left for the lower triangle in solving with the transpose. -/
def btranMiddle (lu : LU α) (v : SparseVector α) : SparseVector α :=
  (lu.etas.reverse.foldl applyEta
    (lu.upperTriangle.solveTransposed .ascending (relocate lu.labels.apply v))).vector

/-- What the solves for a right-hand side leave on their lists, and how often sparse sweeps
visit a rank on the way. -/
structure Traced (lu : LU α) (v : SparseVector α) : Prop where
  ftran : (lu.ftran v).solution.Tight lu.m
  btran : (lu.btran v).Tight lu.m
  spike : (lu.ftran v).spike.Listed lu.m
  lower : lu.lowerTriangle.VisitsOnce .ascending lu.lowerTriangle.column v
  upper : lu.upperTriangle.VisitsOnce .descending lu.upperTriangle.column (lu.ftranMiddle v)
  upperTransposed : lu.upperTriangle.VisitsOnce .ascending lu.upperTriangle.row
    (relocate lu.labels.apply v)
  lowerTransposed : lu.lowerTriangle.VisitsOnce .descending lu.lowerTriangle.row
    (lu.btranMiddle v)

theorem WellFormed.traced [LawfulScalar α] {lu : LU α} (h : lu.WellFormed)
    (hs : lu.upperTriangle.Storable) {v : SparseVector α} (hv : v.Listed lu.m) :
    lu.Traced v := by
  have hmiddle : (lu.ftranMiddle v).Listed lu.m :=
    RowEta.listed_foldl_mulVec (fun r hr => (h.etas r hr).1) (h.listed_lower hv)
  have hmoved : (relocate lu.labels.apply v).Listed lu.m := listed_relocate h.positions hv
  have hmiddle' : (lu.btranMiddle v).Listed lu.m := by
    refine RowEta.listed_foldl_applyEta (fun r hr t ht => ?_)
      (Triangle.listed_solveTransposed h.numbered_upper h.later_upperRow hs hmoved)
    exact ((h.etas r (List.mem_reverse.mp hr)).2 t ht).1
  refine {
    ftran := ?_
    btran := ?_
    spike := h.listed_spike hv
    lower := Triangle.visitsOnce h.numbered_lower h.later_lower lu.storable_lower hv
    upper := Triangle.visitsOnce h.numbered_upper h.later_upper hs hmiddle
    upperTransposed := Triangle.visitsOnce h.numbered_upper h.later_upperRow hs hmoved
    lowerTransposed :=
      Triangle.visitsOnce h.numbered_lower h.later_lowerRow lu.storable_lower hmiddle' }
  · have hsolved := Triangle.listed_solve h.numbered_upper h.later_upper hs hmiddle
    have htight := (listed_relocate h.positions.symm hsolved).tight_dropTiny
    exact ⟨htight.toListed.addTicks _, htight.isTiny_get⟩
  · have hsolved := Triangle.listed_solveTransposed h.numbered_lower h.later_lowerRow
      lu.storable_lower hmiddle'
    exact ⟨hsolved.tight_dropTiny.toListed.addTicks _, hsolved.tight_dropTiny.isTiny_get⟩

/-- Whether the values that solves divide by are finite. -/
def finiteDiagonal (lu : LU α) : Bool :=
  lu.upper.slots.all fun s => isFinite (lu.upper.diagonalAt s)

/-- Whether all entries of the factors are finite. -/
def finiteEntries (lu : LU α) : Bool :=
  lu.finiteDiagonal && lu.upper.columns.all (fun column => column.all fun t => isFinite t.2) &&
    lu.lowerByStep.all (fun column => column.all fun t => isFinite t.2) &&
    lu.etas.all fun r => r.values.all fun t => isFinite t.2

end LU

/-! ## Doubles -/

/-- A position is on the list if and only if its value is not zero.  Values on the list are not
below the least magnitude of an entry unless they are not numbers. -/
structure SparseVector.Kept (v : SparseVector Float) (m : Nat) : Prop extends v.Listed m where
  le_abs : ∀ i ∈ v.support, isNaN (v.get i) = true ∨ 1e-14 ≤ (v.get i).abs

theorem SparseVector.Tight.kept {v : SparseVector Float} {m : Nat} (h : v.Tight m) :
    v.Kept m where
  toListed := h.toListed
  le_abs i hi := by
    cases hnan : isNaN (v.get i)
    · exact Or.inr (Double.le_abs_of_isTiny (h.isTiny_get i hi) hnan)
    · exact Or.inl rfl

namespace LU

/-- Dividing by a finite diagonal does not take a double that is not tiny off the list. -/
theorem storable_upper {lu : LU Float} (h : lu.finiteDiagonal = true) :
    lu.upperTriangle.Storable where
  solution s hs _ hx := Double.div_beq_zero hx (List.all_eq_true.mp h s hs)
  retire _ _ := vanished_beq_zero

/-- Whatever updates the factors have gone through, solving with them leaves right lists on
the solutions and on the spike, and sparse sweeps take no rank from their agendas twice. -/
theorem Maintained.solutions_kept {lu : LU Float} (h : lu.Maintained)
    (hfinite : lu.finiteDiagonal = true) {v : SparseVector Float} (hv : v.Listed lu.m) :
    (lu.ftran v).solution.Kept lu.m ∧ (lu.btran v).Kept lu.m ∧ lu.Traced v := by
  have htraced := (maintained_induction h).1.traced (storable_upper hfinite) hv
  exact ⟨htraced.ftran.kept, htraced.btran.kept, htraced⟩

/-- Factors of the identity matrix after both columns have been replaced. -/
def replacedTwice : LU Float :=
  ((identity 2).exchanged 1 (SparseVector.ofTerms 2 [(1, 2), (0, 5)]) 2 1e-3).exchanged 0
    (SparseVector.ofTerms 2 [(1, 1), (0, 4)]) 1.5 1e-3

/-- Both solves go through sparse sweeps and an eta, and fill the solution in. -/
theorem solutions_kept_replacedTwice :
    let v : SparseVector Float := (SparseVector.zero 2 1).addAll [(1, 3)]
    replacedTwice.etaCount = 1 ∧ (replacedTwice.ftran v).solution.support = [1, 0] ∧
      (replacedTwice.upperTriangle.sweepTrail .descending replacedTwice.upperTriangle.column
        (replacedTwice.ftranMiddle v)).1 = [3, 2] ∧
      (replacedTwice.ftran v).solution.Kept 2 ∧ (replacedTwice.btran v).Kept 2 ∧
      replacedTwice.Traced v := by
  intro v
  have hm : replacedTwice.m = 2 := by decide +kernel
  have hidentity : (identity 2 : LU Float).Maintained := .identity 2
  have hmaintained : replacedTwice.Maintained := by
    refine .exchange (.exchange hidentity (by decide) (by decide +kernel) (by decide +kernel))
      ?_ (by decide +kernel) ?_ <;> decide +kernel
  have hv : v.Listed replacedTwice.m := hm ▸ (SparseVector.listed_zero 2 1).addAll (by decide)
  have hkept := hmaintained.solutions_kept (by decide +kernel) hv
  rw [hm] at hkept
  exact ⟨by decide +kernel, by decide +kernel, by decide +kernel, hkept⟩

/-- A matrix for which large values are solved by subtracting an infinite one from another. -/
def overflowing : List (List (Nat × Float)) :=
  [[(0, 1)], [(0, 1e200), (1, 1)], [(0, 1e200), (2, 1)]]

/-- What is not a number stays on the list of a solution, though nothing in the factors and in
the right-hand side is infinite. -/
theorem not_a_number_listed : ∃ lu summary,
    LU.factor overflowing 0.1 1e-7 = .ok (lu, summary) ∧
    let v : SparseVector Float := (SparseVector.zero 3 0.1).addAll [(1, 1e200), (2, -1e200)]
    lu.Maintained ∧ lu.finiteEntries = true ∧ v.Listed lu.m ∧
      (∀ i ∈ v.support, isFinite (v.get i) = true) ∧
      0 ∈ (lu.ftran v).solution.support ∧ ¬ 1e-14 ≤ ((lu.ftran v).solution.get 0).abs := by
  obtain ⟨⟨lu, summary⟩, hfactor, hlu⟩ := exists_of_any_toOption (x := factor overflowing 0.1 1e-7)
    (P := fun r => decide (r.1.m = 3 ∧ r.1.finiteEntries = true ∧
      let x := (r.1.ftran ((SparseVector.zero 3 0.1).addAll [(1, 1e200), (2, -1e200)])).solution
      0 ∈ x.support ∧ ¬ 1e-14 ≤ (x.get 0).abs)) (by decide +kernel)
  obtain ⟨hm, hfinite, hmem, hnot⟩ := of_decide_eq_true hlu
  refine ⟨lu, summary, hfactor, .factor ?_ hfactor, hfinite, ?_, by decide +kernel, hmem, hnot⟩
  · exact ⟨by simp [overflowing, DistinctKeys], by decide⟩
  · rw [hm]
    exact (SparseVector.listed_zero 3 0.1).addAll (by decide)

end LU
end DualSimplex
