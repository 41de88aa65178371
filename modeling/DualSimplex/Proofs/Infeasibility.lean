import DualSimplex.Proofs.Engine.Duality
import DualSimplex.Proofs.Engine.Reported

/-!
# What a dual ray proves

A dual ray combines the rows to an inequality that no point within the bounds keeps,
but for the coefficients and multipliers that count as zero in it.  So it rules out the
points at which these make no difference, however large the bounds of a program are,
and all points if they are zero.
-/

namespace DualSimplex

open Scalar Exact

namespace Bound

theorem AtLeast.add {b c : Bound (Exact 0)} {x y : ℚ} (hb : b.AtLeast x) (hc : c.AtLeast y) :
    (b.add c).AtLeast (x + y) := by
  cases b with
  | negInf => exact hb.elim
  | finite u =>
    cases c with
    | negInf => exact hc.elim
    | finite v => exact add_le_add hb hc
    | posInf => exact trivial
  | posInf => exact trivial

/-- The sum of bounds from above is one of the sum. -/
theorem atLeast_sum {β : Type} {l : List β} {bound : β → Bound (Exact 0)} {f : β → ℚ}
    (h : ∀ u ∈ l, (bound u).AtLeast (f u)) : (Bound.sum (l.map bound)).AtLeast (l.map f).sum := by
  have hfold : ∀ (l : List β), (∀ u ∈ l, (bound u).AtLeast (f u)) → ∀ (b : Bound (Exact 0)) (x : ℚ),
      b.AtLeast x → ((l.map bound).foldl Bound.add b).AtLeast (x + (l.map f).sum) := by
    intro l
    induction l with
    | nil =>
      intro _ b x hb
      rw [List.map_nil, List.map_nil, List.sum_nil, add_zero]
      exact hb
    | cons u l ih =>
      intro hl b x hb
      rw [List.map_cons, List.map_cons, List.foldl_cons, List.sum_cons, ← add_assoc]
      exact ih (fun v hv => hl v (List.mem_cons_of_mem u hv)) _ _ (hb.add (hl u List.mem_cons_self))
  have hzero : (Bound.finite (-0 : Exact 0)).AtLeast 0 := by
    show (0 : ℚ) ≤ (-0 : Exact 0).value
    rw [value_neg, value_zero, neg_zero]
  rw [← zero_add (l.map f).sum]
  exact hfold l h _ 0 hzero

end Bound

/-- A term is at most its supremum, whichever bounds are infinite. -/
theorem Interval.Within.atLeast_supremum {b : Interval (Exact 0)} {x : ℚ} (hx : b.Within 0 x)
    (g : Exact 0) : (b.supremum g).AtLeast (g.value * x) := by
  obtain ⟨lower, upper⟩ := b
  have hlower : lower.AtMost (x + 0) := hx.lower
  have hupper : upper.AtLeast (x - 0) := hx.upper
  rw [add_zero] at hlower
  rw [sub_zero] at hupper
  unfold Interval.supremum
  split
  · rename_i hg
    cases upper with
    | negInf => exact hupper.elim
    | finite u => exact mul_le_mul_of_nonneg_left hupper (lt_iff.mp hg).le
    | posInf => exact trivial
  · rename_i hg
    cases lower with
    | negInf => exact trivial
    | finite l => exact mul_le_mul_of_nonpos_left hlower (not_lt.mp hg)
    | posInf => exact hlower.elim

/-! ## Combinations of rows -/

/-- Numbers of a ray up to this magnitude count as zero. -/
def rayCutoff (y : Array (Exact 0)) : ℚ :=
  1e-9 * (y.toList.map fun u => |u.value|).foldl max 1

theorem value_rayZero_mul (y : Array (Exact 0)) :
    (rayZero * y.toList.foldl (fun m u => larger m (magnitude u)) 1).value = rayCutoff y := by
  rw [value_mul, value_foldl_larger]
  rfl

theorem rayCutoff_pos (y : Array (Exact 0)) : 0 < rayCutoff y := by
  have hfold : ∀ (us : List ℚ) (m : ℚ), m ≤ us.foldl max m := by
    intro us
    induction us with
    | nil => exact fun m => le_rfl
    | cons u us ih => exact fun m => (le_max_left m u).trans (ih _)
  have hone := hfold (y.toList.map fun u => |u.value|) 1
  unfold rayCutoff
  linarith

namespace LinearProgram

variable {lp : LinearProgram (Exact 0)} {y : Array (Exact 0)} {x : Nat → ℚ}

/-- The coefficient that a combination of the rows gives a column. -/
def combinationAt (lp : LinearProgram (Exact 0)) (y : Array (Exact 0)) (j : Nat) : ℚ :=
  ∑ i ∈ Finset.range lp.rowCount, coefficient (lp.columns.line j) i * arrayAt y i

/-- What the numbers that count as zero in a ray make of a point. -/
def neglected (lp : LinearProgram (Exact 0)) (y : Array (Exact 0)) (x : Nat → ℚ) : ℚ :=
  ∑ j ∈ Finset.range lp.columnCount,
      (if |lp.combinationAt y j| ≤ rayCutoff y then lp.combinationAt y j * x j else 0) -
    ∑ i ∈ Finset.range lp.rowCount,
      if |arrayAt y i| ≤ rayCutoff y then arrayAt y i * lp.activityAt x i else 0

/-- How far a point is from zero where a ray has numbers that count as zero without
being it. -/
def neglectedLength (lp : LinearProgram (Exact 0)) (y : Array (Exact 0)) (x : Nat → ℚ) : ℚ :=
  ∑ j ∈ Finset.range lp.columnCount,
      (if lp.combinationAt y j ≠ 0 ∧ |lp.combinationAt y j| ≤ rayCutoff y then |x j| else 0) +
    ∑ i ∈ Finset.range lp.rowCount,
      if arrayAt y i ≠ 0 ∧ |arrayAt y i| ≤ rayCutoff y then |lp.activityAt x i| else 0

theorem neglected_le (lp : LinearProgram (Exact 0)) (y : Array (Exact 0)) (x : Nat → ℚ) :
    lp.neglected y x ≤ rayCutoff y * lp.neglectedLength y x := by
  have hterm : ∀ g u : ℚ, |if |g| ≤ rayCutoff y then g * u else 0| ≤
      rayCutoff y * if g ≠ 0 ∧ |g| ≤ rayCutoff y then |u| else 0 := by
    intro g u
    by_cases hg : |g| ≤ rayCutoff y
    · by_cases hzero : g = 0
      · simp [hzero]
      · rw [if_pos hg, if_pos ⟨hzero, hg⟩, abs_mul]
        exact mul_le_mul_of_nonneg_right hg (abs_nonneg u)
    · simp [hg]
  have hcolumns := Finset.sum_le_sum fun j (_ : j ∈ Finset.range lp.columnCount) =>
    (le_abs_self _).trans (hterm (lp.combinationAt y j) (x j))
  have hrows := Finset.sum_le_sum fun i (_ : i ∈ Finset.range lp.rowCount) =>
    (neg_le_abs _).trans (hterm (arrayAt y i) (lp.activityAt x i))
  rw [Finset.sum_neg_distrib] at hrows
  unfold neglected neglectedLength
  rw [mul_add, Finset.mul_sum, Finset.mul_sum]
  linarith

/-- Combining the rows and then the columns at a point is combining its activities. -/
theorem sum_combinationAt_mul (lp : LinearProgram (Exact 0)) (y : Array (Exact 0))
    (x : Nat → ℚ) : ∑ j ∈ Finset.range lp.columnCount, lp.combinationAt y j * x j =
      ∑ i ∈ Finset.range lp.rowCount, arrayAt y i * lp.activityAt x i := by
  simp only [combinationAt, activityAt, Finset.sum_mul, Finset.mul_sum]
  rw [Finset.sum_comm]
  refine Finset.sum_congr rfl fun i _ => Finset.sum_congr rfl fun j _ => ?_
  ring

end LinearProgram

/-! ## Rays -/

theorem sum_map_filter_range (p : Nat → Bool) (f : Nat → ℚ) (n : Nat) :
    (((List.range n).filter p).map f).sum =
      ∑ k ∈ Finset.range n, if p k = true then f k else 0 := by
  induction n with
  | zero => rfl
  | succ n ih =>
    rw [List.range_succ, List.filter_append, List.map_append, List.sum_append, ih,
      Finset.sum_range_succ]
    cases hp : p n <;> simp [hp]

namespace Job

variable {t : Job (Exact 0)} {y : Array (Exact 0)} {x : Nat → ℚ}

theorem value_lineDot (ht : t.WellFormed) {j : Nat} (hj : j < t.columnCount) :
    (t.program.columns.lineDot j y).value = t.program.combinationAt y j := by
  have hcolumn : t.column j = t.program.columns.line j := if_pos hj
  rw [worth_column ht hj, worth, hcolumn]
  rfl

def columnTerm (t : Job (Exact 0)) (y : Array (Exact 0)) (x : Nat → ℚ) (j : Nat) :
    Exact 0 × Interval (Exact 0) × ℚ :=
  (t.program.columns.lineDot j y, t.program.columnBounds.getD j default, x j)

def rowTerm (t : Job (Exact 0)) (y : Array (Exact 0)) (x : Nat → ℚ) (i : Nat) :
    Exact 0 × Interval (Exact 0) × ℚ :=
  (y.getD i 0, (t.program.rowBounds.getD i default).neg, -t.program.activityAt x i)

/-- The coefficients of a combination of the rows with the bounds of their variables, and
with the place of a point between them. -/
def rayTerms (t : Job (Exact 0)) (y : Array (Exact 0)) (x : Nat → ℚ) :
    List (Exact 0 × Interval (Exact 0) × ℚ) :=
  (List.range t.columnCount).map (t.columnTerm y x) ++
    (List.range (min y.size t.rowCount)).map (t.rowTerm y x)

theorem map_rayTerms (ht : t.WellFormed) (y : Array (Exact 0)) (x : Nat → ℚ) :
    (t.rayTerms y x).map (fun u => (u.1, u.2.1)) =
      (t.program.columnBounds.toList.zipIdx.map fun (b, j) =>
          (t.program.columns.lineDot j y, b)) ++
        List.zipWith (fun u b => (u, b.neg)) y.toList t.program.rowBounds.toList := by
  have hcolumns : t.program.columnBounds.size = t.columnCount := ht.program.size_columnBounds
  have hrows : t.program.rowBounds.size = t.rowCount := rfl
  rw [rayTerms, List.map_append]
  refine congr (congrArg HAppend.hAppend ?_) ?_
  · refine List.ext_getElem (by simp [hcolumns]) fun j _ hj => ?_
    have hlt : j < t.program.columnBounds.size := by simpa using hj
    simp [columnTerm, getD_eq_getElem hlt]
  · refine List.ext_getElem (by simp [hrows]) fun i _ hi => ?_
    obtain ⟨hy, hb⟩ : i < y.size ∧ i < t.program.rowBounds.size := by simpa using hi
    simp [rowTerm, getD_eq_getElem hy, getD_eq_getElem hb]

theorem within_of_mem_rayTerms (ht : t.WellFormed) (hx : t.program.Admits 0 x)
    {u : Exact 0 × Interval (Exact 0) × ℚ} (hu : u ∈ t.rayTerms y x) : u.2.1.Within 0 u.2.2 := by
  rcases List.mem_append.mp hu with hu | hu
  · obtain ⟨j, hj, rfl⟩ := List.mem_map.mp hu
    have hlt : j < t.program.columnBounds.size :=
      ht.program.size_columnBounds.symm ▸ List.mem_range.mp hj
    refine hx.columns j _ ?_
    rw [columnTerm, getD_eq_getElem hlt, Array.getElem?_eq_getElem hlt]
  · obtain ⟨i, hi, rfl⟩ := List.mem_map.mp hu
    have hlt : i < t.program.rowBounds.size := (Nat.lt_min.mp (List.mem_range.mp hi)).2
    refine Interval.within_neg.mpr (hx.rows i _ ?_)
    rw [getD_eq_getElem hlt, Array.getElem?_eq_getElem hlt]

/-- Over all variables a combination of the rows is zero, so what is kept of it is minus
what is neglected. -/
theorem sum_kept (ht : t.WellFormed) (y : Array (Exact 0)) (x : Nat → ℚ) :
    (((t.rayTerms y x).filter fun u => rayCutoff y < |u.1.value|).map
      fun u => u.1.value * u.2.2).sum = -t.program.neglected y x := by
  have hterm : ∀ g u : ℚ, (if rayCutoff y < |g| then g * u else 0) =
      g * u - if |g| ≤ rayCutoff y then g * u else 0 := by
    intro g u
    by_cases hg : rayCutoff y < |g|
    · rw [if_pos hg, if_neg (not_le.mpr hg), sub_zero]
    · rw [if_neg hg, if_pos (not_lt.mp hg), sub_self]
  have hcolumns : ∑ j ∈ Finset.range t.columnCount,
      (if rayCutoff y < |(t.columnTerm y x j).1.value| then
        (t.columnTerm y x j).1.value * x j else 0) =
      ∑ j ∈ Finset.range t.columnCount, (t.program.combinationAt y j * x j -
        if |t.program.combinationAt y j| ≤ rayCutoff y then
          t.program.combinationAt y j * x j else 0) := by
    refine Finset.sum_congr rfl fun j hj => ?_
    have hvalue : (t.columnTerm y x j).1.value = t.program.combinationAt y j :=
      value_lineDot ht (Finset.mem_range.mp hj)
    rw [hvalue, hterm]
  -- the rows beyond the end of the ray have a multiplier of zero
  have hrows : ∑ i ∈ Finset.range (min y.size t.rowCount),
      (if rayCutoff y < |arrayAt y i| then arrayAt y i * -t.program.activityAt x i else 0) =
      ∑ i ∈ Finset.range t.rowCount, ((if |arrayAt y i| ≤ rayCutoff y then
        arrayAt y i * t.program.activityAt x i else 0) -
          arrayAt y i * t.program.activityAt x i) := by
    rw [Finset.sum_subset (Finset.range_mono (min_le_right y.size t.rowCount)) fun i hi hout => ?_]
    · refine Finset.sum_congr rfl fun i _ => ?_
      rw [hterm, mul_neg]
      split
      · ring
      · ring
    · have hsize : y.size ≤ i := by
        simp only [Finset.mem_range] at hi hout
        omega
      rw [arrayAt, getD_of_size_le hsize, value_zero, zero_mul, ite_self]
  have hbalance := t.program.sum_combinationAt_mul y x
  rw [Finset.sum_sub_distrib] at hcolumns hrows
  unfold rayTerms LinearProgram.neglected
  rw [List.filter_append, List.map_append, List.sum_append, List.filter_map, List.filter_map,
    List.map_map, List.map_map, sum_map_filter_range, sum_map_filter_range]
  simp only [Function.comp_apply, decide_eq_true_eq]
  refine (congr (congrArg HAdd.hAdd hcolumns) hrows).trans ?_
  have hcolumnCount : t.columnCount = t.program.columnCount := rfl
  have hrowCount : t.rowCount = t.program.rowCount := rfl
  rw [hcolumnCount, hrowCount]
  linarith

/-- A point within the bounds is one at which the numbers that count as zero in a dual ray
make up for the rest of it. -/
theorem cutoff_lt_neglected (ht : t.WellFormed) (h : isDualRay t.program y = true)
    (hx : t.program.Admits 0 x) : rayCutoff y < t.program.neglected y x := by
  have hkept : (Bound.sum (((t.rayTerms y x).filter fun u => rayCutoff y < |u.1.value|).map
      fun u => u.2.1.supremum u.1)).AtLeast (-t.program.neglected y x) := by
    rw [← sum_kept ht]
    exact Bound.atLeast_sum fun u hu =>
      (within_of_mem_rayTerms ht hx (List.mem_filter.mp hu).1).atLeast_supremum u.1
  have hcutoff := value_rayZero_mul y
  have hfilter : (t.rayTerms y x).filter ((fun (u : Exact 0 × Interval (Exact 0)) =>
      decide (rayZero * y.toList.foldl (fun m u => larger m (magnitude u)) 1 < magnitude u.1)) ∘
        fun u => (u.1, u.2.1)) =
      (t.rayTerms y x).filter fun u => rayCutoff y < |u.1.value| := by
    refine List.filter_congr fun u _ => decide_eq_decide.mpr ?_
    rw [lt_iff, hcutoff, value_magnitude, Exact.abs_eq]
  unfold isDualRay at h
  dsimp only at h
  rw [← map_rayTerms ht y x, List.filter_map, hfilter, List.map_map] at h
  generalize hsum : (Bound.sum _ : Bound (Exact 0)) = bound at h
  have hbound : bound.AtLeast (-t.program.neglected y x) := by
    rw [← hsum]
    exact hkept
  cases bound with
  | negInf => exact hbound.elim
  | finite v =>
    have hv : v.value < -rayCutoff y := by
      rw [← hcutoff, ← value_neg]
      exact of_decide_eq_true h
    have hle : -t.program.neglected y x ≤ v.value := hbound
    linarith
  | posInf => exact absurd h Bool.false_ne_true

end Job

/-- What a dual ray says about the points within all bounds of a program. -/
structure LinearProgram.RuledOutBy (lp : LinearProgram (Exact 0)) (y : Array (Exact 0)) : Prop where
  neglected : ∀ x, lp.Admits 0 x → rayCutoff y < lp.neglected y x
  length : ∀ x, lp.Admits 0 x → 1 < lp.neglectedLength y x
  /-- There are none if only zeros count as zero. -/
  empty : (∀ j, j < lp.columnCount → lp.combinationAt y j ≠ 0 →
      rayCutoff y < |lp.combinationAt y j|) →
    (∀ i, i < lp.rowCount → arrayAt y i ≠ 0 → rayCutoff y < |arrayAt y i|) →
    ∀ x, ¬ lp.Admits 0 x

theorem Job.ruledOutBy {t : Job (Exact 0)} (ht : t.WellFormed) {y : Array (Exact 0)}
    (h : isDualRay t.program y = true) : t.program.RuledOutBy y := by
  have hlength : ∀ x, t.program.Admits 0 x → 1 < t.program.neglectedLength y x := by
    intro x hx
    have hlt := (cutoff_lt_neglected ht h hx).trans_le (t.program.neglected_le y x)
    exact (lt_mul_iff_one_lt_right (rayCutoff_pos y)).mp hlt
  refine ⟨fun x hx => cutoff_lt_neglected ht h hx, hlength, fun hcolumns hrows x hx => ?_⟩
  have hzero : t.program.neglectedLength y x = 0 := by
    unfold LinearProgram.neglectedLength
    rw [Finset.sum_eq_zero fun j hj => if_neg fun hg =>
        (hcolumns j (Finset.mem_range.mp hj) hg.1).not_ge hg.2,
      Finset.sum_eq_zero fun i hi => if_neg fun hg =>
        (hrows i (Finset.mem_range.mp hi) hg.1).not_ge hg.2, add_zero]
  exact absurd (hlength x hx) (by rw [hzero]; norm_num)

/-- A point within all bounds of a program with a dual ray lives on the coefficients and
multipliers that count as zero in the ray, and is more than one away from zero there.  So it
is with every solve that finds a program infeasible, by the ray that it reports. -/
theorem ruledOutBy_dualRay {d : Draft (Exact 0)} {lp : LinearProgram (Exact 0)}
    (hbuild : d.build = .ok lp) :
    (∀ y, isDualRay lp y = true → lp.RuledOutBy y) ∧
    ∀ (basis : Basis) (p : Parameters (Exact 0)) (budget : Nat) (s : Solution (Exact 0)),
      solveWithBasis budget lp basis p = .ok (some s) → s.status = .primalInfeasible →
        ∃ y, s.dualRay = some y ∧ isDualRay lp y = true ∧ lp.RuledOutBy y := by
  have hray : ∀ y, isDualRay lp y = true → lp.RuledOutBy y := fun y h =>
    Job.ruledOutBy (Job.wellFormed_of_build d.canonical_exact hbuild Parameters.validate_default) h
  refine ⟨hray, fun basis p budget s hsolve hstatus => ?_⟩
  obtain ⟨last, -, hs, -, hproves, hground, -⟩ :=
    exists_concluded d.canonical_exact hbuild hsolve
  rw [hstatus] at hproves
  obtain ⟨y, hproof, hlast, -⟩ := hproves
  have hreported : s.dualRay = last.dualRay := by
    rw [hs]
    exact congrArg Ground.dualRay hground
  exact ⟨y, hreported.trans hlast, hproof, hray y hproof⟩

/-- The triangle whose bounds contradict each other has no points. -/
theorem ruledOutBy_dualRay_emptyTriangle : ∃ (lp : LinearProgram (Exact 0))
    (s : Solution (Exact 0)), Draft.emptyTriangle.build = .ok lp ∧
    solveWithBasis 12 lp (Basis.slack lp) .default = .ok (some s) ∧
    s.status = .primalInfeasible ∧ ∀ x, ¬ lp.Admits 0 x := by
  obtain ⟨lp, s, hbuild, hsolve, hs⟩ := exists_of_any_solution Draft.emptyTriangle .default 12
    (fun lp s => decide (s.status = .primalInfeasible) && s.dualRay.any fun y =>
      decide ((∀ j, j < lp.columnCount → lp.combinationAt y j ≠ 0 →
          rayCutoff y < |lp.combinationAt y j|) ∧
        ∀ i, i < lp.rowCount → arrayAt y i ≠ 0 → rayCutoff y < |arrayAt y i|))
    (by decide +kernel)
  obtain ⟨hstatus, hexact⟩ := Bool.and_eq_true_iff.mp hs
  obtain ⟨y, hy, -, hruledOut⟩ :=
    (ruledOutBy_dualRay hbuild).2 _ _ _ s hsolve (of_decide_eq_true hstatus)
  rw [hy] at hexact
  obtain ⟨hcolumns, hrows⟩ := of_decide_eq_true hexact
  exact ⟨lp, s, hbuild, hsolve, of_decide_eq_true hstatus, hruledOut.empty hcolumns hrows⟩

/-- A row that needs its one column to be large. -/
def Draft.thin : Draft (Exact 0) :=
  { (blank 1 1).withMatrix #[0, 1] #[0] #[1e-10] with rowLower := #[.finite 1] }

/-- A program with a point that is found infeasible, by a ray in which the coefficient of
its column counts as zero. -/
theorem admits_thin : ∃ (lp : LinearProgram (Exact 0)) (s : Solution (Exact 0)),
    Draft.thin.build = .ok lp ∧ isDualRay lp #[1] = true ∧
    solveWithBasis 12 lp (Basis.slack lp) .default = .ok (some s) ∧
    s.status = .primalInfeasible ∧ lp.Admits 0 fun _ => 10000000000 := by
  obtain ⟨lp, s, hbuild, hsolve, hs⟩ := exists_of_any_solution Draft.thin .default 12
    (fun lp s => decide (isDualRay lp #[1] = true ∧ s.status = .primalInfeasible ∧
      lp.Admits 0 fun _ => 10000000000)) (by decide +kernel)
  obtain ⟨hray, hstatus, hpoint⟩ := of_decide_eq_true hs
  exact ⟨lp, s, hbuild, hray, hsolve, hstatus, hpoint⟩

end DualSimplex
