import DualSimplex.Proofs.Engine.Endings
import DualSimplex.Proofs.Engine.Wording

/-!
# The two senses of a program

To maximize an objective is to minimize its negative.  A solve of either program takes the same
steps to the same basis and the same point, and what it reports in terms of the objective is
negated.
-/

namespace DualSimplex

open Scalar

variable {α : Type} [Scalar α]

/-- One scalar is minus the other, where a zero may have either sign, and something that is not a
number is minus anything that is not a number. -/
def Scalar.Negates (x y : α) : Prop :=
  y = -x ∨ ((x == 0) = true ∧ (y == 0) = true) ∨ (isNaN x = true ∧ isNaN y = true)

/-- Scalars whose arithmetic treats a value as it treats its negative.  This is true of binary
floating point, whose rounding is symmetric. -/
class SymmetricScalar (α : Type) [Scalar α] : Prop where
  neg_zero_beq_zero : (-(0 : α) == 0) = true
  negates_add {x y x' y' : α} : Negates x y → Negates x' y' → Negates (x + x') (y + y')
  negates_neg_mul (x y : α) : Negates (x * y) (-x * y)

theorem Exact.negates_iff {cutoff : Rat} {x y : Exact cutoff} :
    Negates x y ↔ y = -x ∨ x = 0 ∧ y = 0 := by
  unfold Negates
  rw [beq_iff, beq_iff]
  refine or_congr_right ⟨fun h => ?_, Or.inl⟩
  rcases h with hzero | hnone
  · exact hzero
  · exact absurd hnone.1 Bool.false_ne_true

instance {cutoff : Rat} : SymmetricScalar (Exact cutoff) where
  neg_zero_beq_zero := MirroredScalar.neg_zero_beq_zero
  negates_add {x y x' y'} h h' := by
    have hvalue : ∀ {x y : Exact cutoff}, Negates x y → y.value = -x.value := by
      intro x y h
      rcases Exact.negates_iff.mp h with rfl | ⟨rfl, rfl⟩
      · rfl
      · exact neg_zero.symm
    refine Or.inl (Exact.eq_iff.mpr ⟨?_, rfl⟩)
    show y.value + y'.value = -(x.value + x'.value)
    rw [hvalue h, hvalue h', neg_add]
  negates_neg_mul x y := Or.inl (Exact.eq_iff.mpr ⟨neg_mul x.value y.value, rfl⟩)

theorem Scalar.negates_sum [SymmetricScalar α] {xs ys : List α}
    (h : List.Forall₂ Negates xs ys) : Negates (sum xs) (sum ys) := by
  have hfold : ∀ x y : α, Negates x y →
      Negates (xs.foldl (· + ·) x) (ys.foldl (· + ·) y) := by
    induction h with
    | nil => exact fun x y hxy => hxy
    | cons hhead _ ih => exact fun x y hxy => ih _ _ (SymmetricScalar.negates_add hxy hhead)
  have hzero := SymmetricScalar.neg_zero_beq_zero (α := α)
  exact hfold _ _ (Or.inr (Or.inl ⟨hzero, hzero⟩))

/-- To minimize the negative of the objective. -/
def LinearProgram.negated (lp : LinearProgram α) : LinearProgram α :=
  { lp with sense := .minimize, offset := -lp.offset, costs := lp.costs.map (- ·) }

theorem LinearProgram.negates_objective [SymmetricScalar α] (lp : LinearProgram α)
    (x : Array α) : Negates (lp.objective x) (lp.negated.objective x) := by
  refine SymmetricScalar.negates_add (Or.inl rfl) (negates_sum ?_)
  show List.Forall₂ Negates _ (List.zipWith (· * ·) (lp.costs.map (- ·)).toList x.toList)
  rw [Array.toList_map]
  generalize lp.costs.toList = costs
  generalize x.toList = values
  induction costs generalizing values with
  | nil => exact List.Forall₂.nil
  | cons c costs ih =>
    cases values with
    | nil => exact List.Forall₂.nil
    | cons v values => exact List.Forall₂.cons (SymmetricScalar.negates_neg_mul c v) (ih values)

/-- Two solutions of which the second one reports the objective with the opposite sign, and its
duals. -/
structure Solution.Opposes (s s' : Solution α) : Prop where
  status : s'.status = s.status
  columnValues : s'.columnValues = s.columnValues
  rowValues : s'.rowValues = s.rowValues
  basis : s'.basis = s.basis
  basicIndex : s'.basicIndex = s.basicIndex
  dualRay : s'.dualRay = s.dualRay
  primalRay : s'.primalRay = s.primalRay
  primalInfeasibilities : s'.primalInfeasibilities = s.primalInfeasibilities
  dualInfeasibilities : s'.dualInfeasibilities = s.dualInfeasibilities
  statistics : s'.statistics = s.statistics
  columnDuals : s.columnDuals = s'.columnDuals.map (- ·)
  rowDuals : s.rowDuals = s'.rowDuals.map (- ·)
  objective : Negates s.objective s'.objective

/-- Two solves that fail alike, or that both need a larger budget, or whose solutions oppose each
other. -/
def OpposingSolves : Except (SolveError α) (Option (Solution α)) →
    Except (SolveError α) (Option (Solution α)) → Prop
  | .error e, .error e' => e' = e
  | .ok none, .ok none => True
  | .ok (some s), .ok (some s') => s.Opposes s'
  | _, _ => False

/-- The negated program as another wording of the same job. -/
def LinearProgram.negation (lp : LinearProgram α) (limit : Option Nat) : Wording α where
  sense := .minimize
  offset := -lp.offset
  costs := lp.costs.map (- ·)
  limit := limit

theorem LinearProgram.keeps_negation {lp : LinearProgram α} (hsense : lp.sense = .maximize)
    (p : Parameters α) : (lp.negation p.iterationLimit).Keeps ⟨lp, p⟩ := by
  show (lp.costs.map (- ·)).map (fun x => x) = lp.costs.map lp.sense.orient
  rw [hsense, Array.map_id']
  rfl

theorem LinearProgram.columnCount_negated (lp : LinearProgram α) :
    lp.negated.columnCount = lp.columnCount :=
  Array.size_map

theorem Engine.opposes_solution [SymmetricScalar α] {lp : LinearProgram α}
    (hsense : lp.sense = .maximize) (p : Parameters α) (e : Engine α) (status : SolveStatus) :
    (e.solution ⟨lp, p⟩ status).Opposes (e.solution ⟨lp.negated, p⟩ status) := by
  have hkeeps := LinearProgram.keeps_negation hsense p
  have hcount : Job.columnCount ⟨lp.negated, p⟩ = Job.columnCount ⟨lp, p⟩ :=
    lp.columnCount_negated
  have hduals : ∀ xs : Array α,
      xs.map lp.sense.orient = (xs.map lp.negated.sense.orient).map (- ·) := by
    intro xs
    rw [hsense, Array.map_map]
    rfl
  exact {
    status := rfl
    columnValues := congrArg (fun n => e.value.take n) hcount
    rowValues := congrArg (fun n => (e.value.drop n).map (- ·)) hcount
    basis := congrArg (fun n => Basis.mk (e.status.take n)
      ((e.status.drop n).map VariableStatus.opposite)) hcount
    basicIndex := rfl
    dualRay := rfl
    primalRay := rfl
    primalInfeasibilities := congrFun (Engine.primalInfeasibilities_reword hkeeps) e
    dualInfeasibilities := congrFun (Engine.dualInfeasibilities_reword hkeeps) e
    statistics := rfl
    columnDuals := by
      show (e.reducedCost.take _).map _ = ((e.reducedCost.take _).map _).map _
      rw [hcount]
      exact hduals _
    rowDuals := hduals _
    objective := by
      show Negates (lp.objective (e.value.take _)) (lp.negated.objective (e.value.take _))
      rw [hcount]
      exact lp.negates_objective _ }

/-- From the same basis and with the same parameters, a program to maximize and its negation to
minimize have solutions that oppose each other. -/
theorem solve_negated [SymmetricScalar α] {lp : LinearProgram α} (hsense : lp.sense = .maximize)
    (budget : Nat) (basis : Basis) (p : Parameters α) :
    OpposingSolves (solveWithBasis budget lp basis p)
      (solveWithBasis budget lp.negated basis p) := by
  have hkeeps := LinearProgram.keeps_negation hsense p
  have hvalidate : basis.validate lp.negated = basis.validate lp := by
    unfold Basis.validate
    rw [lp.columnCount_negated]
    rfl
  have hjob : Job.mk lp.negated p = (Job.mk lp p).reword (lp.negation p.iterationLimit) := rfl
  have hbegin : Run.begin (Job.mk lp.negated p) basis = Run.begin (Job.mk lp p) basis := by
    rw [hjob, Run.begin_reword hkeeps]
  have houtcome : ∀ r : Run α, r.outcome? (Job.mk lp.negated p) budget =
      r.outcome? (Job.mk lp p) budget := by
    intro r
    rw [hjob, Run.outcome_reword hkeeps rfl]
  have hconclude : Engine.conclude (Job.mk lp.negated p) = Engine.conclude (Job.mk lp p) := by
    rw [hjob, Engine.conclude_reword hkeeps]
  unfold solveWithBasis
  rw [hvalidate]
  cases p.validate with
  | error e => exact rfl
  | ok _ =>
    cases basis.validate lp with
    | error e => exact rfl
    | ok _ =>
      dsimp only
      rw [hbegin, houtcome, hconclude]
      cases (Run.begin ⟨lp, p⟩ basis).outcome? ⟨lp, p⟩ budget with
      | none => exact trivial
      | some ended =>
        obtain ⟨status, e⟩ := ended
        exact Engine.opposes_solution hsense p (e.conclude ⟨lp, p⟩) status

/-- Maximize `x - y` where both are between zero and three in sum. -/
def Draft.ridge : Draft (Exact 0) :=
  { (blank 1 2).withMatrix #[0, 1, 2] #[0, 0] #[1, 1] with
    sense := .maximize
    offset := (2 : Nat)
    costs := #[1, -1]
    rowUpper := #[.finite (3 : Nat)] }

/-- The maximum of five is reported as a minimum of minus five. -/
theorem solve_negated_ridge : ∃ (lp : LinearProgram (Exact 0)) (s s' : Solution (Exact 0)),
    Draft.ridge.build = .ok lp ∧ lp.sense = .maximize ∧
    solveWithBasis 12 lp (Basis.slack lp) .default = .ok (some s) ∧
    solveWithBasis 12 lp.negated (Basis.slack lp) .default = .ok (some s') ∧
    s.status = .optimal ∧ s.objective = 5 ∧ s'.objective = -5 ∧ s.Opposes s' := by
  obtain ⟨lp, s, hbuild, hsolve, hs⟩ := exists_of_any_solution Draft.ridge .default 12
    (fun lp s => decide (lp.sense = .maximize ∧ s.status = .optimal ∧ s.objective = 5))
    (by decide +kernel)
  obtain ⟨hsense, hstatus, hobjective⟩ := of_decide_eq_true hs
  have hopposes := solve_negated hsense 12 (Basis.slack lp) (Parameters.default)
  rw [hsolve] at hopposes
  match hsolve' : solveWithBasis 12 lp.negated (Basis.slack lp) .default, hopposes with
  | .ok (some s'), hopposes =>
    refine ⟨lp, s, s', hbuild, hsense, hsolve, hsolve', hstatus, hobjective, ?_, hopposes⟩
    have hobjective' := hopposes.objective
    rw [hobjective] at hobjective'
    rcases Exact.negates_iff.mp hobjective' with hneg | ⟨hzero, -⟩
    · exact hneg
    · exact absurd hzero (by decide)

end DualSimplex
