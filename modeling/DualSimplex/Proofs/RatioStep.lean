import DualSimplex.Proofs.Exact
import DualSimplex.Proofs.RatioTest
import Mathlib.Algebra.Order.Field.Basic
import Mathlib.Tactic.Linarith

/-!
# The step of a ratio test

With exact numbers the last group of a ratio test lies behind all candidates that it has
passed, and whichever of the group ends the step, none of those that are left is passed by
more than the tolerance allows.
-/

namespace DualSimplex

open Scalar Exact

/-! ## The signs of reduced costs -/

namespace VariableStatus

/-- Times these signs a reduced cost should not be negative. -/
def Moves (s : VariableStatus) (m : ℚ) : Prop :=
  match s with
  | .atLower => m = 1
  | .atUpper => m = -1
  | .free => m = 1 ∨ m = -1
  | .fixed | .basic => False

variable {cutoff : Rat} {s : VariableStatus} {d : Exact cutoff} {limit m : ℚ}

theorem value_dualInfeasibility_le (hlimit : 0 ≤ limit) :
    (s.dualInfeasibility d).value ≤ limit ↔ ∀ m, s.Moves m → -limit ≤ m * d.value := by
  cases s with
  | basic | fixed => exact iff_of_true hlimit fun m hm => absurd hm id
  | atLower =>
    have hvalue : (VariableStatus.atLower.dualInfeasibility d).value = max (-d.value) 0 :=
      value_larger (-d) 0
    rw [hvalue, max_le_iff]
    constructor
    · rintro ⟨h, -⟩ m rfl
      linarith
    · intro h
      have hone := h 1 rfl
      exact ⟨by linarith, hlimit⟩
  | atUpper =>
    have hvalue : (VariableStatus.atUpper.dualInfeasibility d).value = max d.value 0 :=
      value_larger d 0
    rw [hvalue, max_le_iff]
    constructor
    · rintro ⟨h, -⟩ m rfl
      linarith
    · intro h
      have hone := h (-1) rfl
      exact ⟨by linarith, hlimit⟩
  | free =>
    have hvalue : (VariableStatus.free.dualInfeasibility d).value = |d.value| := Exact.abs_eq _
    rw [hvalue, abs_le]
    constructor
    · rintro ⟨hlower, hupper⟩ m (rfl | rfl)
      · linarith
      · linarith
    · intro h
      have hone := h 1 (Or.inl rfl)
      have hminus := h (-1) (Or.inr rfl)
      exact ⟨by linarith, by linarith⟩

theorem value_dualInfeasibility_of_zero (hd : d.value = 0) : (s.dualInfeasibility d).value = 0 := by
  cases s with
  | basic | fixed => rfl
  | atLower =>
    refine (value_larger (-d) 0).trans ?_
    rw [value_neg, hd, neg_zero]
    exact max_self 0
  | atUpper =>
    refine (value_larger d 0).trans ?_
    rw [hd]
    exact max_self 0
  | free =>
    refine (Exact.abs_eq _).trans ?_
    rw [hd, abs_zero]

theorem moves_opposite (hs : s ≠ .free) : s.opposite.Moves m ↔ s.Moves (-m) := by
  cases s with
  | basic | fixed => exact Iff.rfl
  | atLower => exact ⟨fun h => by rw [h, neg_neg]; rfl, fun h => by rw [← neg_neg m, h]; rfl⟩
  | atUpper => exact ⟨fun h => by rw [h]; rfl, fun h => neg_inj.mp h⟩
  | free => exact absurd rfl hs

end VariableStatus

/-! ## Groups of candidates -/

namespace RatioTest

/-- The group has all candidates that satisfy the condition. -/
theorem mem_split_snd {α : Type} {p : Candidate α → Bool} {cs : List (Candidate α)}
    {c : Candidate α} (hc : c ∈ (split p cs).2) : p c = false := by
  have hfold : ∀ s : List (Candidate α) × List (Candidate α), (∀ c ∈ s.2, p c = false) →
      ∀ c ∈ (cs.foldl (splitStep p) s).2, p c = false := by
    intro s hs
    refine List.foldlRecOn cs (splitStep p) (motive := fun s => ∀ c ∈ s.2, p c = false) hs
      fun s hs c _ => ?_
    unfold splitStep
    split
    · intro d hd
      rcases List.mem_append.mp hd with hd | hd
      · exact hs d (List.mem_of_mem_drop hd)
      · exact hs d (List.mem_of_mem_take hd)
    · rename_i hp
      intro d hd
      rcases List.mem_append.mp hd with hd | hd
      · exact hs d hd
      · rw [List.mem_singleton.mp hd]
        exact Bool.eq_false_iff.mpr hp
  exact hfold ([], []) nofun c hc

variable {cutoff : Rat} {dualTolerance : Exact cutoff}

theorem value_smaller (x y : Exact cutoff) : (smaller x y).value = min x.value y.value := by
  show (if x ≤ y then x else if false = true then x else y).value = _
  by_cases h : x ≤ y
  · rw [if_pos h, min_eq_left (le_iff.mp h)]
  · rw [if_neg h, if_neg Bool.false_ne_true,
      min_eq_right (le_of_not_ge fun h' => h (le_iff.mpr h'))]

theorem maxStep_append (cs : List (Candidate (Exact cutoff))) (c : Candidate (Exact cutoff)) :
    maxStep dualTolerance (cs ++ [c]) =
      match maxStep dualTolerance cs with
      | .finite least => .finite (smaller least (c.ratio + dualTolerance / c.alpha))
      | _ => .finite (c.ratio + dualTolerance / c.alpha) := by
  unfold maxStep
  rw [List.foldl_append, List.foldl_cons, List.foldl_nil]
  generalize List.foldl _ _ cs = limit
  cases limit with
  | negInf => rfl
  | finite least => rfl
  | posInf => rfl

variable (dualTolerance) in
/-- No candidate is infeasible by more than the tolerance after the largest step. -/
theorem exists_maxStep {cs : List (Candidate (Exact cutoff))} (hcs : cs ≠ []) :
    ∃ limit : Exact cutoff, maxStep dualTolerance cs = .finite limit ∧
      ∀ c ∈ cs, limit.value ≤ c.ratio.value + dualTolerance.value / c.alpha.value := by
  induction cs using List.reverseRecOn with
  | nil => exact absurd rfl hcs
  | append_singleton cs c ih =>
    rw [maxStep_append]
    by_cases hnone : cs = []
    · rw [hnone]
      refine ⟨c.ratio + dualTolerance / c.alpha, rfl, fun d hd => ?_⟩
      rw [List.mem_singleton.mp hd]
      exact le_rfl
    · obtain ⟨limit, heq, hle⟩ := ih hnone
      rw [heq]
      refine ⟨smaller limit (c.ratio + dualTolerance / c.alpha), rfl, fun d hd => ?_⟩
      rw [value_smaller]
      rcases List.mem_append.mp hd with hd | hd
      · exact (min_le_left _ _).trans (hle d hd)
      · rw [List.mem_singleton.mp hd]
        exact min_le_right _ _

variable {cs : List (Candidate (Exact cutoff))}

/-- The largest step takes some candidate to the tolerance. -/
theorem exists_mem_maxStep (hcs : cs ≠ []) {limit : Exact cutoff}
    (hlimit : maxStep dualTolerance cs = .finite limit) :
    ∃ c ∈ cs, limit.value = c.ratio.value + dualTolerance.value / c.alpha.value := by
  induction cs using List.reverseRecOn generalizing limit with
  | nil => exact absurd rfl hcs
  | append_singleton cs c ih =>
    have hself : c ∈ cs ++ [c] := List.mem_append_right cs (List.mem_singleton.mpr rfl)
    rw [maxStep_append] at hlimit
    by_cases hnone : cs = []
    · rw [hnone] at hlimit
      exact ⟨c, hself, congrArg value (Bound.finite.inj hlimit).symm⟩
    · obtain ⟨least, hleast, -⟩ := exists_maxStep dualTolerance hnone
      obtain ⟨d, hd, hvalue⟩ := ih hnone hleast
      rw [hleast] at hlimit
      have hsmaller : limit.value =
          min least.value (c.ratio.value + dualTolerance.value / c.alpha.value) := by
        rw [← Bound.finite.inj hlimit, value_smaller]
        rfl
      rcases min_choice least.value (c.ratio.value + dualTolerance.value / c.alpha.value)
        with hmin | hmin
      · exact ⟨d, List.mem_append_left _ hd, by rw [hsmaller, hmin, hvalue]⟩
      · exact ⟨c, hself, by rw [hsmaller, hmin]⟩

/-- The candidates that can be passed before one of them is infeasible by more than the
tolerance. -/
def foremost (dualTolerance : Exact cutoff) (cs : List (Candidate (Exact cutoff))) :
    List (Candidate (Exact cutoff)) :=
  cs.filter fun c => cs.all fun d => c.ratio ≤ d.ratio + dualTolerance / d.alpha

theorem mem_foremost {c : Candidate (Exact cutoff)} :
    c ∈ foremost dualTolerance cs ↔ c ∈ cs ∧
      ∀ d ∈ cs, c.ratio.value ≤ d.ratio.value + dualTolerance.value / d.alpha.value := by
  rw [foremost, List.mem_filter, List.all_eq_true]
  refine and_congr_right fun _ => forall₂_congr fun d _ => ?_
  rw [decide_eq_true_iff]
  rfl

/-- A round splits off the foremost candidates. -/
theorem groups_fst (dualTolerance : Exact cutoff) (cs : List (Candidate (Exact cutoff))) :
    (groups dualTolerance cs).1 = foremost dualTolerance cs := by
  rw [groups, split_fst, foremost]
  refine List.filter_congr fun c hc => ?_
  have hcs := List.ne_nil_of_mem hc
  obtain ⟨limit, hlimit, hle⟩ := exists_maxStep dualTolerance hcs
  obtain ⟨d, hd, hvalue⟩ := exists_mem_maxStep hcs hlimit
  rw [hlimit, Bool.eq_iff_iff, List.all_eq_true]
  show decide (c.ratio ≤ limit) = true ↔ _
  rw [decide_eq_true_iff, le_iff]
  constructor
  · intro h e he
    exact decide_eq_true (h.trans (hle e he))
  · intro h
    rw [hvalue]
    exact of_decide_eq_true (h d hd)

/-- The foremost candidates lie before the others. -/
theorem lt_of_mem_groups_snd {c d : Candidate (Exact cutoff)}
    (hc : c ∈ foremost dualTolerance cs) (hd : d ∈ (groups dualTolerance cs).2) :
    c.ratio.value < d.ratio.value := by
  have hbehind := mem_split_snd hd
  obtain ⟨hmem, hle⟩ := mem_foremost.mp hc
  have hcs := List.ne_nil_of_mem hmem
  obtain ⟨limit, hlimit, -⟩ := exists_maxStep dualTolerance hcs
  obtain ⟨e, he, hvalue⟩ := exists_mem_maxStep hcs hlimit
  rw [hlimit] at hbehind
  have hlt : limit.value < d.ratio.value := not_le.mp (of_decide_eq_false hbehind)
  rw [hvalue] at hlt
  exact (hle e he).trans_lt hlt

/-- Where a ratio test ends: at one of the candidates that are left, behind all those that
it has passed. -/
structure EndsAt (dualTolerance : Exact cutoff)
    (cs passed rest : List (Candidate (Exact cutoff))) (last : Candidate (Exact cutoff)) :
    Prop where
  perm : (passed ++ rest).Perm cs
  mem : last ∈ rest
  lt_of_passed : ∀ c ∈ passed, c.ratio.value < last.ratio.value
  le_of_rest : ∀ c ∈ rest,
    last.ratio.value ≤ c.ratio.value + dualTolerance.value / c.alpha.value

variable {passed rest : List (Candidate (Exact cutoff))} {last : Candidate (Exact cutoff)}

theorem endsAt_of_mem_foremost (h : last ∈ foremost dualTolerance cs) :
    EndsAt dualTolerance cs [] cs last :=
  ⟨.refl cs, (mem_foremost.mp h).1, nofun, (mem_foremost.mp h).2⟩

/-- The foremost candidates may be passed before a test ends behind them. -/
theorem EndsAt.pass (h : EndsAt dualTolerance (groups dualTolerance cs).2 passed rest last) :
    EndsAt dualTolerance cs (foremost dualTolerance cs ++ passed) rest last where
  perm := by
    have hperm := groups_perm dualTolerance cs
    rw [groups_fst] at hperm
    rw [List.append_assoc]
    exact (h.perm.append_left _).trans hperm
  mem := h.mem
  lt_of_passed c hc := by
    rcases List.mem_append.mp hc with hc | hc
    · exact lt_of_mem_groups_snd hc (h.perm.mem_iff.mp (List.mem_append_right _ h.mem))
    · exact h.lt_of_passed c hc
  le_of_rest := h.le_of_rest

theorem Rounds.endsAt {primalTolerance slope : Exact cutoff} {o : Outcome (Exact cutoff)}
    (h : Rounds dualTolerance primalTolerance slope cs o) {j : Nat} {alpha step : Exact cutoff}
    (hresult : o.result = .entering j alpha step) :
    ∃ passed rest last, EndsAt dualTolerance cs passed rest last ∧
      o.flips = passed.map Candidate.variableIndex ∧
      last.variableIndex = j ∧ step = larger last.ratio 0 := by
  induction h with
  | none => exact absurd hresult nofun
  | @last slope cs _ _ =>
    obtain ⟨last, hlast, hj, -, hstep⟩ := exists_of_choose hresult
    rw [groups_fst] at hlast
    exact ⟨[], cs, last, endsAt_of_mem_foremost hlast, rfl, hj, hstep.symm⟩
  | @pass slope cs o _ _ _ ih =>
    obtain ⟨passed, rest, last, hends, hflips, hj, hstep⟩ := ih hresult
    refine ⟨foremost dualTolerance cs ++ passed, rest, last, hends.pass, ?_, hj, hstep⟩
    dsimp only
    rw [groups_fst, hflips, List.map_append]

theorem exists_endsAt {primalTolerance : Exact cutoff} {fuel : Nat} {slope : Exact cutoff}
    {j : Nat} {alpha step : Exact cutoff}
    (h : (search dualTolerance primalTolerance fuel slope cs).result = .entering j alpha step) :
    ∃ passed rest last, EndsAt dualTolerance cs passed rest last ∧
      (search dualTolerance primalTolerance fuel slope cs).flips =
        passed.map Candidate.variableIndex ∧
      last.variableIndex = j ∧ step = larger last.ratio 0 :=
  (rounds_of_entering h).endsAt h

end RatioTest

/-! ## The reduced cost of a candidate -/

namespace Candidate

/-- Times the sign `m` the reduced cost `d` of a candidate falls along the step, by
`signed` for each unit of it, and reaches zero at the ratio. -/
structure Falls (s : VariableStatus) (signed d : ℚ) (c : Candidate (Exact 0)) (m : ℚ) :
    Prop where
  moves : ∀ m', s.Moves m' → m' = m ∨ s = .free ∧ m' = -m
  alpha_pos : 0 < c.alpha.value
  signed_eq : m * signed = c.alpha.value
  reducedCost_eq : m * d = c.alpha.value * c.ratio.value

variable {s : VariableStatus} {signed d m : ℚ} {c : Candidate (Exact 0)}

theorem Falls.ne_zero (h : c.Falls s signed d m) : m ≠ 0 := by
  rintro rfl
  have halpha := h.signed_eq
  rw [zero_mul] at halpha
  exact h.alpha_pos.ne halpha

/-- The ratio is negative just if the reduced cost is already beyond zero. -/
theorem Falls.ratio_nonneg_iff (h : c.Falls s signed d m) :
    0 ≤ c.ratio.value ↔ 0 ≤ signed * d := by
  have hsquare : m * m * (signed * d) = c.alpha.value * c.alpha.value * c.ratio.value :=
    calc m * m * (signed * d) = m * signed * (m * d) := by ring
      _ = c.alpha.value * c.alpha.value * c.ratio.value := by
        rw [h.signed_eq, h.reducedCost_eq, mul_assoc]
  have hsigns : 0 ≤ m * m * (signed * d) ↔ 0 ≤ signed * d :=
    mul_nonneg_iff_of_pos_left (mul_self_pos.mpr h.ne_zero)
  rw [← hsigns, hsquare, mul_nonneg_iff_of_pos_left (mul_pos h.alpha_pos h.alpha_pos)]

/-- The step that takes the reduced cost to zero is the ratio. -/
theorem Falls.eq_mul_iff (h : c.Falls s signed d m) {step : ℚ} :
    d = step * signed ↔ c.ratio.value = step := by
  have hstepped : m * (step * signed) = c.alpha.value * step := by
    rw [← h.signed_eq]
    ring
  rw [← mul_right_inj' h.ne_zero, h.reducedCost_eq, hstepped, mul_right_inj' h.alpha_pos.ne']

/-- A candidate that is left becomes infeasible by no more than the tolerance. -/
theorem Falls.left (h : c.Falls s signed d m) {last step tolerance limit : ℚ}
    (hstep : step = max last 0) (hlast : last ≤ c.ratio.value + tolerance / c.alpha.value)
    (htolerance : tolerance ≤ limit) (hwithin : ∀ m, s.Moves m → -limit ≤ m * d) {m' : ℚ}
    (hm' : s.Moves m') : -limit ≤ m' * (d - step * signed) := by
  have hvalue : m' * d - m' * (step * signed) = m' * (d - step * signed) := by ring
  have hold := hwithin m' hm'
  rw [← hvalue]
  rcases h.moves m' hm' with rfl | ⟨-, rfl⟩
  · have hstepped : m' * (step * signed) = step * c.alpha.value := by
      rw [← h.signed_eq]
      ring
    rw [hstepped]
    rcases le_total last 0 with hnegative | hpositive
    · rw [hstep, max_eq_right hnegative, zero_mul, sub_zero]
      exact hold
    · have hscaled : last * c.alpha.value ≤
          (c.ratio.value + tolerance / c.alpha.value) * c.alpha.value :=
        mul_le_mul_of_nonneg_right hlast h.alpha_pos.le
      rw [add_mul, div_mul_cancel₀ tolerance h.alpha_pos.ne'] at hscaled
      rw [hstep, max_eq_left hpositive, h.reducedCost_eq]
      linarith
  · -- Without bounds the reduced cost may also be too large, but it has become smaller.
    have hstepped : -m * (step * signed) = -(step * c.alpha.value) := by
      rw [← h.signed_eq]
      ring
    have hnonneg : 0 ≤ step * c.alpha.value :=
      mul_nonneg (hstep ▸ le_max_right last 0) h.alpha_pos.le
    rw [hstepped]
    linarith

/-- At its other bound a candidate that is passed has a reduced cost of the right sign. -/
theorem Falls.passed (h : c.Falls s signed d m) {last step : ℚ} (hstep : step = max last 0)
    (hratio : c.ratio.value < last) (hs : s ≠ .free) {m' : ℚ} (hm' : s.opposite.Moves m') :
    0 ≤ m' * (d - step * signed) := by
  have hsign : -m' = m :=
    (h.moves (-m') ((VariableStatus.moves_opposite hs).mp hm')).resolve_right fun hc => hs hc.1
  have hvalue : m' * (d - step * signed) =
      step * c.alpha.value - c.alpha.value * c.ratio.value := by
    rw [← h.reducedCost_eq, ← h.signed_eq, ← hsign]
    ring
  have hlt : c.ratio.value < step := hstep ▸ lt_max_of_lt_left hratio
  have hscaled := mul_lt_mul_of_pos_right hlt h.alpha_pos
  rw [hvalue]
  linarith

end Candidate
end DualSimplex
