import DualSimplex.Proofs.RatioGroups
import DualSimplex.Proofs.Engine.PivotElement
import DualSimplex.Proofs.Engine.Records
import DualSimplex.Proofs.Engine.RunBounds
import DualSimplex.Proofs.Engine.SolvedDuals

/-!
# What a basis change gains

The ratio test runs along the pivot row and knows nothing of the values, and the values
move by solves with the factors.  Both meet in the objective.  Every variable that is passed
gains its range times the reduced cost that it had, and the entering variable gains what is
left of the slope times the step.  So from duals of the right sign the objective never falls.
-/

namespace DualSimplex

open Scalar Exact

/-! ## What the ratio test passes -/

theorem Candidate.Proper.loss_nonneg {cutoff : Rat} {c : Candidate (Exact cutoff)}
    (h : c.Proper) : 0 ≤ c.loss := by
  refine mul_nonneg h.alpha_pos.le ?_
  rcases h.range_nonneg with hrange | ⟨x, hrange, hx⟩
  · rw [hrange]
    exact le_rfl
  · rw [hrange]
    exact hx

namespace RatioTest

variable {cutoff : Rat} {dualTolerance primalTolerance slope : Exact cutoff}
  {cs : List (Candidate (Exact cutoff))} {o : Outcome (Exact cutoff)}

/-- What the dual objective has gained behind the breakpoints of candidates. -/
def gainOf (cs : List (Candidate (Exact cutoff))) : ℚ :=
  (cs.map fun c => c.ratio.value * c.loss).sum

theorem gainOf_nonneg (hproper : ∀ c ∈ cs, c.Proper) (hratio : ∀ c ∈ cs, 0 ≤ c.ratio.value) :
    0 ≤ gainOf cs := by
  refine List.sum_nonneg fun a ha => ?_
  obtain ⟨c, hc, rfl⟩ := List.mem_map.mp ha
  exact mul_nonneg (hratio c hc) (hproper c hc).loss_nonneg

/-- What is passed leaves more of the slope than the tolerance. -/
theorem Rounds.exists_passed (h : Rounds dualTolerance primalTolerance slope cs o)
    (hproper : ∀ c ∈ cs, c.Proper) (hprimal : 0 ≤ primalTolerance.value)
    (hslope : primalTolerance.value < slope.value) :
    ∃ passed, o.flips = passed.map Candidate.variableIndex ∧ (∀ c ∈ passed, c ∈ cs) ∧
      primalTolerance.value < slope.value - lossOf passed := by
  have hnone : lossOf ([] : List (Candidate (Exact cutoff))) = 0 := rfl
  induction h with
  | none => exact ⟨[], rfl, nofun, by rwa [hnone, sub_zero]⟩
  | last => exact ⟨[], rfl, nofun, by rwa [hnone, sub_zero]⟩
  | @pass slope cs o hcs hpassed _ ih =>
    rw [groups_fst] at hpassed ih ⊢
    have hpositive : 0 < slope.value := hprimal.trans_lt hslope
    have hforemost : ∀ c ∈ foremost dualTolerance cs, c.Proper :=
      fun c hc => hproper c (mem_foremost.mp hc).1
    obtain ⟨hranges, -, hless⟩ := exists_lessSlope hforemost hpositive hprimal hpassed
    have hloss := loss_lt_of_isLast_eq_false hranges hpassed
    have hallowed : 0 ≤ primalTolerance.value * slope.value := mul_nonneg hprimal hpositive.le
    obtain ⟨passed, hflips, hmem, hleft⟩ :=
      ih (fun c hc => hproper c (mem_of_mem_groups_snd hc)) (by rw [hless]; linarith)
    refine ⟨foremost dualTolerance cs ++ passed, ?_, fun c hc => ?_, ?_⟩
    · rw [hflips, List.map_append]
    · rcases List.mem_append.mp hc with hc | hc
      · exact (mem_foremost.mp hc).1
      · exact mem_of_mem_groups_snd (hmem c hc)
    · rw [lossOf_append, ← sub_sub, ← hless]
      exact hleft

end RatioTest

/-! ## One variable -/

namespace Interval

variable {b : Interval (Exact 0)}

theorem exists_range (h : b.lower.above b.upper = false) :
    b.range = .posInf ∨ ∃ x, b.range = .finite x ∧ 0 ≤ x.value := by
  obtain ⟨lower, upper⟩ := b
  unfold range
  split
  · rename_i hboxed
    obtain ⟨hlower, hupper⟩ := isFinite_of_isBoxed hboxed
    refine Or.inr ⟨_, rfl, ?_⟩
    cases lower with
    | negInf | posInf => exact absurd hlower nofun
    | finite l =>
      cases upper with
      | negInf | posInf => exact absurd hupper nofun
      | finite u => exact sub_nonneg.mpr (not_lt.mp (of_decide_eq_false h))
  · exact Or.inl rfl

/-- How far a variable moves to its other bound. -/
theorem restingValue_opposite_sub {s : VariableStatus} {m : ℚ} (hboxed : b.kind.isBoxed = true)
    (hs : s ≠ .free) (hm : s.Moves m) :
    (b.restingValue s.opposite).value - (b.restingValue s).value = m * b.range.value.value := by
  have hrange : b.range = .finite (b.upper.value - b.lower.value) := if_pos hboxed
  rw [hrange]
  cases s with
  | basic | fixed => exact absurd hm id
  | free => exact absurd rfl hs
  | atLower =>
    obtain rfl : m = 1 := hm
    exact (one_mul _).symm
  | atUpper =>
    obtain rfl : m = -1 := hm
    show b.lower.value.value - b.upper.value.value =
      -1 * (b.upper.value.value - b.lower.value.value)
    ring

/-- A value that lies beyond a bound by more than the tolerance violates it by the whole
way. -/
theorem violation_of_beyond (h : b.lower.above b.upper = false) {tolerance x : Exact 0}
    (htolerance : 0 < tolerance.value) {direction : ℚ} {target : Exact 0}
    (hdirection : direction = 1 ∧ b.upper = .finite target ∨
      direction = -1 ∧ b.lower = .finite target)
    (hx : tolerance.value < direction * (x.value - target.value)) :
    (b.violation tolerance x).value = x.value - target.value := by
  obtain ⟨lower, upper⟩ := b
  rcases hdirection with ⟨rfl, rfl⟩ | ⟨rfl, rfl⟩
  · have hlt : target + tolerance < x := by
      rw [lt_iff, value_add]
      linarith
    exact congrArg value (if_pos hlt)
  · have hlt : x < target - tolerance := by
      rw [lt_iff, value_sub]
      linarith
    have hbelow : ((Interval.mk (.finite target) .posInf).violation tolerance x).value =
        x.value - target.value := congrArg value (if_pos hlt)
    cases upper with
    | negInf | posInf => exact hbelow
    | finite u =>
      have hordered : target.value ≤ u.value := not_lt.mp (of_decide_eq_false h)
      have hnot : ¬u + tolerance < x := by
        rw [lt_iff, value_add, not_lt]
        linarith
      exact (congrArg value (if_neg hnot)).trans hbelow

end Interval

namespace Engine

variable {t : Job (Exact 0)} {e e' : Engine (Exact 0)} {x : Exchange (Exact 0)}

/-! ## Candidates -/

section Candidates

variable {r : PivotRow (Exact 0)} {direction : Exact 0} {j : Nat} {c : Candidate (Exact 0)}
  (hpivot : 0 ≤ t.parameters.pivotTolerance.value) (hdirection : |direction.value| = 1)

include hpivot hdirection

/-- The reduced cost of a candidate falls with one of the signs that its status asks for. -/
theorem exists_falls_moves (h : e.candidate? t r direction j = some c) :
    ∃ m, c.Falls (e.statusOf j) (direction.value * (r.entry t j).value)
      (e.reducedCostOf j).value m ∧ (e.statusOf j).Moves m := by
  obtain ⟨m, hfalls⟩ := exists_falls hpivot hdirection h
  have hsome : ∃ m', (e.statusOf j).Moves m' := by
    unfold Engine.candidate? at h
    dsimp only at h
    generalize e.statusOf j = s at h ⊢
    cases s with
    | basic | fixed => exact absurd h nofun
    | atLower => exact ⟨1, rfl⟩
    | atUpper => exact ⟨-1, rfl⟩
    | free => exact ⟨1, Or.inl rfl⟩
  obtain ⟨m', hm'⟩ := hsome
  refine ⟨m, hfalls, ?_⟩
  rcases hfalls.moves m' hm' with rfl | ⟨hfree, rfl⟩
  · exact hm'
  · rw [hfree] at hm' ⊢
    exact hm'.symm.imp (fun h => neg_inj.mp h) fun h => neg_eq_iff_eq_neg.mp h

/-- No breakpoint lies behind if all reduced costs are of the right sign. -/
theorem DualWithin.ratio_nonneg (hwithin : e.DualWithin 0)
    (h : e.candidate? t r direction j = some c) : 0 ≤ c.ratio.value := by
  obtain ⟨m, hfalls, hm⟩ := exists_falls_moves hpivot hdirection h
  have hsign : -0 ≤ m * (e.reducedCostOf j).value := (dualWithin_iff le_rfl).mp hwithin j m hm
  rw [neg_zero, hfalls.reducedCost_eq] at hsign
  exact nonneg_of_mul_nonneg_right hsign hfalls.alpha_pos

theorem proper_of_candidate
    (hordered : (e.boundsOf j).lower.above (e.boundsOf j).upper = false)
    (h : e.candidate? t r direction j = some c) : c.Proper := by
  obtain ⟨m, hfalls, -⟩ := exists_falls_moves hpivot hdirection h
  refine ⟨hfalls.alpha_pos, ?_⟩
  rw [(of_candidate h).2.1]
  exact Interval.exists_range hordered

end Candidates

/-! ## The flips -/

/-- How far a basis change moves a variable to its other bound. -/
def shift (e : Engine (Exact 0)) (x : Exchange (Exact 0)) (j : Nat) : ℚ :=
  if j ∈ x.flips then ((e.boundsOf j).restingValue (e.statusOf j).opposite).value -
    ((e.boundsOf j).restingValue (e.statusOf j)).value else 0

theorem shift_eq_zero {j : Nat} (hj : j ∉ x.flips) : e.shift x j = 0 :=
  if_neg hj

/-- The candidates that a basis change passes. -/
structure Passes (t : Job (Exact 0)) (e : Engine (Exact 0)) (x : Exchange (Exact 0))
    (passed : List (Candidate (Exact 0))) : Prop where
  flips_eq : x.flips = passed.map Candidate.variableIndex
  candidate : ∀ c ∈ passed, e.candidate? t x.row x.direction c.variableIndex = some c

section Flips

variable {passed : List (Candidate (Exact 0))}

theorem Passes.eq_filterMap (hpassed : e.Passes t x passed) :
    x.flips.filterMap (e.candidate? t x.row x.direction) = passed := by
  rw [hpassed.flips_eq, List.filterMap_map]
  exact (List.filterMap_congr hpassed.candidate).trans List.filterMap_some

/-- What adds up over the flips, by variable and by candidate. -/
theorem Passes.sum_flips (hpassed : e.Passes t x passed) (hflips : x.flips.Nodup)
    (hlt : ∀ j ∈ x.flips, j < t.size) {f : Nat → ℚ} {g : Candidate (Exact 0) → ℚ}
    (hfg : ∀ c ∈ passed, f c.variableIndex = g c) :
    ∑ j ∈ Finset.range t.size, (if j ∈ x.flips then f j else 0) = (passed.map g).sum := by
  have hfilter : (Finset.range t.size).filter (· ∈ x.flips) = x.flips.toFinset := by
    ext j
    rw [Finset.mem_filter, Finset.mem_range, List.mem_toFinset]
    exact ⟨And.right, fun hj => ⟨hlt j hj, hj⟩⟩
  rw [← Finset.sum_filter, hfilter, List.sum_toFinset f hflips, hpassed.flips_eq, List.map_map]
  exact congrArg List.sum (List.map_congr_left hfg)

/-- What a passed variable takes of the slope and gives to the objective. -/
theorem Passes.mul_shift (hpassed : e.Passes t x passed)
    (hpivot : 0 ≤ t.parameters.pivotTolerance.value) (hdirection : |x.direction.value| = 1)
    (h : e.Sound t) (hboxed : ∀ j ∈ x.flips, e.hasTwoBounds j = true) {c : Candidate (Exact 0)}
    (hc : c ∈ passed) :
    x.direction.value * ((x.row.entry t c.variableIndex).value * e.shift x c.variableIndex) =
      c.loss ∧
    (e.reducedCostOf c.variableIndex).value * e.shift x c.variableIndex =
      c.ratio.value * c.loss := by
  obtain ⟨m, hfalls, hm⟩ := exists_falls_moves hpivot hdirection (hpassed.candidate c hc)
  have hflip : c.variableIndex ∈ x.flips := hpassed.flips_eq ▸ List.mem_map_of_mem hc
  have hbounds := hboxed _ hflip
  have hshift : e.shift x c.variableIndex = m * c.range.value.value := by
    unfold shift
    rw [if_pos hflip, (of_candidate (hpassed.candidate c hc)).2.1]
    exact Interval.restingValue_opposite_sub hbounds (h.statusOf_ne_free hbounds) hm
  rw [hshift]
  constructor
  · calc x.direction.value * ((x.row.entry t c.variableIndex).value * (m * c.range.value.value))
        = m * (x.direction.value * (x.row.entry t c.variableIndex).value) *
            c.range.value.value := by ring
      _ = c.loss := by rw [hfalls.signed_eq, Candidate.loss]
  · calc (e.reducedCostOf c.variableIndex).value * (m * c.range.value.value)
        = m * (e.reducedCostOf c.variableIndex).value * c.range.value.value := by ring
      _ = c.ratio.value * c.loss := by
        rw [hfalls.reducedCost_eq, Candidate.loss]
        ring

end Flips

/-! ## Values on the way through a basis change -/

section Values

variable (ht : t.WellFormed) (h : e.Sound t) (hx : e.Fits t x)

include ht h hx

theorem Fits.sound_flipped : (e.flipped t x).Sound t ∧ (e.flipped t x).setting = e.setting := by
  obtain ⟨e₁, w, rfl, hsound, hsetting, -, -⟩ := hx.exists_swap ht h
  exact ⟨hsound, hsetting⟩

/-- The flips move the passed variables and basic ones. -/
theorem Fits.value_flipped (hflips : x.flips.Nodup) (hlt : ∀ j ∈ x.flips, j < t.size) {j : Nat}
    (hj : e.statusOf j ≠ .basic) :
    ((e.flipped t x).valueOf j).value = (e.valueOf j).value + e.shift x j := by
  obtain ⟨hsound, hsetting⟩ := hx.sound_flipped ht h
  have hstatus := h.statusOf_flipped hflips hlt j
  have hnew := beq_iff.mp ((hsound.rests j).value (by
    rw [hstatus]
    split
    · exact fun hbasic => hj (VariableStatus.opposite_eq_basic.mp hbasic)
    · exact hj))
  have hold := beq_iff.mp ((h.rests j).value hj)
  rw [hnew, hold, hstatus, boundsOf_congr hsetting]
  unfold shift
  by_cases hflip : j ∈ x.flips
  · rw [if_pos hflip, if_pos hflip, add_sub_cancel]
  · rw [if_neg hflip, if_neg hflip, add_zero]

/-- The solve for the flips keeps the equations. -/
theorem Fits.balanced_flipped (hcurrent : e.Current t) (hbalanced : e.Balanced t) :
    (e.flipped t x).Balanced t := by
  have hduals : ((e.tau? t x.row.rho).1.moveDuals t x).standing = e.standing :=
    (standing_moveDuals _ x).trans (standing_tau e _)
  have hsame := setting_congr hduals
  intro i hi
  have hkept := (hcurrent.of_setting hsame).balance_flipPassed ht (h.of_standing hduals)
    (hx.congr hsame).flips hi
  exact hkept.trans ((balance_congr (value_congr hduals) i).trans (hbalanced i hi))

/-- Of the variables outside the basis only the entering one moves after the flips. -/
theorem Entered.value_applyExchange (hentered : e.Entered t x) {j : Nat}
    (hj : e.statusOf j ≠ .basic) : ((e.applyExchange t x).1.valueOf j).value =
      ((e.flipped t x).valueOf j).value + if j = x.entering then
        (((e.flipped t x).valueOf x.leaving).value - (e.target x).value) / x.pivot.value
      else 0 := by
  obtain ⟨e₁, w, hflipped, h₁, hsetting, -, heq⟩ := hx.exists_swap ht h
  have hfits := hx.congr hsetting
  have htarget : e₁.target x = e.target x := by
    unfold Engine.target
    rw [boundsOf_congr hsetting]
  have hstays : coefficient ((e₁.amounts x).map fun u => (e₁.basicAt u.1, u.2)) j = 0 := by
    refine coefficient_of_notMem fun u hu he => hj ?_
    obtain ⟨v, hv, rfl⟩ := List.mem_map.mp hu
    have hbasic := h.statusOf_basicAt (hfits.amounts_lt v hv)
    rw [← basicAt_congr hsetting] at hbasic
    exact he ▸ hbasic
  rw [heq]
  refine ((hentered.of_setting hsetting).value_swap h₁ hfits j).trans ?_
  rw [value_lowerBasicValues h₁ hfits.amounts_lt, hstays, sub_zero, htarget, value_div, value_sub,
    hflipped]
  rfl

end Values

/-! ## Basis changes that are underway -/

/-- A basis change of an engine whose factors are valid and whose equations hold, the row and
the column it uses, and the candidates that it passes.  Its step takes the reduced cost of the
entering variable to zero. -/
structure Underway (t : Job (Exact 0)) (e : Engine (Exact 0)) (x : Exchange (Exact 0))
    (passed : List (Candidate (Exact 0))) : Prop extends Passes t e x passed where
  settled : e.Settled t
  tabled : e.Tabled t
  priced : e.Priced t
  fits : e.Fits t x
  entered : e.Entered t x
  rowed : e.Rowed t x
  distinct : x.flips.Nodup
  flips_lt : ∀ j ∈ x.flips, j < t.size
  unit : |x.direction.value| = 1
  pivot_eq : x.pivot.value = (x.row.entry t x.entering).value
  full : (e.reducedCostOf x.entering).value =
    x.step.value * (x.direction.value * (x.row.entry t x.entering).value)

/-- Along the pivot row the leaving variable makes up for the way of the others to another
solution. -/
theorem Rowed.sub_leaving (hrow : e.Rowed t x) (h : e.Sound t) (hx : e.Fits t x)
    (hbalanced : e.Balanced t) {z : Nat → ℚ} (hz : ∀ i, i < t.rowCount →
      ∑ j ∈ Finset.range t.size, coefficient (t.column j) i * z j = 0) :
    z x.leaving - (e.valueOf x.leaving).value = -∑ j ∈ Finset.range t.size,
      if e.statusOf j = .basic then 0
      else (x.row.entry t j).value * (z j - (e.valueOf j).value) := by
  have hzero := Job.sum_worth_mul x.row.rho.valueAt fun i hi =>
    hbalanced.sum_column_sub hi (hz i hi)
  rw [sum_variables h.toPlaced] at hzero
  have hbasic : ∑ p ∈ Finset.range t.rowCount, t.worth x.row.rho.valueAt (e.basicAt p) *
      (z (e.basicAt p) - (e.valueOf (e.basicAt p)).value) =
        z x.leaving - (e.valueOf x.leaving).value := by
    have hterm : ∀ p ∈ Finset.range t.rowCount, t.worth x.row.rho.valueAt (e.basicAt p) *
        (z (e.basicAt p) - (e.valueOf (e.basicAt p)).value) =
          if x.position = p then z (e.basicAt p) - (e.valueOf (e.basicAt p)).value else 0 := by
      intro p hp
      rw [hrow.unit p (Finset.mem_range.mp hp), ite_mul, one_mul, zero_mul]
    rw [Finset.sum_congr rfl hterm, Finset.sum_ite_eq,
      if_pos (Finset.mem_range.mpr hx.position_lt), ← hx.leaving_eq]
  have hresting : ∑ j ∈ Finset.range t.size, (if e.statusOf j = .basic then 0
      else t.worth x.row.rho.valueAt j * (z j - (e.valueOf j).value)) =
      ∑ j ∈ Finset.range t.size, if e.statusOf j = .basic then 0
        else (x.row.entry t j).value * (z j - (e.valueOf j).value) :=
    Finset.sum_congr rfl fun j hj => by rw [hrow.entry j (Finset.mem_range.mp hj)]
  linarith

theorem Tabled.value_currentObjective (htabled : e.Tabled t) (h : e.Sound t) :
    e.currentObjective.value =
      ∑ j ∈ Finset.range t.size, (e.costOf j).value * (e.valueOf j).value :=
  value_sum_zipWith htabled.size_cost h.size_value

namespace Underway

variable {passed : List (Candidate (Exact 0))} (ht : t.WellFormed)
  (hpivot : 0 ≤ t.parameters.pivotTolerance.value) (h : e.Underway t x passed)

include ht hpivot h

/-- The flips take the leaving variable towards the bound that it violates, by what they take
of the slope. -/
theorem value_leaving_flipped :
    x.direction.value * (((e.flipped t x).valueOf x.leaving).value - (e.valueOf x.leaving).value) =
      -RatioTest.lossOf passed := by
  have hsound := h.settled.sound
  have hcurrent := h.settled.current h.settled.valid
  have hway := h.rowed.sub_leaving hsound h.fits h.settled.balanced
    (z := fun j => ((e.flipped t x).valueOf j).value)
    (h.fits.balanced_flipped ht hsound hcurrent h.settled.balanced)
  have hterm : ∀ j ∈ Finset.range t.size, x.direction.value * (if e.statusOf j = .basic then 0
      else (x.row.entry t j).value *
        (((e.flipped t x).valueOf j).value - (e.valueOf j).value)) =
      if j ∈ x.flips then x.direction.value * ((x.row.entry t j).value * e.shift x j) else 0 := by
    intro j _
    by_cases hbasic : e.statusOf j = .basic
    · have hout : j ∉ x.flips := fun hj => by
        rw [h.flips_eq] at hj
        obtain ⟨c, hc, rfl⟩ := List.mem_map.mp hj
        exact (of_candidate (h.candidate c hc)).2.2 hbasic
      rw [if_pos hbasic, if_neg hout, mul_zero]
    · rw [if_neg hbasic, h.fits.value_flipped ht hsound h.distinct h.flips_lt hbasic,
        add_sub_cancel_left]
      split
      · rfl
      · rename_i hout
        rw [shift_eq_zero hout, mul_zero, mul_zero]
  have hloss := h.sum_flips h.distinct h.flips_lt
    (f := fun j => x.direction.value * ((x.row.entry t j).value * e.shift x j))
    fun c hc => (h.mul_shift hpivot h.unit hsound h.fits.flips hc).1
  rw [hway, mul_neg, Finset.mul_sum, Finset.sum_congr rfl hterm, hloss]
  rfl

/-- The objective gains from the passed variables and from the entering one. -/
theorem value_currentObjective : (e.applyExchange t x).1.currentObjective.value =
    e.currentObjective.value + RatioTest.gainOf passed + x.step.value *
      (x.direction.value * (((e.flipped t x).valueOf x.leaving).value - (e.target x).value)) := by
  have hsound := h.settled.sound
  have hcurrent := h.settled.current h.settled.valid
  obtain ⟨htabled, hcost, -⟩ := h.tabled.applyExchange ht hsound h.fits h.rowed.listed
  have hcost : ∀ j, (e.applyExchange t x).1.costOf j = e.costOf j := costOf_congr hcost
  have hway := h.priced.sum_cost_mul_sub h.settled.balanced
    (z := fun j => ((e.applyExchange t x).1.valueOf j).value) fun i hi =>
      (h.entered.balance_applyExchange hcurrent ht hsound h.fits hi).trans
        (h.settled.balanced i hi)
  generalize htheta : (((e.flipped t x).valueOf x.leaving).value - (e.target x).value) /
    x.pivot.value = theta
  have hterm : ∀ j ∈ Finset.range t.size, (e.reducedCostOf j).value *
      (((e.applyExchange t x).1.valueOf j).value - (e.valueOf j).value) =
      (if j ∈ x.flips then (e.reducedCostOf j).value * e.shift x j else 0) +
        if j = x.entering then (e.reducedCostOf j).value * theta else 0 := by
    intro j hj
    by_cases hbasic : e.statusOf j = .basic
    · rw [h.priced.basic j (Finset.mem_range.mp hj) hbasic, zero_mul, zero_mul, zero_mul, ite_self,
        ite_self, add_zero]
    · rw [h.entered.value_applyExchange ht hsound h.fits hbasic, htheta,
        h.fits.value_flipped ht hsound h.distinct h.flips_lt hbasic, add_assoc, add_sub_cancel_left,
        mul_add, mul_ite, mul_zero]
      refine congrArg (· + _) ?_
      split
      · rfl
      · rename_i hout
        rw [shift_eq_zero hout, mul_zero]
  have hgain := h.sum_flips h.distinct h.flips_lt
    (f := fun j => (e.reducedCostOf j).value * e.shift x j)
    fun c hc => (h.mul_shift hpivot h.unit hsound h.fits.flips hc).2
  rw [Finset.sum_congr rfl hterm, Finset.sum_add_distrib, hgain, Finset.sum_ite_eq',
    if_pos (Finset.mem_range.mpr h.fits.entering_lt)] at hway
  simp only [mul_sub, Finset.sum_sub_distrib] at hway
  have hstep : (e.reducedCostOf x.entering).value * theta = x.step.value * (x.direction.value *
      (((e.flipped t x).valueOf x.leaving).value - (e.target x).value)) := by
    have hpivot := h.entered.pivot_ne
    rw [h.full, ← h.pivot_eq, ← htheta]
    field_simp
  rw [htabled.value_currentObjective (hsound.applyExchange ht h.fits),
    h.tabled.value_currentObjective hsound]
  simp only [hcost]
  rw [← hstep, RatioTest.gainOf]
  linarith

end Underway

/-! ## Basis changes that were decided on -/

namespace Decided

variable (hx : e.Decided t e' x)

include hx

theorem exists_entering : ∃ c, e.candidate? t x.row x.direction x.entering = some c := by
  obtain ⟨alpha, slope, hresult, -⟩ := hx.found
  obtain ⟨passed, rest, last, hends, -, hentering, -⟩ := RatioTest.exists_endsAt hresult
  have hlast := hends.perm.mem_iff.mp (List.mem_append_right passed hends.mem)
  rw [candidates_ratioTest, List.mem_filterMap] at hlast
  obtain ⟨j, -, hj⟩ := hlast
  obtain rfl : x.entering = j := hentering.symm.trans (of_candidate hj).1
  exact ⟨last, hj⟩

/-- The bound that the leaving variable violates, and how far it does. -/
theorem violated (htolerance : 0 < t.parameters.primalTolerance.value) :
    (x.direction.value = 1 ∧ (e.boundsOf x.leaving).upper = .finite (e.target x) ∨
      x.direction.value = -1 ∧ (e.boundsOf x.leaving).lower = .finite (e.target x)) ∧
    |((e.boundsOf x.leaving).violation t.parameters.primalTolerance
        (e.valueOf x.leaving)).value| =
      x.direction.value * ((e.valueOf x.leaving).value - (e.target x).value) ∧
    t.parameters.primalTolerance.value <
      x.direction.value * ((e.valueOf x.leaving).value - (e.target x).value) := by
  obtain ⟨delta, hdelta, hne, hdirection⟩ := hx.violates
  rw [← hdelta]
  unfold Engine.target
  dsimp only
  rcases (e.boundsOf x.leaving).violation_cases t.parameters.primalTolerance
    (e.valueOf x.leaving) with ⟨u, hu, hlt, he⟩ | ⟨l, hl, hlt, he⟩ | he
  · have hvalue : delta.value = (e.valueOf x.leaving).value - u.value := by rw [hdelta, he]; rfl
    rw [lt_iff, value_add] at hlt
    have hone : x.direction.value = 1 := by
      rcases value_sign delta with ⟨hsign, -⟩ | ⟨-, hnegative⟩
      · rw [hdirection, hsign]
      · linarith
    have hpositive : (0 : Exact 0) < x.direction := by
      rw [lt_iff, hone]
      exact one_pos
    have htarget : (Bound.finite u).value = u := rfl
    rw [if_pos hpositive, hu, htarget, hone, one_mul, hvalue, abs_of_pos (by linarith)]
    exact ⟨Or.inl ⟨rfl, rfl⟩, rfl, by linarith⟩
  · have hvalue : delta.value = (e.valueOf x.leaving).value - l.value := by rw [hdelta, he]; rfl
    rw [lt_iff, value_sub] at hlt
    have hminus : x.direction.value = -1 := by
      rcases value_sign delta with ⟨-, hnonneg⟩ | ⟨hsign, -⟩
      · linarith
      · rw [hdirection, hsign]
    have hnegative : ¬(0 : Exact 0) < x.direction := by
      rw [lt_iff, hminus]
      exact not_lt.mpr (by norm_num)
    have htarget : (Bound.finite l).value = l := rfl
    rw [if_neg hnegative, hl, htarget, hminus, hvalue, abs_of_neg (by linarith)]
    exact ⟨Or.inr ⟨rfl, rfl⟩, by ring, by linarith⟩
  · rw [hdelta, he, zero_beq_zero] at hne
    exact absurd hne nofun

/-- What is found and solved for before the basis change touches neither the duals nor the
values. -/
theorem candidate_eq : e'.candidate? t x.row x.direction =
    e.candidate? t x.row x.direction := by
  rw [hx.engine_eq]
  rfl

theorem value_eq : e'.value = e.value := by
  rw [hx.engine_eq]
  rfl

theorem bounds_eq : e'.bounds = e.bounds := by
  rw [hx.engine_eq]
  rfl

theorem records_eq : e'.records = e.records := by
  rw [hx.engine_eq]
  rfl

theorem currentObjective_eq : e'.currentObjective = e.currentObjective := by
  rw [hx.engine_eq]
  rfl

end Decided

/-- The ratio test that an iteration runs, from the violation for its slope. -/
theorem Sound.run_of_exchange (h : e.Sound t) (hx : e.exchange? t = some (e', x)) :
    ((e.ratioTest t x.row x.direction).run (magnitude ((e.boundsOf x.leaving).violation
      t.parameters.primalTolerance (e.valueOf x.leaving))) t.parameters.dualTolerance
      t.parameters.primalTolerance).1.flips = x.flips := by
  obtain ⟨position, hposition, hx⟩ := Option.bind_eq_some_iff.mp hx
  obtain ⟨-, hdelta, -⟩ := h.violates_of_choosePosition hposition
  have htest : ∀ r direction, (e.priceRow t position).1.ratioTest t r direction =
      e.ratioTest t r direction := fun r direction => rfl
  unfold Engine.exchangeAt? at hx
  dsimp only at hx
  rw [htest] at hx
  split at hx
  · exact absurd hx nofun
  · split at hx
    · exact absurd hx nofun
    · obtain ⟨-, rfl⟩ := Prod.mk.inj (Option.some.inj hx)
      have hleaving : (e.priceRow t position).1.basicAt position = e.basicAt position := rfl
      dsimp only
      rw [hleaving, ← hdelta]

/-! ## States with exact duals -/

/-- The factors are valid, the values solve the equations, and the reduced costs go with the
multipliers and all have the right sign.  Bounds do not contradict each other, as it is at
every boundary of a run by `Run.not_above_boundsOf`. -/
structure DualExact (t : Job (Exact 0)) (e : Engine (Exact 0)) : Prop
    extends Settled t e, Tabled t e, Priced t e where
  ordered : ∀ j, j < t.size → (e.boundsOf j).lower.above (e.boundsOf j).upper = false
  within : e.DualWithin 0

section Iterations

variable (ht : t.WellFormed) {u : Unit} (hp : t.parameters.validate = .ok u)
  (h : e.DualExact t)

include ht hp h

omit ht in
theorem DualExact.proper {r : PivotRow (Exact 0)} {direction : Exact 0}
    (hdirection : |direction.value| = 1) {j : Nat} {c : Candidate (Exact 0)}
    (hc : e.candidate? t r direction j = some c) : c.Proper :=
  proper_of_candidate (Parameters.pivotTolerance_pos hp).le hdirection
    (h.ordered j (h.sound.lt_of_statusOf_ne (of_candidate hc).2.2)) hc

/-- The candidates that are passed leave the leaving variable outside of its bounds. -/
theorem DualExact.exists_passes (hx : e.exchange? t = some (e', x)) :
    ∃ passed, e.Passes t x passed ∧ t.parameters.primalTolerance.value <
      |((e.boundsOf x.leaving).violation t.parameters.primalTolerance
        (e.valueOf x.leaving)).value| - RatioTest.lossOf passed := by
  obtain ⟨-, ⟨-, hdual⟩, -⟩ := Parameters.tolerances_of_validate hp
  have hprimal : 0 < t.parameters.primalTolerance.value := ht.primalTolerance_pos
  have hdecided := h.sound.decided_of_exchange ht hx
  obtain ⟨-, hviolation, hbeyond⟩ := hdecided.violated hprimal
  have hrun := h.sound.run_of_exchange hx
  have hcandidates : ∀ c ∈ (e.ratioTest t x.row x.direction).candidates,
      e.candidate? t x.row x.direction c.variableIndex = some c := by
    intro c hc
    rw [candidates_ratioTest, List.mem_filterMap] at hc
    obtain ⟨j, -, hj⟩ := hc
    rw [(of_candidate hj).1]
    exact hj
  have hproper := fun c hc => h.proper hp hdecided.abs_direction (hcandidates c hc)
  have hslope : t.parameters.primalTolerance.value < (magnitude ((e.boundsOf x.leaving).violation
      t.parameters.primalTolerance (e.valueOf x.leaving))).value := by
    rw [value_magnitude, Exact.abs_eq, hviolation]
    exact hbeyond
  obtain ⟨passed, hflips, hmem, hleft⟩ := (RatioTest.rounds_search hdual.le
    t.parameters.primalTolerance _ hproper le_rfl).exists_passed hproper hprimal.le hslope
  rw [value_magnitude, Exact.abs_eq] at hleft
  exact ⟨passed, ⟨hrun.symm.trans hflips, fun c hc => hcandidates c (hmem c hc)⟩, hleft⟩

/-- The engine that makes the basis change is as exact, and its step is not cut off. -/
theorem DualExact.underway (hx : e.exchange? t = some (e', x))
    {passed : List (Candidate (Exact 0))} (hpassed : e.Passes t x passed) :
    e'.Underway t x passed := by
  have hpivot := Parameters.pivotTolerance_pos hp
  have hdecided := h.sound.decided_of_exchange ht hx
  have hrow := hdecided.rowed ht h.sound (h.current h.valid)
  obtain ⟨hdistinct, hflips⟩ := hdecided.distinct_flips h.sound hrow.listed
  obtain ⟨hsettled, hentered⟩ := hdecided.entered ht h.toSettled hpivot
  have hledger := hdecided.ledger_eq
  obtain ⟨c, hc⟩ := hdecided.exists_entering
  obtain ⟨m, hfalls, -⟩ := exists_falls_moves hpivot.le hdecided.abs_direction hc
  have hratio := h.within.ratio_nonneg hpivot.le hdecided.abs_direction hc
  refine ⟨⟨hpassed.flips_eq, fun c hc => ?_⟩, hsettled, h.toTabled.of_pricing
    (congrArg Prod.fst hledger), h.toPriced.congr h.sound hsettled.sound hledger, hdecided.fits,
    hentered, hrow.congr (congrArg Prod.snd hledger), hdistinct, fun j hj => (hflips j hj).1,
    hdecided.abs_direction, (hdecided.pivot_eq ht h.toSettled).1, ?_⟩
  · rw [hdecided.candidate_eq]
    exact hpassed.candidate c hc
  · rw [reducedCostOf_congr (reducedCost_congr hledger)]
    exact (hdecided.full_iff hpivot.le).mpr (hfalls.ratio_nonneg_iff.mp hratio)

theorem DualExact.gainOf_nonneg (hx : e.exchange? t = some (e', x))
    {passed : List (Candidate (Exact 0))} (hpassed : e.Passes t x passed) :
    0 ≤ RatioTest.gainOf passed := by
  have hdirection := (h.sound.decided_of_exchange ht hx).abs_direction
  exact RatioTest.gainOf_nonneg (fun c hc => h.proper hp hdirection (hpassed.candidate c hc))
    fun c hc => h.within.ratio_nonneg (Parameters.pivotTolerance_pos hp).le hdirection
      (hpassed.candidate c hc)

end Iterations

/-! ## The record of the objective -/

theorem currentObjective_congr (hcost : e'.cost = e.cost) (hvalue : e'.value = e.value) :
    e'.currentObjective = e.currentObjective := by
  unfold Engine.currentObjective
  rw [hcost, hvalue]

/-- What is done after a basis change leaves the objective alone, and records it if that is
wanted. -/
theorem objective_performExchange {factor : FactoredBasis (Exact 0)}
    (hupdate : (e.applyExchange t x).1.factor.update x.position x.pivot = .ok factor)
    (hhistory : ((e.applyExchange t x).1.history.record x.entering).2 = false) :
    (e.performExchange t x).engine.currentObjective = (e.applyExchange t x).1.currentObjective ∧
    (e.performExchange t x).engine.statistics.objectiveTrace = e.statistics.objectiveTrace ++
      if t.parameters.traceObjective then [(e.applyExchange t x).1.currentObjective] else [] := by
  have hrecords := congrArg Prod.snd (records_applyExchange (t := t) e x)
  rw [performExchange_eq hupdate hhistory]
  generalize (e.applyExchange t x).2 = quality
  generalize (e.applyExchange t x).1 = e₁ at hrecords ⊢
  generalize hweighed : (if quality = .excessive then weighRows t { e₁ with factor := factor }
    else { e₁ with factor := factor }) = e₂
  have hsame : (e₂.cost, e₂.value, e₂.statistics.objectiveTrace) =
      (e₁.cost, e₁.value, e₁.statistics.objectiveTrace) := by
    rw [← hweighed]
    split
    · exact weighRows_keeps (fun e => (e.cost, e.value, e.statistics.objectiveTrace))
        (fun _ _ => rfl) (fun _ _ => rfl) _
    · rfl
  obtain ⟨hcost, hrest⟩ := Prod.mk.inj hsame
  obtain ⟨hvalue, htrace⟩ := Prod.mk.inj hrest
  have hobjective := currentObjective_congr hcost hvalue
  have htrace : e₂.statistics.objectiveTrace = e.statistics.objectiveTrace := htrace.trans hrecords
  show (e₂.traceObjective t).currentObjective = _ ∧
    (e₂.traceObjective t).statistics.objectiveTrace = _
  unfold Engine.traceObjective
  split
  · exact ⟨hobjective, by rw [htrace, hobjective]⟩
  · exact ⟨hobjective, by rw [htrace, List.append_nil]⟩

/-- The objective values that were recorded ascend, up to the present one. -/
def Ascends (e : Engine (Exact 0)) : Prop :=
  (e.statistics.objectiveTrace ++ [e.currentObjective]).Pairwise fun y z => y.value ≤ z.value

theorem ascends_iff : e.Ascends ↔
    e.statistics.objectiveTrace.Pairwise (fun y z => y.value ≤ z.value) ∧
    ∀ y ∈ e.statistics.objectiveTrace, y.value ≤ e.currentObjective.value := by
  unfold Ascends
  rw [List.pairwise_append]
  constructor
  · rintro ⟨hrecords, -, hle⟩
    exact ⟨hrecords, fun y hy => hle y hy _ (List.mem_singleton.mpr rfl)⟩
  · rintro ⟨hrecords, hle⟩
    refine ⟨hrecords, List.pairwise_singleton _ _, fun y hy z hz => ?_⟩
    rw [List.mem_singleton.mp hz]
    exact hle y hy

theorem Ascends.step (h : e.Ascends) {flag : Bool}
    (hle : e.currentObjective.value ≤ e'.currentObjective.value)
    (htrace : e'.statistics.objectiveTrace = e.statistics.objectiveTrace ++
      if flag then [e'.currentObjective] else []) : e'.Ascends := by
  obtain ⟨hrecords, hbelow⟩ := ascends_iff.mp h
  have hbelow : ∀ y ∈ e.statistics.objectiveTrace, y.value ≤ e'.currentObjective.value :=
    fun y hy => (hbelow y hy).trans hle
  rw [ascends_iff, htrace]
  cases flag with
  | false =>
    rw [if_neg Bool.false_ne_true, List.append_nil]
    exact ⟨hrecords, hbelow⟩
  | true =>
    rw [if_pos rfl]
    refine ⟨List.pairwise_append.mpr ⟨hrecords, List.pairwise_singleton _ _, fun y hy z hz => ?_⟩,
      fun y hy => ?_⟩
    · rw [List.mem_singleton.mp hz]
      exact hbelow y hy
    · rcases List.mem_append.mp hy with hy | hy
      · exact hbelow y hy
      · rw [List.mem_singleton.mp hy]

/-- After the flips the leaving variable violates the same bound by what is left of the
slope. -/
theorem DualExact.violation_flipped (ht : t.WellFormed) {u : Unit}
    (hp : t.parameters.validate = .ok u) (h : e.DualExact t)
    (hx : e.exchange? t = some (e', x)) {passed : List (Candidate (Exact 0))}
    (hpassed : e.Passes t x passed) (hleft : t.parameters.primalTolerance.value <
      |((e.boundsOf x.leaving).violation t.parameters.primalTolerance
        (e.valueOf x.leaving)).value| - RatioTest.lossOf passed) :
    x.direction.value * (((e'.flipped t x).valueOf x.leaving).value - (e'.target x).value) =
      |((e.boundsOf x.leaving).violation t.parameters.primalTolerance
        (e.valueOf x.leaving)).value| - RatioTest.lossOf passed ∧
    (((e'.flipped t x).boundsOf x.leaving).violation t.parameters.primalTolerance
        ((e'.flipped t x).valueOf x.leaving)).value =
      ((e'.flipped t x).valueOf x.leaving).value - (e'.target x).value := by
  have hprimal : 0 < t.parameters.primalTolerance.value := ht.primalTolerance_pos
  have hdecided := h.sound.decided_of_exchange ht hx
  have hunderway := h.underway ht hp hx hpassed
  have hsound := hunderway.settled.sound
  obtain ⟨htarget, hviolation, -⟩ := hdecided.violated hprimal
  have hway := hunderway.value_leaving_flipped ht (Parameters.pivotTolerance_pos hp).le
  have hbounds : e'.boundsOf x.leaving = e.boundsOf x.leaving := by
    unfold Engine.boundsOf
    rw [hdecided.bounds_eq]
  have hsame : e'.target x = e.target x := by
    unfold Engine.target
    rw [hbounds]
  have hflipped : (e'.flipped t x).boundsOf x.leaving = e.boundsOf x.leaving := by
    rw [boundsOf_congr (hunderway.fits.sound_flipped ht hsound).2, hbounds]
  have hlt : x.leaving < t.size := by
    rw [hunderway.fits.leaving_eq]
    exact hsound.basicAt_lt hunderway.fits.position_lt
  rw [valueOf_congr hdecided.value_eq] at hway
  have hbeyond : x.direction.value *
      (((e'.flipped t x).valueOf x.leaving).value - (e.target x).value) =
        |((e.boundsOf x.leaving).violation t.parameters.primalTolerance
          (e.valueOf x.leaving)).value| - RatioTest.lossOf passed := by
    rw [hviolation]
    linarith
  rw [hsame, hflipped]
  exact ⟨hbeyond, Interval.violation_of_beyond (h.ordered _ hlt) hprimal htarget
    (hbeyond ▸ hleft)⟩

/-! ## Iterations that change the basis -/

/-- An iteration that changes the basis, after which the factors can be updated and nothing
hints at a cycle. -/
structure Exchanges (t : Job (Exact 0)) (e e' : Engine (Exact 0)) (x : Exchange (Exact 0)) :
    Prop where
  found : e.exchange? t = some (e', x)
  updated : ∃ factor,
    (e'.applyExchange t x).1.factor.update x.position x.pivot = .ok factor
  acyclic : ((e'.applyExchange t x).1.history.record x.entering).2 = false

section Iterations

variable (ht : t.WellFormed) {u : Unit} (hp : t.parameters.validate = .ok u)
  (h : e.DualExact t) (hx : e.Exchanges t e' x)

include ht hp h hx

theorem DualExact.iterate_eq : e.iterate t = .next (e'.performExchange t x).engine := by
  have hdecided := h.sound.decided_of_exchange ht hx.found
  obtain ⟨factor, hupdate⟩ := hx.updated
  rw [iterate_of_exchange hx.found,
    hdecided.tryExchange_eq ht h.toSettled (Parameters.pivotTolerance_pos hp),
    performExchange_eq hupdate hx.acyclic]
  rfl

theorem DualExact.objective_iterate {passed : List (Candidate (Exact 0))}
    (hpassed : e.Passes t x passed) (hleft : t.parameters.primalTolerance.value <
      |((e.boundsOf x.leaving).violation t.parameters.primalTolerance
        (e.valueOf x.leaving)).value| - RatioTest.lossOf passed) :
    (e.iterate t).engine.currentObjective.value =
      e.currentObjective.value + RatioTest.gainOf passed + x.step.value *
        (|((e.boundsOf x.leaving).violation t.parameters.primalTolerance
          (e.valueOf x.leaving)).value| - RatioTest.lossOf passed) ∧
    (e.iterate t).engine.statistics.objectiveTrace = e.statistics.objectiveTrace ++
      if t.parameters.traceObjective then [(e.iterate t).engine.currentObjective] else [] := by
  have hdecided := h.sound.decided_of_exchange ht hx.found
  have hunderway := h.underway ht hp hx.found hpassed
  have hvalue := hunderway.value_currentObjective ht (Parameters.pivotTolerance_pos hp).le
  have hrecords : e'.statistics.objectiveTrace = e.statistics.objectiveTrace :=
    congrArg Prod.snd hdecided.records_eq
  obtain ⟨factor, hupdate⟩ := hx.updated
  obtain ⟨hobjective, htrace⟩ := objective_performExchange hupdate hx.acyclic
  rw [hdecided.currentObjective_eq, (h.violation_flipped ht hp hx.found hpassed hleft).1,
    ← hobjective] at hvalue
  rw [hrecords, ← hobjective] at htrace
  rw [h.iterate_eq ht hp hx]
  exact ⟨hvalue, htrace⟩

theorem DualExact.ascends_iterate (hascends : e.Ascends) : (e.iterate t).engine.Ascends := by
  obtain ⟨passed, hpassed, hleft⟩ := h.exists_passes ht hp hx.found
  obtain ⟨hvalue, htrace⟩ := h.objective_iterate ht hp hx hpassed hleft
  have hprimal : 0 < t.parameters.primalTolerance.value := ht.primalTolerance_pos
  have hgain := h.gainOf_nonneg ht hp hx.found hpassed
  have hlast := mul_nonneg (h.sound.decided_of_exchange ht hx.found).step_nonneg
    (hprimal.trans hleft).le
  refine hascends.step ?_ htrace
  rw [hvalue]
  linarith

end Iterations

/-- Over any number of such iterations the recorded objective values ascend. -/
theorem ascends_iterates (ht : t.WellFormed) {u : Unit} (hp : t.parameters.validate = .ok u)
    {k : Nat} (h : ∀ i, i < k → ((fun e => (e.iterate t).engine)^[i] e).DualExact t ∧
      ∃ e' x, ((fun e => (e.iterate t).engine)^[i] e).Exchanges t e' x)
    (hascends : e.Ascends) : ((fun e => (e.iterate t).engine)^[k] e).Ascends := by
  induction k with
  | zero => exact hascends
  | succ k ih =>
    obtain ⟨hexact, e', x, hx⟩ := h k (Nat.lt_succ_self k)
    rw [Function.iterate_succ_apply']
    exact hexact.ascends_iterate ht hp hx (ih fun i hi => h i (Nat.lt_succ_of_lt hi))

/-- From exact duals an iteration that changes the basis gains, for every variable that it
passes, the ratio times what that takes of the slope, and its step times what is left of the
slope, which is the violation to begin with.  Neither is negative, so the record of the
objective does not fall.  After the flips the leaving variable still violates the same bound,
by what is left of the slope. -/
theorem objective_gain_of_exchanges (ht : t.WellFormed) {u : Unit}
    (hp : t.parameters.validate = .ok u) (h : e.DualExact t) (hx : e.Exchanges t e' x) :
    let passed := x.flips.filterMap (e.candidate? t x.row x.direction)
    let violationIn := fun e : Engine (Exact 0) => ((e.boundsOf x.leaving).violation
      t.parameters.primalTolerance (e.valueOf x.leaving)).value
    let gained := (passed.map fun c => c.ratio.value * (c.alpha.value * c.range.value.value)).sum
    let left := |violationIn e| - (passed.map fun c => c.alpha.value * c.range.value.value).sum
    let next := (e.iterate t).engine
    e.iterate t = .next next ∧
    passed.map Candidate.variableIndex = x.flips ∧ (∀ j ∈ x.flips, e.hasTwoBounds j = true) ∧
    next.currentObjective.value = e.currentObjective.value + gained + x.step.value * left ∧
    0 ≤ gained ∧ 0 ≤ x.step.value * left ∧
    next.statistics.objectiveTrace = e.statistics.objectiveTrace ++
      (if t.parameters.traceObjective then [next.currentObjective] else []) ∧
    (e.Ascends → next.Ascends) ∧
    t.parameters.primalTolerance.value < left ∧
    violationIn (e'.flipped t x) = x.direction.value * left := by
  have hprimal : 0 < t.parameters.primalTolerance.value := ht.primalTolerance_pos
  have hdecided := h.sound.decided_of_exchange ht hx.found
  obtain ⟨passed, hpassed, hleft⟩ := h.exists_passes ht hp hx.found
  have hunderway := h.underway ht hp hx.found hpassed
  have hgain := h.gainOf_nonneg ht hp hx.found hpassed
  obtain ⟨hbeyond, hviolation⟩ := h.violation_flipped ht hp hx.found hpassed hleft
  obtain ⟨hvalue, htrace⟩ := h.objective_iterate ht hp hx hpassed hleft
  have hboxed : ∀ j, e'.hasTwoBounds j = e.hasTwoBounds j := fun j => by
    unfold hasTwoBounds Engine.boundsOf
    rw [hdecided.bounds_eq]
  have hdirection : x.direction.value * x.direction.value = 1 := by
    rw [← abs_mul_abs_self, hdecided.abs_direction, one_mul]
  obtain rfl := hpassed.eq_filterMap
  intro passed violationIn gained left next
  refine ⟨?_, hpassed.flips_eq.symm, fun j hj => (hboxed j).symm.trans (hunderway.fits.flips j hj),
    hvalue, hgain, mul_nonneg hdecided.step_nonneg (hprimal.trans hleft).le, htrace,
    h.ascends_iterate ht hp hx, hleft, ?_⟩
  · show e.iterate t = .next (e.iterate t).engine
    rw [h.iterate_eq ht hp hx]
    rfl
  · refine hviolation.trans ?_
    show _ = x.direction.value * (_ - RatioTest.lossOf passed)
    rw [← hbeyond, ← mul_assoc, hdirection, one_mul]

end Engine

/-- A row that one column can reach without end, after two others have gone as far as their
bounds let them, one up and one down. -/
def Draft.shelf : Draft (Exact 0) :=
  { (blank 1 3).withMatrix #[0, 1, 2, 3] #[0, 0, 0] #[1, 1, -1] with
    costs := #[1, .ofRat 2, -1]
    columnLower := #[.finite 0, .finite 0, .finite 0]
    columnUpper := #[.finite (1 : Nat), .posInf, .finite (2 : Nat)]
    rowLower := #[.finite (3 : Nat)]
    rowUpper := #[.posInf] }

/-- The only basis change passes two columns and gains one and two for them, and twice the two
that are left of the slope. -/
theorem Run.objective_gain_shelf : ∃ lp, Draft.shelf.build = .ok lp ∧
    let p : Parameters (Exact 0) :=
      { Parameters.default with perturbation := false, traceObjective := true }
    let t : Job (Exact 0) := ⟨lp, p⟩
    let e := ((step t)^[2] (begin t (Basis.slack lp))).engine
    p.validate = .ok () ∧ e.DualExact t ∧ ∃ e' x, e.Exchanges t e' x ∧
      x.flips.length = 2 ∧ e.currentObjective.value = -2 ∧
      (e.iterate t).engine.currentObjective.value = -2 + 3 + 2 * 2 := by
  obtain ⟨lp, hbuild, hrun⟩ := exists_of_any_toOption (x := Draft.shelf.build)
    (P := fun lp => ((Basis.slack lp).validate lp).toOption.isSome &&
      let p : Parameters (Exact 0) :=
        { Parameters.default with perturbation := false, traceObjective := true }
      let t : Job (Exact 0) := ⟨lp, p⟩
      let r := (step t)^[2] (begin t (Basis.slack lp))
      let e := r.engine
      p.validate.toOption.isSome && (decide (r.stage = .main ∧ e.Priced t ∧
        (∀ j, j < t.size → (e.dualInfeasibility j).value ≤ 0) ∧ e.currentObjective.value = -2) &&
        (e.exchange? t).any fun s : Engine (Exact 0) × Exchange (Exact 0) =>
          let passed := s.2.flips.filterMap (e.candidate? t s.2.row s.2.direction)
          ((s.1.applyExchange t s.2).1.factor.update s.2.position s.2.pivot).toOption.any fun _ =>
            decide (((s.1.applyExchange t s.2).1.history.record s.2.entering).2 = false ∧
              s.2.flips.length = 2 ∧ s.2.step.value = 2 ∧
              |((e.boundsOf s.2.leaving).violation p.primalTolerance
                (e.valueOf s.2.leaving)).value| = 5 ∧
              (passed.map fun c => c.alpha.value * c.range.value.value).sum = 3 ∧
              (passed.map fun c => c.ratio.value * (c.alpha.value * c.range.value.value)).sum = 3)))
    (by decide +kernel)
  rw [Bool.and_eq_true, Bool.and_eq_true, Bool.and_eq_true, Option.any_eq_true] at hrun
  obtain ⟨hbasis, hparameters, hstate, ⟨e', x⟩, hfound, hchange⟩ := hrun
  have hbasis := eq_ok_of_isSome hbasis
  have hparameters := eq_ok_of_isSome hparameters
  obtain ⟨hstage, hpriced, hwithin, hobjective⟩ := of_decide_eq_true hstate
  obtain ⟨factor, hupdate, hchange⟩ := exists_of_any_toOption hchange
  obtain ⟨hacyclic, hflips, hstep, hviolation, hloss, hgain⟩ := of_decide_eq_true hchange
  have ht := Job.wellFormed_of_build Draft.shelf.canonical_exact hbuild hparameters
  have hpivot := Parameters.pivotTolerance_pos hparameters
  have hvalid := Basis.valid_of_validate ht.program hbasis
  have hgoes : ∀ status, Stage.main ≠ .done status := fun _ => nofun
  rw [← hstage] at hgoes
  have hsettled := (settles_iterate_step ht hpivot hvalid 2).settled hgoes
  have htallied := tallied_iterate_step ht hpivot hvalid (n := 0) (tallied_begin ht hpivot hvalid) 2
  have hordered := not_above_boundsOf hbuild hbasis hparameters 2 hgoes
  have hexact : Engine.DualExact _ _ := ⟨hsettled, htallied.toTabled, hpriced,
    fun j _ => hordered j, hsettled.sound.dualWithin_of_lt le_rfl hwithin⟩
  have hexchanges : Engine.Exchanges _ _ e' x := ⟨hfound, ⟨factor, hupdate⟩, hacyclic⟩
  have hgrows := (Engine.objective_gain_of_exchanges ht hparameters hexact hexchanges).2.2.2.1
  refine ⟨lp, hbuild, hparameters, hexact, e', x, hexchanges, hflips, hobjective, ?_⟩
  refine hgrows.trans ?_
  rw [hobjective, hgain, hloss, hviolation, hstep]
  norm_num

end DualSimplex
