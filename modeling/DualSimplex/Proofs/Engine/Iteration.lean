import DualSimplex.Proofs.Engine.Renewal
import DualSimplex.Proofs.RatioTest

/-!
# Iterations of consistent engines

A basis change, with all that may be done about it when it goes wrong, leaves a
consistent engine behind.
-/

namespace DualSimplex

open Scalar

variable {α : Type} [Scalar α]

/-- The engine after an iteration. -/
def Step.engine {α : Type} : Step α → Engine α
  | .next e => e
  | .solved e => e
  | .unbounded e _ => e
  | .stopped e _ => e

namespace Engine

variable {t : Job α} {e e' : Engine α}

/-! ## Relaxing bounds and taking it back -/

theorem restsAt_of_basic {j : Nat} (hj : e.statusOf j = .basic) : e.RestsAt j := by
  refine ⟨?_, fun hne => absurd hj hne⟩
  rw [hj]
  rfl

omit [Scalar α] in
theorem boundsOf_setBounds (e : Engine α) (j k : Nat) (b : Interval α) :
    (e.setBounds j b).boundsOf k = if j = k ∧ k < e.bounds.size then b else e.boundsOf k :=
  getD_setIfInBounds ..

theorem Shaped.setBounds (h : e.Shaped t) {b : Interval α} (hb : b.Proper) (j : Nat) :
    (e.setBounds j b).Shaped t where
  size_status := h.size_status
  size_value := h.size_value
  size_bounds := Array.size_setIfInBounds.trans h.size_bounds
  proper := by
    intro k
    rw [boundsOf_setBounds]
    split
    · exact hb
    · exact h.proper k
  relaxed := h.relaxed

theorem RestsAt.setBounds_ne {j k : Nat} (h : e.RestsAt k) (hjk : j ≠ k) (b : Interval α) :
    (e.setBounds j b).RestsAt k := by
  have hbounds : (e.setBounds j b).boundsOf k = e.boundsOf k := by
    rw [boundsOf_setBounds, if_neg fun hc => hjk hc.1]
  refine ⟨?_, fun hne => ?_⟩
  · rw [hbounds]
    exact h.allows
  · rw [hbounds]
    exact h.value hne

theorem Sound.withRelaxed (h : e.Sound t) {relaxed : List (Nat × Interval α)}
    (hrelaxed : ∀ r ∈ relaxed, r.2.Proper) : Sound t { e with relaxed := relaxed } where
  size_status := h.size_status
  size_value := h.size_value
  size_bounds := h.size_bounds
  proper := h.proper
  relaxed := hrelaxed
  rests j := ⟨(h.rests j).allows, (h.rests j).value⟩
  toPlaced := h.toPlaced.of_statuses rfl fun _ => Iff.rfl
  weights := h.weights
  factor := h.factor

/-- A basic variable may have any bounds. -/
theorem Sound.setBounds_basic (h : e.Sound t) {j : Nat} (hj : e.statusOf j = .basic)
    {b : Interval α} (hb : b.Proper) : (e.setBounds j b).Sound t := by
  refine ⟨⟨h.toShaped.setBounds hb j, fun k => ?_⟩,
    h.toPlaced.of_statuses rfl fun _ => Iff.rfl, h.weights, h.factor⟩
  by_cases hjk : j = k
  · exact restsAt_of_basic (hjk ▸ hj)
  · exact (h.rests k).setBounds_ne hjk b

variable [OrderedScalar α]

theorem Sound.relaxBound (h : e.Sound t) {j : Nat} (hj : e.statusOf j = .basic) :
    (e.relaxBound j).Sound t := by
  have hkeep : Sound t { e with relaxed := (j, e.boundsOf j) :: e.relaxed } := by
    refine h.withRelaxed fun r hr => ?_
    rcases List.mem_cons.mp hr with hr | hr
    · rw [hr]
      exact h.proper j
    · exact h.relaxed r hr
  unfold Engine.relaxBound
  dsimp only
  split
  · rename_i hlower
    exact hkeep.setBounds_basic hj ((h.proper j).relax_lower hlower)
  · split
    · rename_i hupper
      exact hkeep.setBounds_basic hj ((h.proper j).relax_upper hupper)
    · exact h

omit [OrderedScalar α] in
@[simp] theorem basicIndex_relaxBound (e : Engine α) (j : Nat) :
    (e.relaxBound j).basicIndex = e.basicIndex := by
  unfold Engine.relaxBound
  dsimp only
  split
  · rfl
  · split
    · rfl
    · rfl

/-- Any variables of the basis may have their bounds relaxed. -/
theorem Sound.foldl_relaxBound (h : e.Sound t) {l : List Nat}
    (hl : ∀ j ∈ l, j ∈ e.basicIndex.toList) : (l.foldl Engine.relaxBound e).Sound t := by
  induction l generalizing e with
  | nil => exact h
  | cons j l ih =>
    have hj := hl j List.mem_cons_self
    refine ih (h.relaxBound ((h.mem_iff j (h.lt j hj)).mp hj)) fun k hk => ?_
    rw [basicIndex_relaxBound]
    exact hl k (List.mem_cons_of_mem j hk)

theorem Sound.undoRelaxation (h : e.Sound t) (j : Nat) {b : Interval α} (hb : b.Proper) :
    (e.undoRelaxation j b).Sound t := by
  unfold Engine.undoRelaxation
  dsimp only
  split
  · rename_i hbasic
    exact h.setBounds_basic (of_decide_eq_true hbasic) hb
  · rename_i hbasic
    have hbasic : e.statusOf j ≠ .basic := fun he => hbasic (decide_eq_true he)
    have hshaped := h.toShaped.setBounds hb j
    refine h.of_rests ⟨hshaped.rest j _, fun k => ?_⟩ rfl
      (statusOf_rest_eq_basic_iff (e := e.setBounds j b) (iff_of_false ?_ hbasic)) rfl rfl
    · refine RestsAt.rest hshaped ?_ fun hjk => (h.rests k).setBounds_ne hjk b
      split
      · assumption
      · exact Interval.allows_restingStatus _
    · split
      · exact hbasic
      · exact Interval.restingStatus_ne_basic _

theorem Sound.undoRelaxations (h : e.Sound t) (hundo : e.undoRelaxations? = some e') :
    e'.Sound t := by
  rw [(of_undoRelaxations hundo).2]
  refine Sound.withRelaxed ?_ nofun
  exact List.foldlRecOn e.relaxed (fun e r => e.undoRelaxation r.1 r.2) (motive := Sound t) h
    fun e' he' r hr => he'.undoRelaxation r.1 (h.relaxed r hr)

omit [OrderedScalar α] in
theorem Sound.mem_slightlyInfeasible (h : e.Sound t) {j : Nat} (hj : j ∈ e.slightlyInfeasible t) :
    j ∈ e.basicIndex.toList := by
  obtain ⟨x, hx, rfl⟩ := List.mem_map.mp hj
  have hlt := List.snd_lt_of_mem_zipIdx (List.mem_filter.mp hx).1
  refine h.basicAt_mem ?_
  rw [← h.size_basicIndex]
  simpa [Engine.infeasibilities] using hlt

theorem Sound.relaxSlightly (h : e.Sound t) :
    ((e.slightlyInfeasible t).foldl Engine.relaxBound e).Sound t :=
  h.foldl_relaxBound fun _ hj => h.mem_slightlyInfeasible hj

theorem Sound.leaveCycle (ht : t.WellFormed) (h : e.Sound t) : (e.leaveCycle t).engine.Sound t := by
  refine Progress.engine_andThen ((h.of_standing (standing_note e _)).renewAndSettle ht) ?_
  intro e he
  show Sound t (if _ then _ else _)
  split
  · exact he.of_standing (standing_perturbAll e)
  · exact he.relaxSlightly

/-! ## The entering variable -/

omit [OrderedScalar α] in
/-- A candidate is not basic, and its range is that of its bounds. -/
theorem of_candidate {r : PivotRow α} {direction : α} {j : Nat} {c : Candidate α}
    (h : e.candidate? t r direction j = some c) :
    c.variableIndex = j ∧ c.range = (e.boundsOf j).range ∧ e.statusOf j ≠ .basic := by
  unfold Engine.candidate? at h
  dsimp only at h
  split at h
  · exact absurd h nofun
  · rename_i moving hmoving
    split at h
    · exact absurd h nofun
    · rw [← Option.some.inj h]
      refine ⟨rfl, rfl, fun hbasic => ?_⟩
      rw [hbasic] at hmoving
      exact absurd hmoving nofun

omit [OrderedScalar α] in
theorem range_ne_negInf (b : Interval α) : b.range ≠ .negInf := by
  unfold Interval.range
  split
  · exact nofun
  · exact nofun

omit [OrderedScalar α] in
theorem isBoxed_of_range_ne {b : Interval α} (h : b.range ≠ .posInf) : b.kind.isBoxed = true := by
  unfold Interval.range at h
  split at h
  · assumption
  · exact absurd rfl h

omit [OrderedScalar α] in
theorem mem_candidates {r : PivotRow α} {direction : α} {c : Candidate α}
    (hc : c ∈ (e.ratioTest t r direction).candidates) :
    c.range = (e.boundsOf c.variableIndex).range ∧ e.statusOf c.variableIndex ≠ .basic := by
  unfold Engine.ratioTest at hc
  rw [RatioTest.candidates_foldl_push] at hc
  obtain ⟨j, -, hj⟩ := List.mem_filterMap.mp hc
  obtain ⟨hindex, hrange, hstatus⟩ := of_candidate hj
  rw [hindex]
  exact ⟨hrange, hstatus⟩

/-- The variable that the ratio test finds is not basic, and those it passes can
move to another bound. -/
theorem of_ratioTest {r : PivotRow α} {direction slope dualTolerance primalTolerance : α}
    (htolerance : isFinite primalTolerance = true) {j : Nat} {alpha step : α}
    (h : ((e.ratioTest t r direction).run slope dualTolerance primalTolerance).2 =
      .entering j alpha step) :
    e.statusOf j ≠ .basic ∧
    ∀ i ∈ ((e.ratioTest t r direction).run slope dualTolerance primalTolerance).1.flips,
      e.hasTwoBounds i = true := by
  have hfound := (RatioTest.rounds_of_entering h).found htolerance (fun c hc => by
    rw [(mem_candidates hc).1]
    exact range_ne_negInf _) h
  refine ⟨?_, fun i hi => ?_⟩
  · obtain ⟨c, hc, rfl⟩ := hfound.entering_mem
    exact (mem_candidates hc).2
  · obtain ⟨c, hc, rfl, hrange⟩ := hfound.flips_bounded i hi
    rw [(mem_candidates hc).1] at hrange
    exact isBoxed_of_range_ne hrange

omit [OrderedScalar α] in
/-- The position that is chosen is one of those with an infeasibility. -/
theorem of_choosePosition {w : EdgeWeights α} {infeasibilities : Array α} {basicIndex : Array Nat}
    {position : Nat} (h : w.choosePosition infeasibilities basicIndex = some position) :
    position < infeasibilities.size ∧ (infeasibilities.getD position 0 == 0) = false := by
  unfold EdgeWeights.choosePosition at h
  obtain ⟨c, hc, rfl⟩ := Option.map_eq_some_iff.mp h
  refine List.foldlRecOn (motive := fun best => ∀ c : EdgeWeights.Contender α, best = some c →
    c.position < infeasibilities.size ∧ (infeasibilities.getD c.position 0 == 0) = false)
    infeasibilities.toList.zipIdx _ (b := none) nofun (fun best hbest x hx => ?_) c hc
  obtain ⟨value, position⟩ := x
  dsimp only
  by_cases hzero : (value == 0) = true
  · rw [if_pos hzero]
    exact hbest
  · rw [if_neg hzero]
    have hposition : position < infeasibilities.size := List.snd_lt_of_mem_zipIdx hx
    have hvalue : infeasibilities.getD position 0 = value := by
      have hget := List.mem_zipIdx_iff_getElem?.mp hx
      rw [Array.getElem?_toList] at hget
      rw [Array.getD_eq_getD_getElem?, hget]
      rfl
    intro c hc
    have hnew : c.position = position ∨ best = some c := by
      split at hc
      · exact Or.inl (by rw [← Option.some.inj hc])
      · split at hc
        · exact Or.inl (by rw [← Option.some.inj hc])
        · exact Or.inr hc
    rcases hnew with hc | hc
    · rw [hc, hvalue]
      exact ⟨hposition, Bool.eq_false_iff.mpr hzero⟩
    · exact hbest c hc

/-! ## The basis change -/

theorem listed_addColumn (ht : t.WellFormed) {v : SparseVector α}
    (hv : v.Listed t.rowCount) {j : Nat} (hj : j < t.size) (f : Nat × α → α) :
    (v.addAll ((t.column j).map fun u => (u.1, f u))).Listed t.rowCount := by
  refine hv.addAll fun u hu => ?_
  obtain ⟨w, hw, rfl⟩ := List.mem_map.mp hu
  exact ht.row_lt hj w hw

theorem Sound.ftranEntering (ht : t.WellFormed) (h : e.Sound t) {j : Nat} (hj : j < t.size) :
    (e.ftranEntering t j).1.Sound t ∧ (e.ftranEntering t j).2.Inside t.rowCount := by
  have hlisted : (t.zeroRow.addAll (t.column j)).Listed t.rowCount :=
    listed_zeroRow.addAll (ht.row_lt hj)
  refine ⟨?_, ?_⟩
  · exact (h.withFactor (h.factor.ftranSpike hlisted)).of_standing (standing_addTicks _ _)
  · exact inside_ftran h hlisted

/-- A flip on the way to a vector of changes. -/
theorem Sound.flipInto (ht : t.WellFormed) {s : Engine α × SparseVector α} (h : Sound t s.1)
    (hlisted : s.2.Listed t.rowCount) {j : Nat} (hboxed : s.1.hasTwoBounds j = true) :
    Sound t (flipInto t s j).1 ∧ (flipInto t s j).1.setting = s.1.setting ∧
    (flipInto t s j).2.Listed t.rowCount := by
  have hmove : s.1.statusOf j ≠ .basic → Sound t (s.1.flip j) ∧
      (s.1.flip j).setting = s.1.setting ∧
      (s.2.addAll ((t.column j).map fun u =>
        (u.1, u.2 * ((s.1.flip j).valueOf j - s.1.valueOf j)))).Listed t.rowCount :=
    fun hstatus => ⟨h.flip hboxed, setting_flip s.1 j,
      listed_addColumn ht hlisted (h.lt_of_statusOf_ne hstatus) _⟩
  unfold Engine.flipInto
  dsimp only
  split
  · rename_i hstatus
    exact hmove (by rw [hstatus]; exact nofun)
  · rename_i hstatus
    exact hmove (by rw [hstatus]; exact nofun)
  · exact ⟨h, rfl, hlisted⟩

/-- The flips one after the other, and what else holds of all of them. -/
theorem Sound.foldl_flipInto {P : Engine α × SparseVector α → Prop} (ht : t.WellFormed)
    (h : e.Sound t) {flips : List Nat} (hflips : ∀ j ∈ flips, e.hasTwoBounds j = true)
    (hstart : P (e, t.zeroRow))
    (hstep : ∀ s j, Sound t s.1 → s.2.Listed t.rowCount → P s → P (Engine.flipInto t s j)) :
    Sound t (flips.foldl (Engine.flipInto t) (e, t.zeroRow)).1 ∧
    (flips.foldl (Engine.flipInto t) (e, t.zeroRow)).1.setting = e.setting ∧
    (flips.foldl (Engine.flipInto t) (e, t.zeroRow)).2.Listed t.rowCount ∧
    P (flips.foldl (Engine.flipInto t) (e, t.zeroRow)) := by
  refine List.foldlRecOn flips (Engine.flipInto t) (b := (e, t.zeroRow))
    (motive := fun s => Sound t s.1 ∧ s.1.setting = e.setting ∧ s.2.Listed t.rowCount ∧ P s)
    ⟨h, rfl, listed_zeroRow, hstart⟩ fun s hs j hj => ?_
  obtain ⟨hsound, hsetting, hlisted, hP⟩ := hs
  have hboxed := (hasTwoBounds_congr hsetting j).trans (hflips j hj)
  obtain ⟨hnext, hsame, hlisted'⟩ := hsound.flipInto ht hlisted hboxed
  exact ⟨hnext, hsame.trans hsetting, hlisted', hstep s j hsound hlisted hP⟩

/-- The variables that the ratio test has passed move to their other bounds. -/
theorem Sound.flipPassed (ht : t.WellFormed) (h : e.Sound t) {flips : List Nat}
    (hflips : ∀ j ∈ flips, e.hasTwoBounds j = true) :
    (e.flipPassed t flips).Sound t ∧ (e.flipPassed t flips).setting = e.setting := by
  unfold Engine.flipPassed
  split
  · exact ⟨h, rfl⟩
  · obtain ⟨hsound, hsetting, hlisted, -⟩ :=
      h.foldl_flipInto (P := fun _ => True) ht hflips trivial fun _ _ _ _ _ => trivial
    have hinside := inside_ftran hsound hlisted
    refine ⟨?_, ?_⟩
    · refine (hsound.of_standing (standing_ftran _ _)).lowerBasicValues fun x hx => ?_
      obtain ⟨i, hi, rfl⟩ := List.mem_map.mp hx
      exact hinside.lt i hi
    · exact (setting_lowerBasicValues _ _).trans hsetting

/-- The engine in which `entering` has taken the place at a position, and the
variable that was there rests at `target`. -/
def swap (e : Engine α) (position entering : Nat) (status : VariableStatus) (theta target : α) :
    Engine α :=
  { e with
    basicIndex := e.basicIndex.setIfInBounds position entering
    status := (e.status.setIfInBounds entering .basic).setIfInBounds (e.basicAt position) status
    value := (e.value.modify entering (· + theta)).setIfInBounds (e.basicAt position) target }

section Swap

variable (h : e.Sound t) {position entering : Nat} (hposition : position < t.rowCount)
  (hentering : e.statusOf entering ≠ .basic) {status : VariableStatus} {theta target : α}

include h hposition hentering

omit [OrderedScalar α] in
theorem Sound.statusOf_swap (k : Nat) :
    (e.swap position entering status theta target).statusOf k =
      if e.basicAt position = k then status else if entering = k then .basic else e.statusOf k := by
  have hleaving : e.basicAt position < e.status.size := by
    rw [h.size_status]
    exact h.basicAt_lt hposition
  have hlt : entering < e.status.size := by
    rw [h.size_status]
    exact h.lt_of_statusOf_ne hentering
  refine (getD_setIfInBounds ..).trans ?_
  rw [getD_setIfInBounds, Array.size_setIfInBounds]
  by_cases hk : e.basicAt position = k
  · rw [if_pos ⟨hk, hk ▸ hleaving⟩, if_pos hk]
  · rw [if_neg fun hc => hk hc.1, if_neg hk]
    by_cases hk : entering = k
    · rw [if_pos ⟨hk, hk ▸ hlt⟩, if_pos hk]
    · rw [if_neg fun hc => hk hc.1, if_neg hk]
      rfl

omit hentering [OrderedScalar α] in
theorem Sound.valueOf_swap {k : Nat} (hk : entering ≠ k) :
    (e.swap position entering status theta target).valueOf k =
      if e.basicAt position = k then target else e.valueOf k := by
  have hleaving : e.basicAt position < e.value.size := by
    rw [h.size_value]
    exact h.basicAt_lt hposition
  refine (getD_setIfInBounds ..).trans ?_
  rw [Array.size_modify, getD_modify_ne hk]
  by_cases hk : e.basicAt position = k
  · rw [if_pos ⟨hk, hk ▸ hleaving⟩, if_pos hk]
  · rw [if_neg fun hc => hk hc.1, if_neg hk]
    rfl

omit [OrderedScalar α] in
theorem Sound.valueOf_swap_entering :
    (e.swap position entering status theta target).valueOf entering =
      e.valueOf entering + theta := by
  have hne : e.basicAt position ≠ entering := fun he =>
    hentering (he ▸ h.statusOf_basicAt hposition)
  have hlt : entering < e.value.size := by
    rw [h.size_value]
    exact h.lt_of_statusOf_ne hentering
  refine (getD_setIfInBounds_ne hne ..).trans ?_
  rw [getD_modify, if_pos ⟨rfl, hlt⟩]
  rfl

omit [OrderedScalar α] in
/-- The leaving variable rests where it has been put, and the others as before. -/
theorem Sound.rests_swap (hallows : (e.boundsOf (e.basicAt position)).allows status = true)
    (hvalue : (target == (e.boundsOf (e.basicAt position)).restingValue status) = true) (k : Nat) :
    (e.swap position entering status theta target).RestsAt k := by
  have hstatusOf : (e.swap position entering status theta target).statusOf k =
      if e.basicAt position = k then status else if entering = k then .basic else e.statusOf k :=
    h.statusOf_swap hposition hentering k
  have hne : entering ≠ e.basicAt position := fun he =>
    hentering (he ▸ h.statusOf_basicAt hposition)
  by_cases hk : e.basicAt position = k
  · subst hk
    rw [if_pos rfl] at hstatusOf
    refine ⟨?_, fun _ => ?_⟩
    · rw [hstatusOf]
      exact hallows
    · rw [hstatusOf, h.valueOf_swap hposition hne, if_pos rfl]
      exact hvalue
  · rw [if_neg hk] at hstatusOf
    by_cases hk' : entering = k
    · exact restsAt_of_basic (hstatusOf.trans (if_pos hk'))
    · rw [if_neg hk'] at hstatusOf
      refine ⟨?_, fun hbasic => ?_⟩
      · rw [hstatusOf]
        exact (h.rests k).allows
      · rw [hstatusOf] at hbasic ⊢
        rw [h.valueOf_swap hposition hk', if_neg hk]
        exact (h.rests k).value hbasic

omit [OrderedScalar α] in
/-- The listed variables are the basic ones again. -/
theorem Sound.mem_swap_iff (hstatus : status ≠ .basic) {j : Nat} (hj : j < t.size) :
    j ∈ e.basicIndex.toList.set position entering ↔
      (e.swap position entering status theta target).statusOf j = .basic := by
  have hi : position < e.basicIndex.size := h.size_basicIndex ▸ hposition
  have hat : e.basicAt position = e.basicIndex.toList[position] := getD_eq_getElem hi 0
  have hne : entering ≠ e.basicAt position := fun he =>
    hentering (he ▸ h.statusOf_basicAt hposition)
  rw [mem_set_iff h.nodup hi, ← hat, h.statusOf_swap hposition hentering, h.mem_iff j hj]
  by_cases hk : e.basicAt position = j
  · rw [if_pos hk]
    refine iff_of_false (fun hc => ?_) hstatus
    rcases hc with hc | hc
    · exact hc.2 hk.symm
    · exact hne (hc.symm.trans hk.symm)
  · rw [if_neg hk]
    by_cases hk' : entering = j
    · rw [if_pos hk']
      exact iff_of_true (Or.inr hk'.symm) rfl
    · rw [if_neg hk']
      constructor
      · intro hc
        exact (hc.resolve_right fun he => hk' he.symm).1
      · intro hc
        exact Or.inl ⟨hc, fun he => hk he.symm⟩

omit [OrderedScalar α] in
theorem Sound.swap (hstatus : status ≠ .basic)
    (hallows : (e.boundsOf (e.basicAt position)).allows status = true)
    (hvalue : (target == (e.boundsOf (e.basicAt position)).restingValue status) = true) :
    (e.swap position entering status theta target).Sound t := by
  have hlt := h.lt_of_statusOf_ne hentering
  have hout : entering ∉ e.basicIndex.toList := fun hmem =>
    hentering ((h.mem_iff entering hlt).mp hmem)
  have hindex : (e.swap position entering status theta target).basicIndex.toList =
      e.basicIndex.toList.set position entering := Array.toList_setIfInBounds
  refine {
    size_status := (Array.size_setIfInBounds.trans Array.size_setIfInBounds).trans h.size_status
    size_value := (Array.size_setIfInBounds.trans Array.size_modify).trans h.size_value
    size_bounds := h.size_bounds
    proper := h.proper
    relaxed := h.relaxed
    rests := h.rests_swap hposition hentering hallows hvalue
    size_basicIndex := Array.size_setIfInBounds.trans h.size_basicIndex
    nodup := by rw [hindex]; exact h.nodup.set hout
    lt := fun j hj => ?_
    mem_iff := fun j hj => by rw [hindex]; exact h.mem_swap_iff hposition hentering hstatus hj
    weights := h.weights
    factor := h.factor }
  rw [hindex] at hj
  rcases List.mem_or_eq_of_mem_set hj with hj | hj
  · exact h.lt j hj
  · rw [hj]
    exact hlt

end Swap

/-- What is relied on of a basis change.  The bound at which the leaving variable
comes to rest is a number. -/
structure Fits (t : Job α) (e : Engine α) (x : Exchange α) : Prop where
  position_lt : x.position < t.rowCount
  leaving_eq : x.leaving = e.basicAt x.position
  entering_lt : x.entering < t.size
  entering_notMem : x.entering ∉ e.basicIndex.toList
  flips : ∀ j ∈ x.flips, e.hasTwoBounds j = true
  column : x.column.Inside t.rowCount
  finite : (if 0 < x.direction then (e.boundsOf x.leaving).upper
    else (e.boundsOf x.leaving).lower).isFinite = true

variable {x : Exchange α}

omit [OrderedScalar α] in
theorem Fits.congr (hx : e.Fits t x) (h : e'.setting = e.setting) : e'.Fits t x where
  position_lt := hx.position_lt
  leaving_eq := by rw [basicAt_congr h]; exact hx.leaving_eq
  entering_lt := hx.entering_lt
  entering_notMem := by rw [basicIndex_congr h]; exact hx.entering_notMem
  flips j hj := (hasTwoBounds_congr h j).trans (hx.flips j hj)
  column := hx.column
  finite := by rw [boundsOf_congr h]; exact hx.finite

/-- The leaving variable may rest at the bound that it violated. -/
theorem Fits.leavingStatus (hx : e.Fits t x) : e.leavingStatus x ≠ .basic ∧
    (e.boundsOf x.leaving).allows (e.leavingStatus x) = true ∧
    (e.target x == (e.boundsOf x.leaving).restingValue (e.leavingStatus x)) = true := by
  have hfinite := hx.finite
  unfold Engine.leavingStatus Engine.target
  generalize e.boundsOf x.leaving = b at hfinite ⊢
  by_cases hpoint : b.isPoint = true
  · rw [if_pos hpoint]
    refine ⟨nofun, hpoint, ?_⟩
    have hvalue := Bound.beq_value hpoint
    dsimp only
    split
    · exact OrderedScalar.beq_symm hvalue
    · exact OrderedScalar.beq_trans hvalue (OrderedScalar.beq_symm hvalue)
  · rw [if_neg hpoint]
    dsimp only
    split
    · rename_i hdirection
      rw [if_pos hdirection] at hfinite
      exact ⟨nofun, hfinite, Bound.beq_value_self hfinite⟩
    · rename_i hdirection
      rw [if_neg hdirection] at hfinite
      exact ⟨nofun, hfinite, Bound.beq_value_self hfinite⟩

/-- The amounts by which the basic values move with the entering variable. -/
def amounts (e : Engine α) (x : Exchange α) : List (Nat × α) :=
  x.column.entries.map fun u => (u.1, (e.valueOf x.leaving - e.target x) / x.pivot * u.2)

omit [OrderedScalar α] in
theorem exchange_movePrimal (e : Engine α) (hleaving : x.leaving = e.basicAt x.position)
    (w : EdgeWeights α) : { e.movePrimal x with weights := w }.exchange x =
    { (e.lowerBasicValues (e.amounts x)).swap x.position x.entering (e.leavingStatus x)
        ((e.valueOf x.leaving - e.target x) / x.pivot) (e.target x) with weights := w } := by
  unfold Engine.movePrimal Engine.swap Engine.amounts
  dsimp only
  rw [lowerBasicValues_eq]
  unfold Engine.exchange Engine.setStatus
  dsimp only
  rw [hleaving]
  rfl

omit [OrderedScalar α] in
theorem Fits.amounts_lt (hx : e.Fits t x) : ∀ u ∈ e.amounts x, u.1 < t.rowCount := by
  intro u hu
  obtain ⟨v, hv, rfl⟩ := List.mem_map.mp hu
  obtain ⟨p, hp, rfl⟩ := List.mem_map.mp hv
  exact hx.column.lt p hp

omit [OrderedScalar α] in
/-- Once the basic values have moved the entering variable is still outside the basis. -/
theorem Sound.lowerAmounts (h : e.Sound t) (hx : e.Fits t x) :
    (e.lowerBasicValues (e.amounts x)).Sound t ∧
      (e.lowerBasicValues (e.amounts x)).statusOf x.entering ≠ .basic := by
  have hlowered := h.lowerBasicValues hx.amounts_lt
  refine ⟨hlowered, fun hbasic => ?_⟩
  rw [← hlowered.mem_iff _ hx.entering_lt,
    basicIndex_congr (setting_lowerBasicValues e (e.amounts x))] at hbasic
  exact hx.entering_notMem hbasic

/-- In a basis change the passed variables move to their other bounds, and then the entering
variable takes the place of the leaving one. -/
theorem Fits.exists_swap (ht : t.WellFormed) (h : e.Sound t) (hx : e.Fits t x) :
    ∃ (e₁ : Engine α) (w : EdgeWeights α),
      e₁ = ((e.tau? t x.row.rho).1.moveDuals t x).flipPassed t x.flips ∧
      e₁.Sound t ∧ e₁.setting = e.setting ∧ w.Bounded ∧
      (e.applyExchange t x).1 = countPivot { (e₁.lowerBasicValues (e₁.amounts x)).swap x.position
        x.entering (e₁.leavingStatus x) ((e₁.valueOf x.leaving - e₁.target x) / x.pivot)
        (e₁.target x) with weights := w } x.flips.length := by
  have hduals : ((e.tau? t x.row.rho).1.moveDuals t x).standing = e.standing :=
    (standing_moveDuals _ x).trans (standing_tau e _)
  obtain ⟨hsound, hsetting⟩ := (h.of_standing hduals).flipPassed ht (hx.congr
    (setting_congr hduals)).flips
  have hsetting := hsetting.trans (setting_congr hduals)
  generalize hflipped : ((e.tau? t x.row.rho).1.moveDuals t x).flipPassed t x.flips = e₁
    at hsound hsetting
  have hweights : (e₁.movePrimal x).weights.Bounded := by
    unfold Engine.movePrimal
    dsimp only
    rw [lowerBasicValues_eq]
    exact hsound.weights
  refine ⟨e₁, ((e₁.movePrimal x).weights.update x.position x.column (e.tau? t x.row.rho).2).1,
    rfl, hsound, hsetting, hweights.update _ _ _, ?_⟩
  rw [← exchange_movePrimal e₁ (hx.congr hsetting).leaving_eq, ← hflipped]
  rfl

theorem Sound.applyExchange (ht : t.WellFormed) (h : e.Sound t) (hx : e.Fits t x) :
    (e.applyExchange t x).1.Sound t := by
  obtain ⟨e₁, w, -, h₁, hsetting, hw, heq⟩ := hx.exists_swap ht h
  have hx := hx.congr hsetting
  obtain ⟨hstatus, hallows, hvalue⟩ := hx.leavingStatus
  rw [hx.leaving_eq] at hallows hvalue
  obtain ⟨hlowered, hentering⟩ := h₁.lowerAmounts hx
  have hsame := setting_lowerBasicValues e₁ (e₁.amounts x)
  rw [heq]
  refine Sound.of_standing ?_ (standing_countPivot _ _)
  refine (hlowered.swap hx.position_lt hentering hstatus ?_ ?_).withWeights hw
  · rw [basicAt_congr hsame, boundsOf_congr hsame]
    exact hallows
  · rw [basicAt_congr hsame, boundsOf_congr hsame]
    exact hvalue

/-- What a basis change leaves alone. -/
theorem setting_applyExchange (ht : t.WellFormed) (h : e.Sound t) (hx : e.Fits t x) :
    (e.applyExchange t x).1.setting = { e.setting with
      basicIndex := e.basicIndex.setIfInBounds x.position x.entering
      weights := (e.applyExchange t x).1.weights } := by
  obtain ⟨e₁, w, -, -, hsetting, -, heq⟩ := hx.exists_swap ht h
  rw [heq, ← hsetting, ← basicIndex_congr hsetting, lowerBasicValues_eq]
  rfl

theorem Sound.updateFactor (ht : t.WellFormed) (h : e.Sound t) (hposition : x.position < t.rowCount)
    (quality : WeightQuality) : (e.updateFactor t x quality).engine.Sound t := by
  unfold Engine.updateFactor
  split
  · rename_i factor hfactor
    have h := h.withFactor (h.factor.update hposition hfactor)
    show Sound t (if _ then _ else _)
    split
    · exact h.weighRows
    · exact h
  · exact ((h.of_standing (standing_note _ _)).withFactorValid false).renewAndSettle ht

theorem Sound.performExchange (ht : t.WellFormed) (h : e.Sound t) (hx : e.Fits t x) :
    (e.performExchange t x).engine.Sound t := by
  have hupdate := (h.applyExchange ht hx).updateFactor ht hx.position_lt (e.applyExchange t x).2
  refine Progress.engine_andThen (Progress.engine_andThen hupdate fun e he => ?_) fun e he => ?_
  · exact he.of_standing (standing_traceObjective e)
  · have he : Sound t { e with history := (e.history.record x.entering).1 } := he.of_standing rfl
    unfold Engine.watchCycle
    dsimp only
    split
    · exact he.leaveCycle ht
    · exact he

omit [Scalar α] [OrderedScalar α] in
theorem standing_countRecovery (e : Engine α) : e.countRecovery.engine.standing = e.standing := by
  unfold Engine.countRecovery
  dsimp only
  split
  · rfl
  · rfl

theorem Sound.tryExchange (ht : t.WellFormed) (h : e.Sound t) (hx : e.Fits t x) :
    (e.tryExchange t x).engine.Sound t := by
  have hnote := h.of_standing (standing_note e .pivotMismatch)
  have hx' := hx.congr (setting_congr (standing_note e .pivotMismatch))
  unfold Engine.tryExchange
  dsimp only
  split
  · split
    · exact hnote.renewAndSettle ht
    · split
      · have hbasic : (e.note .pivotMismatch).statusOf x.leaving = .basic :=
          hx'.leaving_eq ▸ hnote.statusOf_basicAt hx.position_lt
        have hstanding := standing_countRecovery (e.note .pivotMismatch)
        generalize (e.note .pivotMismatch).countRecovery = p at hstanding ⊢
        cases p with
        | stopped e' status => exact hnote.of_standing hstanding
        | going e' =>
          refine (hnote.of_standing hstanding).relaxBound ?_
          rw [statusOf_congr (status_congr hstanding)]
          exact hbasic
      · exact hnote.performExchange ht hx'
  · exact h.performExchange ht hx

/-! ## Iterations -/

omit [Scalar α] [OrderedScalar α] in
theorem engine_toStep (p : Progress α) : p.toStep.engine = p.engine := by
  cases p with
  | going e => rfl
  | stopped e status => rfl

/-- The engine when the row of a position has been priced out, and the row. -/
def priceRow (t : Job α) (e : Engine α) (position : Nat) : Engine α × PivotRow α :=
  (e.inverseRow t position).1.price t (e.inverseRow t position).2

/-- The basis change that is tried when the variable at `position` leaves, which violates a
bound by `delta`. -/
def exchangeAt? (t : Job α) (e : Engine α) (position : Nat) (delta : α) :
    Option (Engine α × Exchange α) :=
  let (e, row) := e.priceRow t position
  let (test, result) := (e.ratioTest t row (sign delta)).run (magnitude delta)
    t.parameters.dualTolerance t.parameters.primalTolerance
  match result with
  | .unbounded => none
  | .entering entering _ step =>
    if e.atIterationLimit t then none
    else some ((e.ftranEntering t entering).1, {
      position := position
      leaving := e.basicAt position
      direction := sign delta
      entering := entering
      step := step
      flips := test.flips
      row := row
      column := (e.ftranEntering t entering).2 })

omit [OrderedScalar α] in
/-- Without a basis change to try an iteration ends, and nothing has moved. -/
theorem iterateAt_eq (e : Engine α) (position : Nat) (delta : α) :
    match e.exchangeAt? t position delta with
    | some (e', x) => e.iterateAt t position delta = (e'.tryExchange t x).toStep
    | none => (∃ ray, e.iterateAt t position delta = .unbounded (e.priceRow t position).1 ray) ∨
        e.iterateAt t position delta = .stopped (e.priceRow t position).1 .iterationLimit := by
  unfold Engine.exchangeAt? Engine.iterateAt Engine.priceRow
  dsimp only
  generalize (e.inverseRow t position).1.price t (e.inverseRow t position).2 = priced
  obtain ⟨e', row⟩ := priced
  dsimp only
  generalize (e'.ratioTest t row (sign delta)).run (magnitude delta)
    t.parameters.dualTolerance t.parameters.primalTolerance = outcome
  obtain ⟨test, result⟩ := outcome
  cases result with
  | unbounded => exact Or.inl ⟨_, rfl⟩
  | entering entering alpha step =>
    dsimp only
    by_cases hlimit : e'.atIterationLimit t = true
    · rw [if_pos hlimit, if_pos hlimit]
      exact Or.inr rfl
    · rw [if_neg hlimit, if_neg hlimit]

/-- How a basis change has been decided on: the leaving variable violates a bound, the rest
was found by a ratio test on its row, and then its column was solved for. -/
structure Decided (t : Job α) (e e' : Engine α) (x : Exchange α) : Prop where
  violates : ∃ delta, delta = (e.boundsOf x.leaving).violation t.parameters.primalTolerance
    (e.valueOf x.leaving) ∧ (delta == 0) = false ∧ x.direction = sign delta
  row_eq : x.row = (e.priceRow t x.position).2
  found : ∃ alpha slope, ((e.ratioTest t x.row x.direction).run slope t.parameters.dualTolerance
      t.parameters.primalTolerance).2 = .entering x.entering alpha x.step ∧
    ((e.ratioTest t x.row x.direction).run slope t.parameters.dualTolerance
      t.parameters.primalTolerance).1.flips = x.flips
  engine_eq : e' = ((e.priceRow t x.position).1.ftranEntering t x.entering).1
  column_eq : x.column = ((e.priceRow t x.position).1.ftranEntering t x.entering).2
  fits : e'.Fits t x

omit [OrderedScalar α] in
theorem bounds_ftranEntering (e : Engine α) (j : Nat) :
    (e.ftranEntering t j).1.bounds = e.bounds := rfl

theorem Sound.of_exchangeAt (ht : t.WellFormed) (h : e.Sound t) {position : Nat}
    (hposition : position < t.rowCount) {delta : α}
    (hdelta : delta = (e.boundsOf (e.basicAt position)).violation t.parameters.primalTolerance
      (e.valueOf (e.basicAt position))) (hviolated : (delta == 0) = false)
    (hx : e.exchangeAt? t position delta = some (e', x)) : e.Decided t e' x := by
  have hfinite := (h.proper (e.basicAt position)).isFinite_of_violation ht.primalTolerance_pos
    (hdelta ▸ hviolated)
  rw [← hdelta] at hfinite
  have hrow : (e.priceRow t position).1.standing = e.standing :=
    (standing_price _ _).trans (standing_inverseRow e position)
  have htest : ∀ r direction, (e.priceRow t position).1.ratioTest t r direction =
      e.ratioTest t r direction := fun r direction => rfl
  have hpriced := h.of_standing hrow
  unfold Engine.exchangeAt? at hx
  dsimp only at hx
  rw [htest] at hx
  generalize houtcome : (e.ratioTest t (e.priceRow t position).2 (sign delta)).run
    (magnitude delta) t.parameters.dualTolerance t.parameters.primalTolerance = outcome at hx
  obtain ⟨test, result⟩ := outcome
  cases result with
  | unbounded => exact absurd hx nofun
  | entering entering alpha step =>
    dsimp only at hx
    split at hx
    · exact absurd hx nofun
    · obtain ⟨rfl, rfl⟩ := Prod.mk.inj (Option.some.inj hx)
      have hresult := congrArg Prod.snd houtcome
      have hflips := congrArg (fun o => o.1.flips) houtcome
      obtain ⟨hentering, hboxed⟩ := of_ratioTest ht.isFinite_primalTolerance hresult
      rw [houtcome] at hboxed
      have hlt := h.lt_of_statusOf_ne hentering
      have hbounds : ∀ j, ((e.priceRow t position).1.ftranEntering t entering).1.boundsOf j =
          e.boundsOf j := fun j => by
        unfold boundsOf
        rw [bounds_ftranEntering, bounds_congr (setting_congr hrow)]
      refine ⟨⟨delta, hdelta, hviolated, rfl⟩, rfl, ⟨alpha, magnitude delta, hresult, hflips⟩, rfl,
        rfl, hposition, rfl, hlt, fun hmem => ?_, fun j hj => ?_,
        (hpriced.ftranEntering ht hlt).2, ?_⟩
      · exact hentering ((h.mem_iff entering hlt).mp hmem)
      · unfold hasTwoBounds
        rw [hbounds]
        exact hboxed j hj
      · rw [hbounds]
        exact hfinite

/-- What an iteration comes to in which the variable at a position leaves.  Before
the basis change only the solve for the entering column has touched the factors. -/
theorem Sound.iterateAt_cases (ht : t.WellFormed) (h : e.Sound t) {position : Nat}
    (hposition : position < t.rowCount) {delta : α}
    (hdelta : delta = (e.boundsOf (e.basicAt position)).violation t.parameters.primalTolerance
      (e.valueOf (e.basicAt position))) (hviolated : (delta == 0) = false) :
    ∃ e' : Engine α, e'.standing = e.standing ∧
      ((∃ ray, e.iterateAt t position delta = .unbounded e' ray) ∨
      e.iterateAt t position delta = .stopped e' .iterationLimit ∨
      ∃ x : Exchange α, (e'.ftranEntering t x.entering).2 = x.column ∧
        (e'.ftranEntering t x.entering).1.Fits t x ∧
        e.iterateAt t position delta =
          ((e'.ftranEntering t x.entering).1.tryExchange t x).toStep) := by
  have hstep := iterateAt_eq (t := t) e position delta
  have hstanding : ∀ position, (e.priceRow t position).1.standing = e.standing := fun position =>
    (standing_price _ _).trans (standing_inverseRow e position)
  cases hexchange : e.exchangeAt? t position delta with
  | none =>
    rw [hexchange] at hstep
    exact ⟨_, hstanding position, hstep.imp_right Or.inl⟩
  | some tried =>
    obtain ⟨e', x⟩ := tried
    rw [hexchange] at hstep
    have hdecided := h.of_exchangeAt ht hposition hdelta hviolated hexchange
    have hfits := hdecided.fits
    rw [hdecided.engine_eq] at hstep hfits
    exact ⟨_, hstanding x.position, Or.inr (Or.inr ⟨x, hdecided.column_eq.symm, hfits, hstep⟩)⟩

omit [OrderedScalar α] in
/-- The variable at the position that is chosen violates its bounds. -/
theorem Sound.violates_of_choosePosition (h : e.Sound t) {position : Nat}
    (hposition : e.weights.choosePosition (e.infeasibilities t) e.basicIndex = some position) :
    position < t.rowCount ∧
    (e.infeasibilities t).getD position 0 =
      (e.boundsOf (e.basicAt position)).violation t.parameters.primalTolerance
        (e.valueOf (e.basicAt position)) ∧
    ((e.infeasibilities t).getD position 0 == 0) = false := by
  obtain ⟨hlt, hviolated⟩ := of_choosePosition hposition
  have hsize : (e.infeasibilities t).size = t.rowCount :=
    Array.size_map.trans h.size_basicIndex
  refine ⟨hsize ▸ hlt, ?_, hviolated⟩
  rw [getD_eq_getElem hlt]
  have hposition : position < e.basicIndex.size := by
    rw [h.size_basicIndex, ← hsize]
    exact hlt
  unfold Engine.basicAt
  rw [getD_eq_getElem hposition]
  exact Array.getElem_map ..

omit [OrderedScalar α] in
/-- No basic variable violates its bounds, or one that does leaves. -/
theorem Sound.iterate_cases (h : e.Sound t) :
    (e.weights.choosePosition (e.infeasibilities t) e.basicIndex = none ∧
      e.iterate t = .solved e) ∨
    ∃ position delta, position < t.rowCount ∧
      delta = (e.boundsOf (e.basicAt position)).violation t.parameters.primalTolerance
        (e.valueOf (e.basicAt position)) ∧
      (delta == 0) = false ∧ e.iterate t = e.iterateAt t position delta := by
  unfold Engine.iterate
  dsimp only
  split
  · rename_i hnone
    exact Or.inl ⟨hnone, rfl⟩
  · rename_i position hposition
    obtain ⟨hlt, hdelta, hviolated⟩ := h.violates_of_choosePosition hposition
    exact Or.inr ⟨position, _, hlt, hdelta, hviolated, rfl⟩

theorem Sound.iterate (ht : t.WellFormed) (h : e.Sound t) : (e.iterate t).engine.Sound t := by
  rcases h.iterate_cases with hsolved | hleaves
  · rw [hsolved.2]
    exact h
  · obtain ⟨position, delta, hposition, hdelta, hviolated, heq⟩ := hleaves
    rw [heq]
    obtain ⟨e', hsame, hcases⟩ := h.iterateAt_cases ht hposition hdelta hviolated
    have h := h.of_standing hsame
    rcases hcases with hunbounded | hlimit | hexchange
    · obtain ⟨ray, heq⟩ := hunbounded
      rw [heq]
      exact h
    · rw [hlimit]
      exact h
    · obtain ⟨x, -, hx, heq⟩ := hexchange
      rw [heq, engine_toStep]
      exact (h.ftranEntering ht hx.entering_lt).1.tryExchange ht hx

theorem Sound.renewIfDue (ht : t.WellFormed) (h : e.Sound t) : (e.renewIfDue t).engine.Sound t := by
  unfold Engine.renewIfDue
  split
  · exact h.renewAndSettle ht
  · exact h

theorem Sound.advance (ht : t.WellFormed) (h : e.Sound t) : (e.advance t).engine.Sound t := by
  unfold Engine.advance
  split
  · exact h
  · have hdue := h.renewIfDue ht
    generalize e.renewIfDue t = p at hdue ⊢
    cases p with
    | going e => exact hdue.iterate ht
    | stopped e status => exact hdue

end Engine
end DualSimplex
