import DualSimplex.Proofs.Bound
import DualSimplex.Proofs.EdgeWeights
import DualSimplex.Proofs.Engine.Frame
import DualSimplex.Proofs.Factor.FactoredBasis

/-!
# Consistent engines

What an engine keeps at all times: the basis has a variable for every row, the
others rest where their bounds allow it, and the weights and factors are in
order.  Each part is looked at by itself, because a repair of the basis breaks one
of them for a while.
-/

namespace DualSimplex

open Scalar

namespace Engine

variable {α : Type} [Scalar α]

/-- The status of a variable fits its bounds, and unless it is basic so does its
value. -/
structure RestsAt (e : Engine α) (j : Nat) : Prop where
  allows : (e.boundsOf j).allows (e.statusOf j) = true
  value : e.statusOf j ≠ .basic →
    (e.valueOf j == (e.boundsOf j).restingValue (e.statusOf j)) = true

variable (t : Job α)

/-- Every variable has a status, a value and usable bounds. -/
structure Shaped (e : Engine α) : Prop where
  size_status : e.status.size = t.size
  size_value : e.value.size = t.size
  size_bounds : e.bounds.size = t.size
  proper : ∀ j, (e.boundsOf j).Proper
  relaxed : ∀ r ∈ e.relaxed, r.2.Proper

structure Rests (e : Engine α) : Prop extends Shaped t e where
  rests : ∀ j, e.RestsAt j

/-- The basis has a place for each row, and the variables in it are those whose
status says so. -/
structure Placed (e : Engine α) : Prop where
  size_basicIndex : e.basicIndex.size = t.rowCount
  nodup : e.basicIndex.toList.Nodup
  lt : ∀ j ∈ e.basicIndex.toList, j < t.size
  mem_iff : ∀ j, j < t.size → (j ∈ e.basicIndex.toList ↔ e.statusOf j = .basic)

structure Sound (e : Engine α) : Prop extends Rests t e, Placed t e where
  weights : e.weights.Bounded
  factor : e.factor.WellFormed t.rowCount

variable {t} {e e' : Engine α}

/-! ## Reading the basis -/

omit [Scalar α] in
theorem toList_status (hsize : e.status.size = t.size) :
    e.status.toList = t.indices.map e.statusOf := by
  refine List.ext_getElem ?_ fun j hj _ => ?_
  · rw [List.length_map, Array.length_toList, hsize]
    exact List.length_range.symm
  · simp only [Job.indices, List.getElem_map, List.getElem_range]
    have hj : j < e.status.size := hj
    exact (getD_eq_getElem hj _).symm

section Basis

omit [Scalar α]

/-- The listed variables are those at the positions of the basis. -/
theorem mem_basicIndex_iff (hsize : e.basicIndex.size = t.rowCount) {j : Nat} :
    j ∈ e.basicIndex.toList ↔ ∃ position, position < t.rowCount ∧ e.basicAt position = j := by
  rw [List.mem_iff_getElem]
  constructor
  · intro hj
    obtain ⟨p, hp, hj⟩ := hj
    have hp : p < e.basicIndex.size := hp
    exact ⟨p, hsize ▸ hp, (getD_eq_getElem hp 0).trans hj⟩
  · intro hj
    obtain ⟨p, hp, hj⟩ := hj
    have hp : p < e.basicIndex.size := hsize ▸ hp
    exact ⟨p, hp, (getD_eq_getElem hp 0).symm.trans hj⟩

theorem Placed.basicAt_mem (h : e.Placed t) {position : Nat} (hposition : position < t.rowCount) :
    e.basicAt position ∈ e.basicIndex.toList :=
  (mem_basicIndex_iff h.size_basicIndex).mpr ⟨position, hposition, rfl⟩

theorem Placed.basicAt_lt (h : e.Placed t) {position : Nat} (hposition : position < t.rowCount) :
    e.basicAt position < t.size :=
  h.lt _ (h.basicAt_mem hposition)

theorem Placed.statusOf_basicAt (h : e.Placed t) {position : Nat}
    (hposition : position < t.rowCount) : e.statusOf (e.basicAt position) = .basic :=
  (h.mem_iff _ (h.basicAt_lt hposition)).mp (h.basicAt_mem hposition)

theorem Placed.basicAt_inj (h : e.Placed t) {p q : Nat} (hp : p < t.rowCount) (hq : q < t.rowCount)
    (heq : e.basicAt p = e.basicAt q) : p = q := by
  have hp : p < e.basicIndex.size := h.size_basicIndex ▸ hp
  have hq : q < e.basicIndex.size := h.size_basicIndex ▸ hq
  unfold basicAt at heq
  rw [getD_eq_getElem hp, getD_eq_getElem hq] at heq
  exact h.nodup.getElem_inj_iff.mp heq

theorem Placed.exists_position (h : e.Placed t) {j : Nat} (hj : j ∈ e.basicIndex.toList) :
    ∃ position, position < t.rowCount ∧ e.basicAt position = j :=
  (mem_basicIndex_iff h.size_basicIndex).mp hj

/-- The basis does not care how the other variables rest. -/
theorem Placed.of_statuses (h : e.Placed t) (hindex : e'.basicIndex = e.basicIndex)
    (hstatus : ∀ j, e'.statusOf j = .basic ↔ e.statusOf j = .basic) : e'.Placed t where
  size_basicIndex := by rw [hindex, h.size_basicIndex]
  nodup := by rw [hindex]; exact h.nodup
  lt := by rw [hindex]; exact h.lt
  mem_iff j hj := by rw [hindex, h.mem_iff j hj, hstatus]

end Basis

theorem Shaped.lt_of_statusOf_ne (h : e.Shaped t) {j : Nat} (hj : e.statusOf j ≠ .basic) :
    j < t.size := by
  by_contra hge
  refine hj (getD_of_size_le ?_ _)
  rw [h.size_status]
  omega

/-! ## Moving values of basic variables -/

/-- It does not matter for where the variables stand what else an engine knows. -/
theorem Rests.of_eq (h : e.Rests t) (hbounds : e'.bounds = e.bounds)
    (hrelaxed : e'.relaxed = e.relaxed) (hstatus : e'.status = e.status)
    (hvalue : e'.value = e.value) : e'.Rests t := by
  have hboundsOf : e'.boundsOf = e.boundsOf := by
    unfold boundsOf
    rw [hbounds]
  have hvalueOf : e'.valueOf = e.valueOf := by
    unfold valueOf
    rw [hvalue]
  have hstatusOf : e'.statusOf = e.statusOf := funext (statusOf_congr hstatus)
  refine {
    size_status := by rw [hstatus, h.size_status]
    size_value := by rw [hvalue, h.size_value]
    size_bounds := by rw [hbounds, h.size_bounds]
    proper := by rw [hboundsOf]; exact h.proper
    relaxed := by rw [hrelaxed]; exact h.relaxed
    rests := fun j => ⟨?_, ?_⟩ }
  · rw [hboundsOf, hstatusOf]
    exact (h.rests j).allows
  · rw [hboundsOf, hstatusOf, hvalueOf]
    exact (h.rests j).value

/-- Nothing is lost as long as the values of the resting variables stay. -/
theorem Sound.of_values (h : e.Sound t) (hsetting : e'.setting = e.setting)
    (hstatus : e'.status = e.status) (hsize : e'.value.size = e.value.size)
    (hvalue : ∀ j, e.statusOf j ≠ .basic → e'.valueOf j = e.valueOf j) : e'.Sound t := by
  have hbounds := boundsOf_congr hsetting
  have hstatusOf := statusOf_congr hstatus
  refine {
    size_status := by rw [hstatus, h.size_status]
    size_value := hsize.trans h.size_value
    size_bounds := by rw [bounds_congr hsetting, h.size_bounds]
    proper := fun j => by rw [hbounds]; exact h.proper j
    relaxed := by rw [relaxed_congr hsetting]; exact h.relaxed
    rests := fun j => ⟨?_, fun hj => ?_⟩
    size_basicIndex := by rw [basicIndex_congr hsetting, h.size_basicIndex]
    nodup := by rw [basicIndex_congr hsetting]; exact h.nodup
    lt := by rw [basicIndex_congr hsetting]; exact h.lt
    mem_iff := fun j hj => by rw [basicIndex_congr hsetting, hstatusOf]; exact h.mem_iff j hj
    weights := by rw [weights_congr hsetting]; exact h.weights
    factor := ?_ }
  · rw [hbounds, hstatusOf]
    exact (h.rests j).allows
  · rw [hstatusOf] at hj
    rw [hvalue j hj, hbounds, hstatusOf]
    exact (h.rests j).value hj
  · exact h.factor.congr (lu_congr hsetting) (spike_congr hsetting)

theorem Sound.of_standing (h : e.Sound t) (hstanding : e'.standing = e.standing) : e'.Sound t :=
  h.of_values (setting_congr hstanding) (status_congr hstanding)
    (congrArg Array.size (value_congr hstanding)) fun j _ => valueOf_congr (value_congr hstanding) j

theorem Sound.withWeights (h : e.Sound t) {w : EdgeWeights α} (hw : w.Bounded) :
    Sound t { e with weights := w } :=
  ⟨h.toRests.of_eq rfl rfl rfl rfl, h.toPlaced.of_statuses rfl fun _ => Iff.rfl, hw, h.factor⟩

theorem Sound.withFactor (h : e.Sound t) {f : FactoredBasis α} (hf : f.WellFormed t.rowCount) :
    Sound t { e with factor := f } :=
  ⟨h.toRests.of_eq rfl rfl rfl rfl, h.toPlaced.of_statuses rfl fun _ => Iff.rfl, h.weights, hf⟩

theorem Sound.withFactorValid (h : e.Sound t) (valid : Bool) :
    Sound t { e with factorValid := valid } :=
  ⟨h.toRests.of_eq rfl rfl rfl rfl, h.toPlaced.of_statuses rfl fun _ => Iff.rfl, h.weights,
    h.factor⟩

theorem Sound.withRays (h : e.Sound t) (dualRay primalRay : Option (Array α)) :
    Sound t { e with dualRay := dualRay, primalRay := primalRay } :=
  ⟨h.toRests.of_eq rfl rfl rfl rfl, h.toPlaced.of_statuses rfl fun _ => Iff.rfl, h.weights,
    h.factor⟩

theorem Sound.solveValues (h : e.Sound t) : (e.solveValues t).Sound t := by
  refine h.of_values (setting_solveValues e) (status_solveValues e) ?_ fun j hj => ?_
  · rw [solveValues_eq]
    exact size_foldl_set ..
  · rw [solveValues_eq]
    refine getD_foldl_set_of_notMem _ _ (fun x hx he => hj ?_) _ _
    have hmem : j ∈ e.basicIndex.toList := he ▸ List.fst_mem_of_mem_zipIdx hx
    exact (h.mem_iff j (h.lt j hmem)).mp hmem

theorem Sound.lowerBasicValues (h : e.Sound t) {amounts : List (Nat × α)}
    (hamounts : ∀ x ∈ amounts, x.1 < t.rowCount) : (e.lowerBasicValues amounts).Sound t := by
  refine h.of_values (setting_lowerBasicValues e amounts) (status_lowerBasicValues e amounts)
    ?_ fun j hj => ?_
  · rw [lowerBasicValues_eq]
    exact size_foldl_modify ..
  · rw [lowerBasicValues_eq]
    refine getD_foldl_modify_of_notMem _ _ (fun x hx he => hj ?_) _ _
    rw [← he]
    exact h.statusOf_basicAt (hamounts x hx)

/-! ## Putting variables to rest -/

theorem statusOf_rest (e : Engine α) (j k : Nat) (s : VariableStatus) :
    (e.rest j s).statusOf k = if j = k ∧ k < e.status.size then s else e.statusOf k :=
  getD_setIfInBounds ..

theorem valueOf_rest (e : Engine α) (j k : Nat) (s : VariableStatus) :
    (e.rest j s).valueOf k =
      if j = k ∧ k < e.value.size then (e.boundsOf j).restingValue s else e.valueOf k :=
  getD_setIfInBounds ..

theorem statusOf_rest_ne {j k : Nat} (hne : j ≠ k) (e : Engine α) (s : VariableStatus) :
    (e.rest j s).statusOf k = e.statusOf k :=
  getD_setIfInBounds_ne hne ..

theorem Shaped.rest (h : e.Shaped t) (j : Nat) (s : VariableStatus) : (e.rest j s).Shaped t where
  size_status := Array.size_setIfInBounds.trans h.size_status
  size_value := Array.size_setIfInBounds.trans h.size_value
  size_bounds := h.size_bounds
  proper := h.proper
  relaxed := h.relaxed

theorem RestsAt.rest [OrderedScalar α] (h : e.Shaped t) {j k : Nat} {s : VariableStatus}
    (hs : (e.boundsOf j).allows s = true) (hk : j ≠ k → e.RestsAt k) : (e.rest j s).RestsAt k := by
  by_cases hjk : j = k
  · subst hjk
    by_cases hj : j < t.size
    · have hstatus : (e.rest j s).statusOf j = s := by
        rw [statusOf_rest, h.size_status, if_pos ⟨rfl, hj⟩]
      refine ⟨?_, fun _ => ?_⟩
      · rw [hstatus]
        exact hs
      · rw [hstatus, valueOf_rest, h.size_value, if_pos ⟨rfl, hj⟩]
        exact Interval.beq_restingValue hs
    · have hstatus : (e.rest j s).statusOf j = .basic := by
        by_contra hne
        exact hj ((h.rest j s).lt_of_statusOf_ne hne)
      refine ⟨?_, fun hne => absurd hstatus hne⟩
      rw [hstatus]
      rfl
  · obtain ⟨hallows, hvalue⟩ := hk hjk
    refine ⟨?_, fun hne => ?_⟩
    · rw [statusOf_rest_ne hjk]
      exact hallows
    · rw [statusOf_rest_ne hjk] at hne ⊢
      rw [valueOf_rest, if_neg fun h => hjk h.1]
      exact hvalue hne

theorem Rests.rest [OrderedScalar α] (h : e.Rests t) {j : Nat} {s : VariableStatus}
    (hs : (e.boundsOf j).allows s = true) : (e.rest j s).Rests t :=
  { h.toShaped.rest j s with rests := fun k => RestsAt.rest h.toShaped hs fun _ => h.rests k }

theorem statusOf_rest_eq_basic_iff {j : Nat} {s : VariableStatus}
    (hs : s = .basic ↔ e.statusOf j = .basic) (k : Nat) :
    (e.rest j s).statusOf k = .basic ↔ e.statusOf k = .basic := by
  rw [statusOf_rest]
  split
  · rename_i hk
    rw [← hk.1]
    exact hs
  · rfl

/-- Engines in which the same variables are basic, with the same basis. -/
theorem Sound.of_rests (h : e.Sound t) (hrests : e'.Rests t) (hindex : e'.basicIndex = e.basicIndex)
    (hstatus : ∀ j, e'.statusOf j = .basic ↔ e.statusOf j = .basic)
    (hweights : e'.weights = e.weights) (hfactor : e'.factor = e.factor) : e'.Sound t :=
  { hrests, h.toPlaced.of_statuses hindex hstatus with
    weights := by rw [hweights]; exact h.weights
    factor := by rw [hfactor]; exact h.factor }

/-- Rest the variables of a list one after the other, each as its bounds allow. -/
theorem rests_foldl_rest [OrderedScalar α] {f : Engine α → Nat → VariableStatus} {l : List Nat}
    (h : e.Shaped t) (hf : ∀ e' : Engine α, e'.bounds = e.bounds → ∀ j ∈ l,
      (e'.boundsOf j).allows (f e' j) = true) (hrest : ∀ j, j ∉ l → e.RestsAt j) :
    (l.foldl (fun e j => e.rest j (f e j)) e).Rests t := by
  induction l generalizing e with
  | nil => exact { h with rests := fun j => hrest j List.not_mem_nil }
  | cons k l ih =>
    have hk := hf e rfl k List.mem_cons_self
    refine ih (h.rest k _) (fun e' he' j hj => hf e' he' j (List.mem_cons_of_mem k hj)) ?_
    intro j hj
    refine RestsAt.rest h hk fun hne => hrest j fun hmem => ?_
    rcases List.mem_cons.mp hmem with he | hmem
    · exact hne he.symm
    · exact hj hmem

theorem statusOf_foldl_rest {f : Engine α → Nat → VariableStatus}
    (hf : ∀ e' : Engine α, ∀ j, e'.statusOf j ≠ .basic → f e' j ≠ .basic) {l : List Nat}
    (hl : ∀ j ∈ l, e.statusOf j ≠ .basic) (k : Nat) :
    (l.foldl (fun e j => e.rest j (f e j)) e).statusOf k = .basic ↔ e.statusOf k = .basic := by
  induction l generalizing e with
  | nil => rfl
  | cons j l ih =>
    have hj := hl j List.mem_cons_self
    have hstep := statusOf_rest_eq_basic_iff (iff_of_false (hf e j hj) hj)
    refine (ih fun i hi he => ?_).trans (hstep k)
    exact hl i (List.mem_cons_of_mem j hi) ((hstep i).mp he)

end Engine
end DualSimplex
