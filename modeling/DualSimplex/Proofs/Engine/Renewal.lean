import DualSimplex.Proofs.Engine.Consistent
import DualSimplex.Proofs.Program

/-!
# Renewal and repair of consistent engines

Factoring anew, admitting logical variables for dependent ones, and putting
reduced costs right all leave a consistent engine behind.
-/

namespace DualSimplex

open Scalar

variable {α : Type} [Scalar α]

namespace Job

/-- A job whose program and tolerances were accepted. -/
structure WellFormed (t : Job α) : Prop where
  program : t.program.WellFormed
  isFinite_primalTolerance : isFinite t.parameters.primalTolerance = true
  primalTolerance_pos : 0 < t.parameters.primalTolerance

/-- The bounds that the program gives a variable. -/
def boundsAt (t : Job α) (j : Nat) : Interval α :=
  t.bounds.getD j { lower := .negInf, upper := .posInf }

variable {t : Job α} (ht : t.WellFormed)

include ht

theorem WellFormed.column_keys (j : Nat) : DistinctKeys (t.column j) := by
  unfold column
  split
  · rename_i hj
    exact ht.program.column_keys j hj
  · exact distinctKeys_append_singleton.mpr ⟨distinctKeys_nil, nofun⟩

theorem WellFormed.row_lt {j : Nat} (hj : j < t.size) : ∀ u ∈ t.column j, u.1 < t.rowCount := by
  intro u hu
  unfold column at hu
  split at hu
  · rename_i hcolumn
    exact ht.program.row_lt j hcolumn u hu
  · rw [List.mem_singleton.mp hu]
    unfold size at hj
    show j - t.columnCount < t.rowCount
    omega

theorem WellFormed.size_bounds : t.bounds.size = t.size := by
  unfold bounds
  rw [Array.size_append, Array.size_map, ht.program.size_columnBounds]
  rfl

theorem WellFormed.getD_bounds (j : Nat) : t.bounds.getD j { lower := .negInf, upper := .posInf } =
    if j < t.columnCount then t.program.columnBounds.getD j { lower := .negInf, upper := .posInf }
    else (t.program.rowBounds.getD (j - t.columnCount)
      { lower := .negInf, upper := .posInf }).neg := by
  refine (Matrix.getD_append ..).trans ?_
  have hsize : t.program.columnBounds.size = t.columnCount := ht.program.size_columnBounds
  rw [hsize]
  by_cases hj : j < t.columnCount
  · rw [if_pos hj, if_pos hj]
  · rw [if_neg hj, if_neg hj]
    exact getD_map Interval.neg _ _ { lower := .negInf, upper := .posInf }

theorem WellFormed.boundsAt_mem {j : Nat} (hj : j < t.size) : t.boundsAt j ∈ t.bounds := by
  have hlt : j < t.bounds.size := ht.size_bounds.symm ▸ hj
  unfold boundsAt
  rw [getD_eq_getElem hlt]
  exact Array.getElem_mem hlt

theorem WellFormed.boundsAt_column {j : Nat} (hj : j < t.program.columnBounds.size) :
    t.boundsAt j = t.program.columnBounds[j] := by
  have hcolumn : j < t.columnCount := Nat.lt_of_lt_of_eq hj ht.program.size_columnBounds
  unfold boundsAt
  rw [ht.getD_bounds, if_pos hcolumn, getD_eq_getElem hj]

theorem WellFormed.boundsAt_row {i : Nat} (hi : i < t.program.rowBounds.size) :
    t.boundsAt (t.columnCount + i) = t.program.rowBounds[i].neg := by
  unfold boundsAt
  rw [ht.getD_bounds, if_neg (by omega), Nat.add_sub_cancel_left, getD_eq_getElem hi]

theorem WellFormed.canonical_bounds [OrderedScalar α] {b : Interval α} (hb : b ∈ t.bounds) :
    b.Canonical := by
  rcases Array.mem_append.mp hb with hb | hb
  · exact ht.program.columnBounds b hb
  · obtain ⟨c, hc, rfl⟩ := Array.mem_map.mp hb
    exact (ht.program.rowBounds c hc).neg

end Job

omit [Scalar α] in
/-- What the first of two parts of a step leaves behind is kept by the second. -/
theorem Progress.engine_andThen {P : Engine α → Prop} {p : Progress α} (hp : P p.engine)
    {f : Engine α → Progress α} (hf : ∀ e, P e → P (f e).engine) : P (p.andThen f).engine := by
  cases p with
  | going e => exact hf e hp
  | stopped e status => exact hp

namespace Engine

variable {t : Job α} {e : Engine α}

theorem listed_zeroRow [LawfulScalar α] : t.zeroRow.Listed t.rowCount :=
  SparseVector.listed_zero _ _

/-- Values of basic variables come from the factors, whose solutions have an entry
for a position of the basis at most. -/
theorem inside_ftran [LawfulScalar α] (h : e.Sound t) {v : SparseVector α}
    (hv : v.Listed t.rowCount) : (e.ftran v).2.Inside t.rowCount := by
  have hm : t.rowCount = e.factor.lu.m := h.factor.m_eq.symm
  rw [hm] at hv ⊢
  exact h.factor.lu.inside_ftran hv

theorem length_basisMatrix (h : e.Placed t) : (e.basisMatrix t).length = t.rowCount :=
  (List.length_map _).trans h.size_basicIndex

theorem getD_basisMatrix (h : e.Placed t) {position : Nat} (hposition : position < t.rowCount) :
    (e.basisMatrix t).getD position [] = t.column (e.basicAt position) := by
  have hlt : position < e.basicIndex.size := h.size_basicIndex ▸ hposition
  unfold basisMatrix basicAt
  rw [getD_eq_getElem hlt, List.getD_eq_getElem?_getD, List.getElem?_map,
    Array.getElem?_toList, Array.getElem?_eq_getElem hlt]
  rfl

theorem squareColumns_basisMatrix (ht : t.WellFormed) (h : e.Placed t) :
    SquareColumns (e.basisMatrix t) where
  keys := by
    intro column hcolumn
    obtain ⟨j, -, rfl⟩ := List.mem_map.mp hcolumn
    exact ht.column_keys j
  row_lt := by
    intro column hcolumn
    obtain ⟨j, hj, rfl⟩ := List.mem_map.mp hcolumn
    rw [length_basisMatrix h]
    exact ht.row_lt (h.lt j hj)

/-! ## Repair -/

/-- The first half of a repair: the variables at the dependent positions rest. -/
def dropDependent (e : Engine α) (pairs : List (Nat × Nat)) : Engine α :=
  (pairs.map fun u => e.basicAt u.1).foldl (fun e j => e.rest j (e.boundsOf j).restingStatus) e

/-- The second half: logical variables take their places. -/
def admitRows (t : Job α) (e : Engine α) (pairs : List (Nat × Nat)) : Engine α :=
  { e with
    basicIndex := pairs.foldl (fun a u => a.setIfInBounds u.1 (t.columnCount + u.2)) e.basicIndex
    status := pairs.foldl (fun a u => a.setIfInBounds (t.columnCount + u.2) .basic) e.status }

theorem dropDependent_eq (e : Engine α) (pairs : List (Nat × Nat)) : e.dropDependent pairs =
    pairs.foldl
      (fun e u => e.rest (e.basicAt u.1) (e.boundsOf (e.basicAt u.1)).restingStatus) e := by
  have hfold : ∀ e' : Engine α, e'.basicIndex = e.basicIndex →
      (pairs.map fun u => e.basicAt u.1).foldl
        (fun e j => e.rest j (e.boundsOf j).restingStatus) e' =
      pairs.foldl (fun e u => e.rest (e.basicAt u.1)
        (e.boundsOf (e.basicAt u.1)).restingStatus) e' := by
    induction pairs with
    | nil => exact fun e' _ => rfl
    | cons u pairs ih =>
      intro e' he'
      have hat : e'.basicAt u.1 = e.basicAt u.1 := by
        unfold basicAt
        rw [he']
      rw [List.map_cons, List.foldl_cons, List.foldl_cons, hat]
      exact ih _ he'
  exact hfold e rfl

omit [Scalar α] in
theorem admitRows_eq (e : Engine α) (pairs : List (Nat × Nat)) : e.admitRows t pairs =
    pairs.foldl (fun e u => { e with
      basicIndex := e.basicIndex.setIfInBounds u.1 (t.columnCount + u.2) }.setStatus
        (t.columnCount + u.2) .basic) e := by
  induction pairs generalizing e with
  | nil => rfl
  | cons u pairs ih =>
    rw [List.foldl_cons, ← ih]
    rfl

theorem admitLogicals_eq (e : Engine α) (pairs : List (Nat × Nat)) : e.admitLogicals t pairs =
    ({ e with factorValid := false }.dropDependent pairs).admitRows t pairs := by
  rw [admitRows_eq, dropDependent_eq]
  rfl

theorem statusOf_foldl_restingStatus (h : e.Shaped t) (l : List Nat) {k : Nat} (hk : k < t.size) :
    (l.foldl (fun e j => e.rest j (e.boundsOf j).restingStatus) e).statusOf k = .basic ↔
      e.statusOf k = .basic ∧ k ∉ l := by
  induction l generalizing e with
  | nil => exact ⟨fun hk => ⟨hk, List.not_mem_nil⟩, And.left⟩
  | cons j l ih =>
    rw [List.foldl_cons, ih (h.rest j _), statusOf_rest, h.size_status, List.mem_cons, not_or]
    by_cases hjk : j = k
    · rw [if_pos ⟨hjk, hk⟩]
      exact iff_of_false (fun hl => Interval.restingStatus_ne_basic _ hl.1)
        fun hl => hl.2.1 hjk.symm
    · rw [if_neg fun hc => hjk hc.1]
      exact ⟨fun hl => ⟨hl.1, fun hkj => hjk hkj.symm, hl.2⟩, fun hl => ⟨hl.1, hl.2.2⟩⟩

section Repair

variable {e' : Engine α} (h : e.Placed t) {pairs : List (Nat × Nat)}
  (hpairs : Factoring.Spares (e.basisMatrix t) pairs)

include h hpairs

theorem Placed.spare_lt {u : Nat × Nat} (hu : u ∈ pairs) : u.1 < t.rowCount ∧ u.2 < t.rowCount := by
  rw [← length_basisMatrix h]
  exact ⟨hpairs.position_lt u hu, hpairs.row_lt u hu⟩

/-- A logical variable that is to be admitted is not at a position that stays. -/
theorem Placed.logical_ne {u : Nat × Nat} (hu : u ∈ pairs) {p : Nat} (hp : p < t.rowCount)
    (hstays : p ∉ pairs.map Prod.fst) : e.basicAt p ≠ t.columnCount + u.2 := by
  intro heq
  refine hstays (hpairs.position_mem u hu p ?_ fun x hx => ?_)
  · rw [length_basisMatrix h]
    exact hp
  · have hcolumn : t.column (t.columnCount + u.2) = [(u.2, 1)] := by
      unfold Job.column
      rw [if_neg (by omega), Nat.add_sub_cancel_left]
    rw [getD_basisMatrix h hp, heq, hcolumn] at hx
    rw [List.mem_singleton.mp hx]

variable (hindex : e'.basicIndex = e.basicIndex)

include hindex

theorem Placed.basicAt_admitted {u : Nat × Nat} (hu : u ∈ pairs) :
    (e'.admitRows t pairs).basicAt u.1 = t.columnCount + u.2 := by
  refine getD_foldl_set_of_mem _ _ hpairs.positions_nodup hu ?_ _
  rw [hindex, h.size_basicIndex]
  exact (h.spare_lt hpairs hu).1

omit h hpairs [Scalar α] in
theorem basicAt_admitRows {p : Nat} (hp : p ∉ pairs.map Prod.fst) :
    (e'.admitRows t pairs).basicAt p = e.basicAt p := by
  have hkeys : ∀ u ∈ pairs, u.1 ≠ p := fun u hu he => hp (List.mem_map.mpr ⟨u, hu, he⟩)
  refine (getD_foldl_set_of_notMem _ _ hkeys _ _).trans ?_
  rw [hindex]
  rfl

theorem Placed.nodup_admitRows : (e'.admitRows t pairs).basicIndex.toList.Nodup := by
  have hsize : (e'.admitRows t pairs).basicIndex.size = t.rowCount := by
    refine (size_foldl_set ..).trans ?_
    rw [hindex, h.size_basicIndex]
  refine List.nodup_iff_injective_get.mpr fun p q heq => Fin.ext ?_
  have hp : p.1 < (e'.admitRows t pairs).basicIndex.size := p.2
  have hq : q.1 < (e'.admitRows t pairs).basicIndex.size := q.2
  have heq : (e'.admitRows t pairs).basicAt p = (e'.admitRows t pairs).basicAt q := by
    unfold basicAt
    rw [getD_eq_getElem hp, getD_eq_getElem hq]
    exact heq
  by_cases hpu : p.1 ∈ pairs.map Prod.fst
  · obtain ⟨u, hu, hup⟩ := List.mem_map.mp hpu
    rw [← hup, h.basicAt_admitted hpairs hindex hu] at heq
    by_cases hqv : q.1 ∈ pairs.map Prod.fst
    · obtain ⟨v, hv, hvq⟩ := List.mem_map.mp hqv
      rw [← hvq, h.basicAt_admitted hpairs hindex hv] at heq
      have huv : u = v := List.inj_on_of_nodup_map hpairs.rows_nodup hu hv (by omega)
      rw [← hup, ← hvq, huv]
    · rw [basicAt_admitRows hindex hqv] at heq
      exact absurd heq.symm (h.logical_ne hpairs hu (hsize ▸ hq) hqv)
  · rw [basicAt_admitRows hindex hpu] at heq
    by_cases hqv : q.1 ∈ pairs.map Prod.fst
    · obtain ⟨v, hv, hvq⟩ := List.mem_map.mp hqv
      rw [← hvq, h.basicAt_admitted hpairs hindex hv] at heq
      exact absurd heq (h.logical_ne hpairs hv (hsize ▸ hp) hpu)
    · rw [basicAt_admitRows hindex hqv] at heq
      exact h.basicAt_inj (hsize ▸ hp) (hsize ▸ hq) heq

omit hindex in
theorem Placed.statusOf_admitted (hsize : e'.status.size = t.size) {u : Nat × Nat}
    (hu : u ∈ pairs) : (e'.admitRows t pairs).statusOf (t.columnCount + u.2) = .basic := by
  refine getD_foldl_set_of_mem (fun u => t.columnCount + u.2) _ ?_ hu ?_ _
  · have hkeys := hpairs.rows_nodup.map (add_right_injective t.columnCount)
    rw [List.map_map] at hkeys
    exact hkeys
  · have hlt := (h.spare_lt hpairs hu).2
    rw [hsize, Job.size]
    omega

omit h hpairs hindex [Scalar α] in
theorem statusOf_admitRows {j : Nat} (hj : ∀ u ∈ pairs, t.columnCount + u.2 ≠ j) :
    (e'.admitRows t pairs).statusOf j = e'.statusOf j :=
  getD_foldl_set_of_notMem _ _ hj _ _

/-- After a repair the basic variables are those that stayed and the logical
variables that came in. -/
theorem Placed.admitRows (hsize : e'.status.size = t.size)
    (hstatus : ∀ j, j < t.size → (e'.statusOf j = .basic ↔
      e.statusOf j = .basic ∧ j ∉ pairs.map fun u => e.basicAt u.1)) :
    (e'.admitRows t pairs).Placed t := by
  have hcount : (e'.admitRows t pairs).basicIndex.size = t.rowCount := by
    refine (size_foldl_set ..).trans ?_
    rw [hindex, h.size_basicIndex]
  refine ⟨hcount, h.nodup_admitRows hpairs hindex, fun j hj => ?_, fun j hj => ?_⟩
  · obtain ⟨p, hp, rfl⟩ := (mem_basicIndex_iff hcount).mp hj
    by_cases hpu : p ∈ pairs.map Prod.fst
    · obtain ⟨u, hu, rfl⟩ := List.mem_map.mp hpu
      rw [h.basicAt_admitted hpairs hindex hu, Job.size]
      have hlt := (h.spare_lt hpairs hu).2
      omega
    · rw [basicAt_admitRows hindex hpu]
      exact h.basicAt_lt hp
  · rw [mem_basicIndex_iff hcount]
    by_cases hlogical : ∃ u ∈ pairs, t.columnCount + u.2 = j
    · obtain ⟨u, hu, rfl⟩ := hlogical
      refine iff_of_true ⟨u.1, (h.spare_lt hpairs hu).1, h.basicAt_admitted hpairs hindex hu⟩ ?_
      exact h.statusOf_admitted hpairs hsize hu
    · have hnone : ∀ u ∈ pairs, t.columnCount + u.2 ≠ j := fun u hu he => hlogical ⟨u, hu, he⟩
      rw [statusOf_admitRows hnone, hstatus j hj]
      constructor
      · intro hbasic
        obtain ⟨p, hp, he⟩ := hbasic
        by_cases hpu : p ∈ pairs.map Prod.fst
        · obtain ⟨u, hu, rfl⟩ := List.mem_map.mp hpu
          rw [h.basicAt_admitted hpairs hindex hu] at he
          exact absurd he (hnone u hu)
        · rw [basicAt_admitRows hindex hpu] at he
          rw [← he]
          refine ⟨h.statusOf_basicAt hp, fun hleft => hpu ?_⟩
          obtain ⟨u, hu, hat⟩ := List.mem_map.mp hleft
          rw [← h.basicAt_inj (h.spare_lt hpairs hu).1 hp hat]
          exact List.mem_map.mpr ⟨u, hu, rfl⟩
      · intro hbasic
        obtain ⟨hbasic, hstays⟩ := hbasic
        obtain ⟨p, hp, rfl⟩ := h.exists_position ((h.mem_iff j hj).mpr hbasic)
        refine ⟨p, hp, basicAt_admitRows hindex fun hpu => hstays ?_⟩
        obtain ⟨u, hu, rfl⟩ := List.mem_map.mp hpu
        exact List.mem_map.mpr ⟨u, hu, rfl⟩

end Repair

theorem Rests.admitRows (h : e.Rests t) (pairs : List (Nat × Nat)) :
    (e.admitRows t pairs).Rests t where
  size_status := (size_foldl_set ..).trans h.size_status
  size_value := h.size_value
  size_bounds := h.size_bounds
  proper := h.proper
  relaxed := h.relaxed
  rests := by
    intro j
    have hfold : ∀ a : Array VariableStatus,
        (pairs.foldl (fun a u => a.setIfInBounds (t.columnCount + u.2) .basic) a).getD j .basic =
          .basic ∨
        (pairs.foldl (fun a u => a.setIfInBounds (t.columnCount + u.2) .basic) a).getD j .basic =
          a.getD j .basic := by
      induction pairs with
      | nil => exact fun a => Or.inr rfl
      | cons u pairs ih =>
        intro a
        rcases ih (a.setIfInBounds (t.columnCount + u.2) .basic) with hbasic | hsame
        · exact Or.inl hbasic
        · rw [getD_setIfInBounds] at hsame
          split at hsame
          · exact Or.inl hsame
          · exact Or.inr hsame
    rcases hfold e.status with hbasic | hsame
    · have hbasic : (e.admitRows t pairs).statusOf j = .basic := hbasic
      refine ⟨?_, fun hne => absurd hbasic hne⟩
      rw [hbasic]
      rfl
    · have hsame : (e.admitRows t pairs).statusOf j = e.statusOf j := hsame
      refine ⟨?_, fun hne => ?_⟩
      · rw [hsame]
        exact (h.rests j).allows
      · rw [hsame] at hne ⊢
        exact (h.rests j).value hne

variable [OrderedScalar α]

theorem Sound.admitLogicals (h : e.Sound t) {pairs : List (Nat × Nat)}
    (hpairs : Factoring.Spares (e.basisMatrix t) pairs) : (e.admitLogicals t pairs).Sound t := by
  have h := h.withFactorValid false
  have hpairs : Factoring.Spares (basisMatrix t { e with factorValid := false }) pairs := hpairs
  rw [admitLogicals_eq]
  generalize ({ e with factorValid := false } : Engine α) = e at h hpairs ⊢
  have hrests : (e.dropDependent pairs).Rests t := rests_foldl_rest h.toShaped
    (fun _ _ _ _ => Interval.allows_restingStatus _) fun j _ => h.rests j
  have hsetting : (e.dropDependent pairs).setting = e.setting :=
    foldl_keeps setting (fun e j => setting_rest e j _) _ _
  have hplaced := h.toPlaced.admitRows hpairs (basicIndex_congr hsetting) hrests.size_status
    fun j hj => statusOf_foldl_restingStatus h.toShaped _ hj
  refine ⟨hrests.admitRows pairs, hplaced, ?_, ?_⟩
  · show (e.dropDependent pairs).weights.Bounded
    rw [weights_congr hsetting]
    exact h.weights
  · have hfactor := h.factor.congr (lu_congr hsetting) (spike_congr hsetting)
    exact hfactor

/-! ## Renewal -/

/-- The engine at the end of the attempts at factoring a basis. -/
def Factored.engine : Factored α → Engine α
  | .done e _ => e
  | .failed e => e

omit [OrderedScalar α] in
theorem spares_of_factorAnew [LawfulScalar α] (ht : t.WellFormed) (h : e.Placed t)
    (pairs : List (Nat × Nat))
    (hresult : (e.factor.factorAnew (e.basisMatrix t)).2 = .error (.singularBasis pairs)) :
    Factoring.Spares (e.basisMatrix t) pairs := by
  unfold FactoredBasis.factorAnew at hresult
  split at hresult
  · rename_i found hfactor
    rw [← FactorFailure.singularBasis.inj (Except.error.inj hresult)]
    exact LU.spares_of_factor (squareColumns_basisMatrix ht h) hfactor
  · dsimp only at hresult
    split at hresult
    · split at hresult
      · exact absurd hresult nofun
      · exact absurd hresult nofun
    · exact absurd hresult nofun

/-- The engine after one attempt. -/
def attempt (t : Job α) (e : Engine α) : Engine α :=
  { e with factor := (e.factor.factorAnew (e.basisMatrix t)).1 }

/-- What holds at the end of the attempts: `P` if the basis was not factored, `Q` if
it was. -/
def Factored.Ends (P Q : Engine α → Prop) : Factored α → Prop
  | .done e _ => Q e
  | .failed e => P e

omit [OrderedScalar α] in
theorem factorBasis_succ (attempts : Nat) (repaired : Bool) (e : Engine α) :
    factorBasis t (attempts + 1) repaired e =
      match (e.factor.factorAnew (e.basisMatrix t)).2 with
      | .ok summary =>
        if tolerableResidual < (e.attempt t).factor.residual (e.basisMatrix t) then
          match (e.attempt t).factor.raise? with
          | some raised => factorBasis t attempts repaired
              ({ (e.attempt t).note .residualTooLarge with factor := raised }.note
                .pivotThresholdEscalation)
          | none => .done (((e.attempt t).note .residualTooLarge).acceptFactor summary) repaired
        else .done ((e.attempt t).acceptFactor summary) repaired
      | .error (.singularBasis pairs) =>
        factorBasis t attempts true (((e.attempt t).note .singularBasis).admitLogicals t pairs)
      | .error (.pivotToleranceViolation _ _) =>
        factorBasis t attempts repaired ((e.attempt t).note .pivotThresholdEscalation) := rfl

/-- The attempts at factoring a basis up to their end, with whether the basis was repaired
before. -/
inductive Attempts (t : Job α) : Bool → Engine α → Factored α → Prop
  | giveUp {repaired : Bool} {e : Engine α} : Attempts t repaired e (.failed e)
  | accept {repaired : Bool} {e : Engine α} {summary : FactorSummary α}
      (hok : (e.factor.factorAnew (e.basisMatrix t)).2 = .ok summary)
      (hsmall : ¬tolerableResidual < (e.attempt t).factor.residual (e.basisMatrix t)) :
      Attempts t repaired e (.done ((e.attempt t).acceptFactor summary) repaired)
  /-- The threshold is as high as it may be. -/
  | tolerate {repaired : Bool} {e : Engine α} {summary : FactorSummary α}
      (hok : (e.factor.factorAnew (e.basisMatrix t)).2 = .ok summary)
      (hlarge : tolerableResidual < (e.attempt t).factor.residual (e.basisMatrix t))
      (hceiling : (e.attempt t).factor.raise? = none) :
      Attempts t repaired e
        (.done (((e.attempt t).note .residualTooLarge).acceptFactor summary) repaired)
  | raise {repaired : Bool} {e : Engine α} {summary : FactorSummary α} {raised : FactoredBasis α}
      {factored : Factored α} (hok : (e.factor.factorAnew (e.basisMatrix t)).2 = .ok summary)
      (hlarge : tolerableResidual < (e.attempt t).factor.residual (e.basisMatrix t))
      (hraised : (e.attempt t).factor.raise? = some raised)
      (rest : Attempts t repaired ({ (e.attempt t).note .residualTooLarge with
        factor := raised }.note .pivotThresholdEscalation) factored) :
      Attempts t repaired e factored
  | repair {repaired : Bool} {e : Engine α} {pairs : List (Nat × Nat)} {factored : Factored α}
      (hsingular : (e.factor.factorAnew (e.basisMatrix t)).2 = .error (.singularBasis pairs))
      (rest : Attempts t true (((e.attempt t).note .singularBasis).admitLogicals t pairs)
        factored) : Attempts t repaired e factored
  | escalate {repaired : Bool} {e : Engine α} {growth threshold : α} {factored : Factored α}
      (hviolation : (e.factor.factorAnew (e.basisMatrix t)).2 =
        .error (.pivotToleranceViolation growth threshold))
      (rest : Attempts t repaired ((e.attempt t).note .pivotThresholdEscalation) factored) :
      Attempts t repaired e factored

omit [OrderedScalar α] in
theorem attempts_factorBasis (attempts : Nat) (repaired : Bool) (e : Engine α) :
    Attempts t repaired e (factorBasis t attempts repaired e) := by
  induction attempts generalizing repaired e with
  | zero => exact .giveUp
  | succ attempts ih =>
    rw [factorBasis_succ]
    cases hresult : (e.factor.factorAnew (e.basisMatrix t)).2 with
    | ok summary =>
      dsimp only
      split
      · rename_i hlarge
        split
        · rename_i raised hraised
          exact .raise hresult hlarge hraised (ih repaired _)
        · rename_i hceiling
          exact .tolerate hresult hlarge hceiling
      · rename_i hsmall
        exact .accept hresult hsmall
    | error failure =>
      cases failure with
      | singularBasis pairs => exact .repair hresult (ih true _)
      | pivotToleranceViolation growth threshold => exact .escalate hresult (ih repaired _)

omit [OrderedScalar α] in
/-- What the attempts keep, if it does not depend on more than where the variables
stand.  `P` holds before each of them and `Q` after one that succeeds. -/
theorem ends_factorBasis {P Q : Engine α → Prop}
    (hP : ∀ e e' : Engine α, e'.standing = e.standing → P e → P e')
    (hQ : ∀ e e' : Engine α, e'.standing = e.standing → Q e → Q e')
    (hweaken : ∀ e, Q e → P e)
    (hok : ∀ e s, P e → (e.factor.factorAnew (e.basisMatrix t)).2 = .ok s → Q (e.attempt t))
    (hsingular : ∀ e pairs, P e →
      (e.factor.factorAnew (e.basisMatrix t)).2 = .error (.singularBasis pairs) →
      P (((e.attempt t).note .singularBasis).admitLogicals t pairs))
    (hviolation : ∀ e growth threshold, P e → (e.factor.factorAnew (e.basisMatrix t)).2 =
      .error (.pivotToleranceViolation growth threshold) → P (e.attempt t))
    (attempts : Nat) (repaired : Bool) (h : P e) :
    (factorBasis t attempts repaired e).Ends P Q := by
  have hattempts := attempts_factorBasis (t := t) attempts repaired e
  generalize Engine.factorBasis t attempts repaired e = factored at hattempts ⊢
  induction hattempts with
  | giveUp => exact h
  | accept hresult => exact hQ _ _ (standing_acceptFactor _ _) (hok _ _ h hresult)
  | tolerate hresult =>
    exact hQ _ _ ((standing_acceptFactor _ _).trans (standing_note _ _)) (hok _ _ h hresult)
  | @raise _ e _ raised _ hresult _ hraised _ ih =>
    have hnoted : ((e.attempt t).note .residualTooLarge).factor.raise? = some raised := hraised
    have hstanding := (standing_note _ .pivotThresholdEscalation).trans
      ((standing_raise hnoted).trans (standing_note _ _))
    exact ih (hweaken _ (hQ _ _ hstanding (hok _ _ h hresult)))
  | repair hresult _ ih => exact ih (hsingular _ _ h hresult)
  | escalate hresult _ ih => exact ih (hP _ _ (standing_note _ _) (hviolation _ _ _ h hresult))

omit [OrderedScalar α] in
theorem Sound.attempt [LawfulScalar α] (ht : t.WellFormed) (h : e.Sound t) :
    (e.attempt t).Sound t :=
  h.withFactor (h.factor.factorAnew (squareColumns_basisMatrix ht h.toPlaced)
    (length_basisMatrix h.toPlaced))

theorem Sound.factorBasis (ht : t.WellFormed) (attempts : Nat) (repaired : Bool) (h : e.Sound t) :
    (factorBasis t attempts repaired e).engine.Sound t := by
  have hends := ends_factorBasis (P := Sound t) (Q := Sound t)
    (fun _ _ hs he => he.of_standing hs) (fun _ _ hs he => he.of_standing hs) (fun _ he => he)
    (fun _ _ he _ => he.attempt ht)
    (fun e pairs he hresult => ((he.attempt ht).of_standing (standing_note _ _)).admitLogicals
      (spares_of_factorAnew ht he.toPlaced pairs hresult))
    (fun _ _ _ he _ => he.attempt ht) attempts repaired h
  generalize Engine.factorBasis t attempts repaired e = factored at hends ⊢
  cases factored with
  | done e repaired => exact hends
  | failed e => exact hends

/-- Computed weights are one at least, and nothing else that is looked at changes. -/
theorem exists_weighRows (e : Engine α) : ∃ (e' : Engine α) (weights : Array α),
    e'.standing = e.standing ∧ (∀ x ∈ weights, 1 ≤ x) ∧
    e.weighRows t = { e' with weights := e'.weights.withNorms weights } := by
  have hfold := List.foldlRecOn (List.range t.rowCount)
    (fun (s : Engine α × Array α) position =>
      ((s.1.inverseRow t position).1,
        s.2.push (larger (s.1.inverseRow t position).2.normSquared 1)))
    (b := (e, #[])) (motive := fun s => s.1.standing = e.standing ∧ ∀ x ∈ s.2, 1 ≤ x)
    ⟨rfl, fun x hx => absurd hx (Array.not_mem_empty x)⟩ fun s hs position _ => by
      refine ⟨(standing_inverseRow s.1 position).trans hs.1, fun x hx => ?_⟩
      rcases Array.mem_push.mp hx with hx | hx
      · exact hs.2 x hx
      · rw [hx]
        exact OrderedScalar.le_larger_right
          (OrderedScalar.isNaN_of_isFinite OrderedScalar.isFinite_one)
  exact ⟨_, _, hfold.1, hfold.2, rfl⟩

theorem Sound.weighRows (h : e.Sound t) : (e.weighRows t).Sound t := by
  obtain ⟨e', weights, hstanding, hweights, heq⟩ := exists_weighRows (t := t) e
  have hsound := h.of_standing hstanding
  rw [heq]
  exact hsound.withWeights (hsound.weights.withNorms hweights)

theorem Sound.renewWeights (h : e.Sound t) : (e.renewWeights t).Sound t := by
  unfold Engine.renewWeights
  split
  · exact h.weighRows
  · exact h.withWeights (EdgeWeights.bounded_reset _ _)

theorem Sound.renew (ht : t.WellFormed) (h : e.Sound t) : (e.renew t).engine.Sound t := by
  unfold Engine.renew
  have hfactored := h.factorBasis ht maxAttempts false
  generalize Engine.factorBasis t maxAttempts false e = factored at hfactored ⊢
  cases factored with
  | failed e => exact hfactored
  | done e repaired =>
    have hvalues := ((hfactored.withFactorValid true).solveValues).of_standing
      (standing_solveDuals (t := t) _)
    have hrecord := hvalues.of_standing (standing_recordResiduals (t := t) _)
    dsimp only
    split
    · exact hrecord.renewWeights
    · exact hrecord

/-! ## Reduced costs of the wrong sign -/

theorem Sound.flip (h : e.Sound t) {j : Nat} (hboxed : e.hasTwoBounds j = true) :
    (e.flip j).Sound t := by
  refine h.of_rests (h.toRests.rest ?_) rfl (statusOf_rest_eq_basic_iff ?_) rfl rfl
  · exact Interval.allows_opposite hboxed (h.rests j).allows
  · cases e.statusOf j <;> simp [VariableStatus.opposite]

omit [OrderedScalar α] in
theorem statusOf_flip (h : e.Shaped t) {j : Nat} (hj : j < t.size) (k : Nat) :
    (e.flip j).statusOf k = if j = k then (e.statusOf k).opposite else e.statusOf k := by
  unfold Engine.flip
  rw [statusOf_rest, h.size_status]
  by_cases hjk : j = k
  · subst hjk
    rw [if_pos ⟨rfl, hj⟩, if_pos rfl]
  · rw [if_neg fun hc => hjk hc.1, if_neg hjk]

omit [OrderedScalar α] in
theorem statusOf_foldl_flip {l : List Nat} (hl : l.Nodup) (hlt : ∀ j ∈ l, j < t.size)
    (h : e.Shaped t) (k : Nat) : (l.foldl Engine.flip e).statusOf k =
      if k ∈ l then (e.statusOf k).opposite else e.statusOf k :=
  (foldl_distinct (Engine.Shaped t) Engine.statusOf VariableStatus.opposite hl h
    fun _ he j hj _ => ⟨he.rest j _, statusOf_flip he (hlt j hj)⟩).2 k

omit [OrderedScalar α] in
theorem Sound.statusOf_ne_free (h : e.Sound t) {j : Nat} (hboxed : e.hasTwoBounds j = true) :
    e.statusOf j ≠ .free := by
  intro hfree
  have hallows := (h.rests j).allows
  rw [hfree, Interval.allows, (Interval.isFinite_of_isBoxed hboxed).1] at hallows
  exact absurd hallows Bool.false_ne_true

omit [OrderedScalar α] in
theorem hasTwoBounds_congr {e' : Engine α} (h : e'.setting = e.setting) (j : Nat) :
    e'.hasTwoBounds j = e.hasTwoBounds j := by
  unfold hasTwoBounds
  rw [boundsOf_congr h]

/-- Values are computed anew if any variable has moved. -/
theorem Sound.settle_cases (h : e.Sound t) : (e.settleReducedCosts t).standing = e.standing ∨
    ∃ e' : Engine α, e'.Sound t ∧ e'.setting = e.setting ∧
      e.settleReducedCosts t = e'.solveValues t := by
  unfold Engine.settleReducedCosts
  have hfold := List.foldlRecOn (e.dualInfeasible t)
    (fun (e : Engine α) j => if e.hasTwoBounds j then e.flip j else e.adjustCost j)
    (motive := fun e' : Engine α => e'.Sound t ∧ e'.setting = e.setting) ⟨h, rfl⟩
    fun e' he' j _ => by
      split
      · rename_i hboxed
        exact ⟨he'.1.flip hboxed, (setting_flip e' j).trans he'.2⟩
      · exact ⟨he'.1.of_standing (standing_adjustCost e' j), he'.2⟩
  dsimp only
  split
  · exact Or.inl rfl
  · split
    · exact Or.inr ⟨_, hfold.1.of_standing (standing_note _ _), hfold.2, rfl⟩
    · rename_i hnone
      refine Or.inl ((standing_note _ _).trans ?_)
      refine List.foldlRecOn (e.dualInfeasible t) _
        (motive := fun e' : Engine α => e'.standing = e.standing) rfl fun e' he' j hj => ?_
      have hboxed : ¬e'.hasTwoBounds j = true := fun hboxed =>
        hnone (List.any_eq_true.mpr ⟨j, hj, (hasTwoBounds_congr (setting_congr he') j).symm.trans
          hboxed⟩)
      rw [if_neg hboxed]
      exact (standing_adjustCost e' j).trans he'

theorem Sound.settleReducedCosts (h : e.Sound t) : (e.settleReducedCosts t).Sound t := by
  rcases h.settle_cases with hsame | hsolved
  · exact h.of_standing hsame
  · obtain ⟨e', he', -, heq⟩ := hsolved
    rw [heq]
    exact he'.solveValues

theorem Sound.renewAndSettle (ht : t.WellFormed) (h : e.Sound t) :
    (e.renewAndSettle t).engine.Sound t :=
  Progress.engine_andThen (h.renew ht) fun _ he => he.settleReducedCosts

end Engine
end DualSimplex
