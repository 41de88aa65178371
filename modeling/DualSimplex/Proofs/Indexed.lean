import DualSimplex.Proofs.Sparse

/-!
# Indexed vectors

An operation that adds to a position takes it for unlisted if it holds `0`.  So a position that
is listed with a zero is listed again when something is added there.  Every nonzero position is
listed all the same; that none is listed twice needs that no operation revives such a zero.
-/

namespace DualSimplex

open Scalar

namespace SparseVector

variable {α : Type} [Scalar α] {v w other : SparseVector α} {i : Nat} {x : α}

/-! ## Adding to one position -/

theorem Covered.add (h : v.Covered) (hi : (x == 0) = false → i < v.dim) : (v.add i x).Covered := by
  rw [add_eq_enter]
  split
  · exact h
  · rename_i hx
    exact h.enter (hi (Bool.eq_false_iff.mpr hx)) _

theorem nodup_add_iff (h : v.support.Nodup) : (v.add i x).support.Nodup ↔
    ¬((x == 0) = false ∧ i ∈ v.support ∧ (v.get i == 0) = true) := by
  rw [add_eq_enter]
  split
  · rename_i hx
    exact ⟨fun _ hc => Bool.noConfusion (hx.symm.trans hc.1), fun _ => h⟩
  · rename_i hx
    rw [nodup_enter_iff h]
    exact not_congr ⟨fun hi => ⟨Bool.eq_false_iff.mpr hx, hi⟩, And.right⟩

/-! ## Adding a multiple of a vector -/

variable {alpha : α}

section Definitions

variable (v : SparseVector α) (alpha : α) (other : SparseVector α) (i : Nat)

/-- Whether `saxpy` lists a position. -/
def enters : Bool :=
  v.get i == 0 && isSignificant (v.get i + alpha * other.get i)

/-- Whether `saxpy` cancels what a position holds. -/
def cancels : Bool :=
  !(v.get i == 0) && isTiny (v.get i + alpha * other.get i)

/-- What `saxpy` leaves at a position that the other vector lists. -/
def shifted : α :=
  let after := v.get i + alpha * other.get i
  if v.get i == 0 then if isSignificant after then after else v.get i
  else if isTiny after then 0 else after

end Definitions

/-- What a fold of `saxpyAt` over some positions has done to a vector. -/
structure Shifted (alpha : α) (other v : SparseVector α) (l : List Nat)
    (s : SparseVector α × Bool) : Prop where
  dim_eq : s.1.dim = v.dim
  get_eq : ∀ j, s.1.get j = if j ∈ l then v.shifted alpha other j else v.get j
  support_eq : s.1.support = v.support ++ l.filter (v.enters alpha other)
  cancelled_eq : s.2 = l.any (v.cancels alpha other)

theorem put_get (v : SparseVector α) (i : Nat) : v.put i (v.get i) = v := by
  have hvalues : v.values.setIfInBounds i (v.values.getD i 0) = v.values := by
    by_cases hi : i < v.values.size
    · rw [getD_eq_getElem hi, Array.setIfInBounds_def, dif_pos hi, Array.set_getElem_self]
    · exact Array.setIfInBounds_eq_of_size_le (not_lt.mp hi)
  exact congrArg (fun values => ({ v with values := values } : SparseVector α)) hvalues

theorem saxpyAt_eq (alpha : α) (other v : SparseVector α) (c : Bool) (i : Nat) :
    saxpyAt alpha other (v, c) i = ({ v.put i (v.shifted alpha other i) with
      support := v.support ++ if v.enters alpha other i then [i] else [] },
      c || v.cancels alpha other i) := by
  unfold saxpyAt shifted enters cancels
  dsimp only
  cases hzero : v.get i == 0 with
  | true =>
    cases hafter : isSignificant (v.get i + alpha * other.get i) with
    | true => simp
    | false =>
      have hput : { v.put i (v.get i) with support := v.support } = v := put_get v i
      simp [hput]
  | false =>
    cases hafter : isTiny (v.get i + alpha * other.get i) with
    | true => simp [put]
    | false => simp [put]

theorem Shifted.saxpyAt {l : List Nat} {s : SparseVector α × Bool}
    (h : Shifted alpha other v l s) (hi : i < v.dim) (hnew : i ∉ l) :
    Shifted alpha other v (l ++ [i]) (saxpyAt alpha other s i) := by
  obtain ⟨u, c⟩ := s
  have hbefore : u.get i = v.get i := (h.get_eq i).trans (if_neg hnew)
  have hshifted : u.shifted alpha other i = v.shifted alpha other i := by
    rw [shifted, shifted, hbefore]
  have henters : u.enters alpha other i = v.enters alpha other i := by
    rw [enters, enters, hbefore]
  have hcancels : u.cancels alpha other i = v.cancels alpha other i := by
    rw [cancels, cancels, hbefore]
  rw [saxpyAt_eq, hshifted, henters, hcancels]
  refine ⟨(dim_put ..).trans h.dim_eq, fun j => ?_, ?_, ?_⟩
  · refine (get_put u i j _).trans ?_
    rw [show u.dim = v.dim from h.dim_eq, show u.get j = _ from h.get_eq j]
    by_cases hj : i = j
    · subst hj
      rw [if_pos ⟨rfl, hi⟩, if_pos (by simp)]
    · rw [if_neg fun hc => hj hc.1]
      exact if_congr (by simp [Ne.symm hj]) rfl rfl
  · show u.support ++ _ = _
    rw [show u.support = _ from h.support_eq, List.append_assoc, List.filter_append,
      List.filter_singleton, Bool.cond_eq_ite]
  · show (c || _) = _
    rw [show c = _ from h.cancelled_eq, List.any_append, List.any_cons, List.any_nil,
      Bool.or_false]

theorem shifted_foldl {l : List Nat} (hnodup : l.Nodup) (hlt : ∀ i ∈ l, i < v.dim) :
    Shifted alpha other v l (l.foldl (SparseVector.saxpyAt alpha other) (v, false)) := by
  induction l using List.reverseRecOn with
  | nil => exact ⟨rfl, fun j => (if_neg List.not_mem_nil).symm, (List.append_nil _).symm, rfl⟩
  | append_singleton l i ih =>
    rw [List.foldl_append, List.foldl_cons, List.foldl_nil]
    have hl := List.nodup_append'.mp hnodup
    refine (ih hl.1 fun j hj => hlt j (List.mem_append_left _ hj)).saxpyAt (hlt i (by simp)) ?_
    exact fun hi => hl.2.2 hi List.mem_cons_self

/-- What `saxpy` makes of a vector by its steps. -/
theorem saxpy_eq (v : SparseVector α) (alpha : α) (other : SparseVector α) :
    ∃ s, other.support.foldl (SparseVector.saxpyAt alpha other) (v, false) = s ∧
      v.saxpy alpha other = { s.1 with
        support := if s.2 then s.1.support.filter fun i => !(s.1.get i == 0) else s.1.support
        ticks := s.1.ticks + Float.ofNat other.count } :=
  ⟨_, rfl, rfl⟩

/-- What is neither listed nor entered keeps its zero. -/
theorem shifted_of_zero (hzero : (v.get i == 0) = true) (h : v.enters alpha other i = false) :
    v.shifted alpha other i = v.get i := by
  rw [enters, hzero, Bool.true_and] at h
  rw [shifted, if_pos hzero, h, if_neg Bool.false_ne_true]

theorem Covered.saxpyAt (h : v.Covered) (hi : i < v.dim) (c : Bool) :
    (saxpyAt alpha other (v, c) i).1.Covered := by
  rw [saxpyAt_eq]
  have hmem : ∀ j, j ∈ (v.support ++ if v.enters alpha other i then [i] else []) ↔
      j ∈ v.support ∨ v.enters alpha other i = true ∧ j = i := by
    intro j
    rw [List.mem_append]
    split
    · rename_i henters
      rw [List.mem_singleton]
      exact or_congr_right ⟨fun hj => ⟨henters, hj⟩, And.right⟩
    · rename_i henters
      exact or_congr_right ⟨fun hj => absurd hj List.not_mem_nil, fun hj => absurd hj.1 henters⟩
  refine ⟨fun j hj => ?_, fun j hj => (hmem j).mpr ?_⟩
  · refine Nat.lt_of_lt_of_eq ?_ (dim_put v i _).symm
    rcases (hmem j).mp hj with hj | ⟨-, rfl⟩
    · exact h.lt j hj
    · exact hi
  · have hj : ((v.put i (v.shifted alpha other i)).get j == 0) = false := hj
    by_cases hij : i = j
    · subst hij
      rw [get_put, if_pos ⟨rfl, hi⟩] at hj
      by_cases hzero : (v.get i == 0) = true
      · refine Or.inr ⟨?_, rfl⟩
        by_contra henters
        rw [shifted_of_zero hzero (Bool.eq_false_iff.mpr henters), hzero] at hj
        exact Bool.noConfusion hj
      · exact Or.inl (h.mem_support i (Bool.eq_false_iff.mpr hzero))
    · rw [get_put_ne hij] at hj
      exact Or.inl (h.mem_support j hj)

theorem dim_saxpyAt (alpha : α) (other : SparseVector α) (s : SparseVector α × Bool) (i : Nat) :
    (saxpyAt alpha other s i).1.dim = s.1.dim := by
  rw [saxpyAt_eq]
  exact dim_put ..

theorem Covered.saxpy (h : v.Covered) (hlt : ∀ i ∈ other.support, i < v.dim) (alpha : α) :
    (v.saxpy alpha other).Covered ∧ (v.saxpy alpha other).dim = v.dim := by
  obtain ⟨s, hs, heq⟩ := saxpy_eq v alpha other
  have hfold : s.1.Covered ∧ s.1.dim = v.dim := by
    rw [← hs]
    refine List.foldlRecOn other.support _
      (motive := fun s : SparseVector α × Bool => s.1.Covered ∧ s.1.dim = v.dim) ⟨h, rfl⟩
      fun s hs i hi => ?_
    exact ⟨hs.1.saxpyAt (hs.2.symm ▸ hlt i hi) s.2, (dim_saxpyAt ..).trans hs.2⟩
  rw [heq]
  refine ⟨?_, hfold.2⟩
  by_cases hcancelled : s.2 = true
  · rw [if_pos hcancelled]
    refine ⟨fun i hi => hfold.1.lt i (List.mem_of_mem_filter hi), fun i hi => ?_⟩
    refine List.mem_filter.mpr ⟨hfold.1.mem_support i hi, ?_⟩
    exact Bool.not_eq_true' _ ▸ hi
  · rw [if_neg hcancelled]
    exact ⟨hfold.1.lt, hfold.1.mem_support⟩

/-- What `saxpy` leaves at a position that it lists differs from zero. -/
theorem shifted_beq_zero_of_enters [LawfulScalar α] (h : v.enters alpha other i = true) :
    (v.shifted alpha other i == 0) = false := by
  rw [enters, Bool.and_eq_true] at h
  rw [shifted, if_pos h.1, if_pos h.2]
  exact beq_zero_of_isSignificant h.2

/-- An entry that does not cancel differs from zero as before. -/
theorem shifted_beq_zero_of_cancels [LawfulScalar α] (hne : (v.get i == 0) = false)
    (h : v.cancels alpha other i = false) : (v.shifted alpha other i == 0) = false := by
  rw [cancels, hne, Bool.not_false, Bool.true_and] at h
  rw [shifted, hne, h]
  exact beq_zero_of_isTiny h

/-- Unless something has cancelled, everything on the list differs from zero as before. -/
theorem Shifted.beq_zero [LawfulScalar α] {l : List Nat} {s : SparseVector α × Bool}
    (h : Shifted alpha other v l s) (hv : ∀ i ∈ v.support, (v.get i == 0) = false)
    (hnone : s.2 = false) (hi : i ∈ s.1.support) : (s.1.get i == 0) = false := by
  rw [h.get_eq]
  rw [h.cancelled_eq] at hnone
  rw [h.support_eq] at hi
  rcases List.mem_append.mp hi with hold | hnew
  · split
    · rename_i hmem
      refine shifted_beq_zero_of_cancels (hv i hold) (Bool.eq_false_iff.mpr fun hc => ?_)
      exact Bool.noConfusion (hnone.symm.trans (List.any_eq_true.mpr ⟨i, hmem, hc⟩))
    · exact hv i hold
  · obtain ⟨hmem, henters⟩ := List.mem_filter.mp hnew
    rw [if_pos hmem]
    exact shifted_beq_zero_of_enters henters

theorem nodup_saxpy_iff [LawfulScalar α] (h : v.support.Nodup) (hother : other.support.Nodup)
    (hlt : ∀ i ∈ other.support, i < v.dim) : (v.saxpy alpha other).support.Nodup ↔
      ¬∃ i ∈ other.support, i ∈ v.support ∧ v.enters alpha other i = true := by
  obtain ⟨s, hs, heq⟩ := saxpy_eq v alpha other
  have hshifted : Shifted alpha other v other.support s := hs ▸ shifted_foldl hother hlt
  have hfilter := hother.filter (v.enters alpha other)
  constructor
  · -- The new entry is there beside the old one, even when zeros are taken off the list.
    rintro hnodup ⟨i, hi, hold, henters⟩
    have hnew : i ∈ other.support.filter (v.enters alpha other) :=
      List.mem_filter.mpr ⟨hi, henters⟩
    have hne : (!(s.1.get i == 0)) = true := by
      rw [hshifted.get_eq, if_pos hi, shifted_beq_zero_of_enters henters]
      rfl
    rw [heq] at hnodup
    dsimp only at hnodup
    rw [hshifted.support_eq] at hnodup
    split at hnodup
    · rw [List.filter_append] at hnodup
      exact (List.nodup_append'.mp hnodup).2.2 (List.mem_filter.mpr ⟨hold, hne⟩)
        (List.mem_filter.mpr ⟨hnew, hne⟩)
    · exact (List.nodup_append'.mp hnodup).2.2 hold hnew
  · intro hnone
    have hnodup : s.1.support.Nodup := by
      rw [hshifted.support_eq]
      refine List.nodup_append'.mpr ⟨h, hfilter, fun i hi hnew => hnone ?_⟩
      exact ⟨i, (List.mem_filter.mp hnew).1, hi, (List.mem_filter.mp hnew).2⟩
    rw [heq]
    dsimp only
    split
    · exact hnodup.filter _
    · exact hnodup

/-- No zero stays on the list. -/
theorem Listed.saxpy [LawfulScalar α] {m : Nat} (h : v.Listed m) (hother : other.support.Nodup)
    (hlt : ∀ i ∈ other.support, i < v.dim) (alpha : α) : (v.saxpy alpha other).Listed m := by
  have hne : ∀ i ∈ v.support, (v.get i == 0) = false := fun i => (h.mem_support i).mp
  have hnodup : (v.saxpy alpha other).support.Nodup := by
    refine (nodup_saxpy_iff h.nodup hother hlt).mpr ?_
    rintro ⟨i, -, hi, henters⟩
    rw [enters, hne i hi] at henters
    exact Bool.noConfusion henters
  obtain ⟨hcovered, hdim⟩ := h.indexed.saxpy hlt alpha
  obtain ⟨s, hs, heq⟩ := saxpy_eq v alpha other
  have hshifted : Shifted alpha other v other.support s := hs ▸ shifted_foldl hother hlt
  have hlisted := (Indexed.mk hcovered hnodup).listed fun i hi => ?_
  · rw [hdim, h.dim_eq] at hlisted
    exact hlisted
  rw [heq] at hi ⊢
  show (s.1.get i == 0) = false
  dsimp only at hi
  split at hi
  · exact Bool.not_eq_true' _ ▸ (List.mem_filter.mp hi).2
  · rename_i hcancelled
    exact hshifted.beq_zero hne (Bool.eq_false_iff.mpr hcancelled) hi

/-! ## Scaling -/

theorem scale_spec (v : SparseVector α) (factor : α) : (v.scale factor).support = v.support ∧
    (v.scale factor).dim = v.dim ∧ ∀ i, i ∉ v.support → (v.scale factor).get i = v.get i := by
  refine List.foldlRecOn v.support _ (motive := fun w : SparseVector α => w.support = v.support ∧
    w.dim = v.dim ∧ ∀ i, i ∉ v.support → w.get i = v.get i) ⟨rfl, rfl, fun _ _ => rfl⟩
    fun w hw j hj => ⟨hw.1, (dim_put ..).trans hw.2.1, fun i hi => ?_⟩
  rw [get_put_ne fun (hji : j = i) => hi (hji ▸ hj)]
  exact hw.2.2 i hi

theorem get_foldl_scale (factor : α) {l : List Nat} (hl : l.Nodup) (hi : i < v.dim) :
    (l.foldl (fun w j => w.put j (w.get j * factor)) v).get i =
      if i ∈ l then v.get i * factor else v.get i := by
  induction l generalizing v with
  | nil => exact (if_neg List.not_mem_nil).symm
  | cons j l ih =>
    obtain ⟨hj, hl⟩ := List.nodup_cons.mp hl
    rw [List.foldl_cons, ih hl ((dim_put ..).symm ▸ hi)]
    by_cases hij : j = i
    · subst hij
      rw [if_neg hj, get_put, if_pos ⟨rfl, hi⟩, if_pos List.mem_cons_self]
    · rw [get_put_ne hij]
      exact if_congr (by simp [Ne.symm hij]) rfl rfl

/-- A position that is listed once is scaled once. -/
theorem Indexed.get_scale (h : v.Indexed) (factor : α) (hi : i ∈ v.support) :
    (v.scale factor).get i = v.get i * factor :=
  (get_foldl_scale factor h.nodup (h.lt i hi)).trans (if_pos hi)

theorem Covered.scale (h : v.Covered) (factor : α) : (v.scale factor).Covered := by
  obtain ⟨hsupport, hdim, hget⟩ := v.scale_spec factor
  refine ⟨fun i hi => hdim.symm ▸ h.lt i (hsupport ▸ hi), fun i hi => hsupport.symm ▸ ?_⟩
  by_contra hout
  rw [hget i hout] at hi
  exact hout (h.mem_support i hi)

/-- A scaled vector is as well listed as before unless an entry is scaled to zero. -/
theorem Listed.scale [LawfulScalar α] {m : Nat} (h : v.Listed m) {factor : α}
    (hne : ∀ i ∈ v.support, (v.get i * factor == 0) = false) : (v.scale factor).Listed m := by
  obtain ⟨hsupport, hdim, -⟩ := v.scale_spec factor
  have hindexed : (v.scale factor).Indexed :=
    ⟨h.indexed.toCovered.scale factor, hsupport.symm ▸ h.nodup⟩
  have hlisted := hindexed.listed fun i hi => ?_
  · rw [hdim, h.dim_eq] at hlisted
    exact hlisted
  rw [hsupport] at hi
  rw [h.indexed.get_scale factor hi]
  exact hne i hi

/-! ## Clearing, copying and making the list anew -/

theorem Covered.dropTiny [LawfulScalar α] (h : v.Covered) : v.dropTiny.Covered := by
  refine ⟨fun i hi => ?_, fun i hi => ?_⟩
  · exact (h.lt i (List.mem_of_mem_filter hi)).trans_eq (size_foldl_zero ..).symm
  · rw [get_dropTiny] at hi
    split at hi
    · rw [zero_beq_zero] at hi
      exact Bool.noConfusion hi
    · rename_i hkept
      have hmem := h.mem_support i hi
      refine List.mem_filter.mpr ⟨hmem, Bool.not_eq_true' _ ▸ ?_⟩
      exact Bool.eq_false_iff.mpr fun htiny => hkept ⟨hmem, htiny⟩

theorem dim_assign (v w : SparseVector α) : (v.assign w).dim = v.dim :=
  (size_foldl_set id w.get _ _).trans (dim_clear v)

theorem Covered.assign [LawfulScalar α] (hv : v.Covered) (hw : w.Covered) (hdim : w.dim = v.dim) :
    (v.assign w).Covered := by
  refine ⟨fun i hi => ?_, fun i hi => ?_⟩
  · rw [dim_assign, ← hdim]
    exact hw.lt i hi
  · show i ∈ w.support
    by_contra hout
    rw [get_assign_of_notMem hout, hv.cleared_clear.beq_zero] at hi
    exact Bool.noConfusion hi

/-- A copy has the entries of the original. -/
theorem Indexed.get_assign [LawfulScalar α] (h : w.Indexed) (hv : v.Covered)
    (hdim : w.dim = v.dim) (i : Nat) :
    (v.assign w).get i = w.get i ∨ ((v.assign w).get i == 0) = true ∧ (w.get i == 0) = true := by
  by_cases hi : i ∈ w.support
  · exact Or.inl (get_assign_of_mem h.nodup hi (hdim ▸ h.lt i hi))
  · rw [get_assign_of_notMem hi]
    exact Or.inr ⟨hv.cleared_clear.beq_zero i, h.beq_zero hi⟩

/-! ## Readers -/

/-- The list of a vector leads to every entry once that is not zero. -/
theorem Indexed.perm_entries (h : v.Indexed) : (v.entries.filter fun u => !(u.2 == 0)).Perm
    (((List.range v.dim).map fun i => (i, v.get i)).filter fun u => !(u.2 == 0)) := by
  have hkeys : ∀ l : List Nat, (l.map fun i => (i, v.get i)).filter (fun u => !(u.2 == 0)) =
      (l.filter fun i => !(v.get i == 0)).map fun i => (i, v.get i) := fun l => List.filter_map
  rw [entries, hkeys, hkeys]
  refine List.Perm.map _ ((List.perm_ext_iff_of_nodup (h.nodup.filter _)
    (List.nodup_range.filter _)).mpr fun i => ?_)
  rw [List.mem_filter, List.mem_filter, List.mem_range, Bool.not_eq_true']
  exact ⟨fun hi => ⟨h.lt i hi.1, hi.2⟩, fun hi => ⟨h.mem_support i hi.2, hi.2⟩⟩

section Worth

variable {cutoff : ℚ} {v : SparseVector (Exact cutoff)}

theorem value_foldl_square (v : SparseVector (Exact cutoff)) (l : List Nat) (total : Exact cutoff) :
    (l.foldl (fun total i => total + v.get i * v.get i) total).value =
      total.value + (l.map fun i => v.valueAt i * v.valueAt i).sum := by
  induction l generalizing total with
  | nil => exact (add_zero _).symm
  | cons i l ih =>
    rw [List.foldl_cons, ih, List.map_cons, List.sum_cons, ← add_assoc]
    rfl

theorem Indexed.value_normSquared (h : v.Indexed) :
    v.normSquared.value = ∑ i ∈ Finset.range v.dim, v.valueAt i ^ 2 := by
  refine (value_foldl_square v v.support 0).trans ((zero_add _).trans ?_)
  refine (h.sum_support v.valueAt).trans (Finset.sum_congr rfl fun i _ => ?_)
  rw [sq]

end Worth

end SparseVector
end DualSimplex
