import DualSimplex.Factor.Triangle
import DualSimplex.Matrix
import DualSimplex.Proofs.Exact

/-!
# Listed vectors

Between operations a sparse vector lists every position that holds something
other than `0`, and lists it once.  The operations keep it so whatever the
numbers are, since what they store at a listed position is never `0`.
-/

namespace DualSimplex

open Scalar

namespace SparseVector

variable {α : Type}

section Writes

variable (v : SparseVector α) (i j : Nat) (x : α)

@[simp] theorem dim_put : (v.put i x).dim = v.dim :=
  Array.size_setIfInBounds ..

end Writes

variable [Scalar α]

/-- The support has every position once that is not zero. -/
structure Listed (v : SparseVector α) (m : Nat) : Prop where
  dim_eq : v.dim = m
  nodup : v.support.Nodup
  mem_support : ∀ i, i ∈ v.support ↔ (v.get i == 0) = false

/-- The support has every position that is not zero. -/
structure Covered (v : SparseVector α) : Prop where
  lt : ∀ i ∈ v.support, i < v.dim
  mem_support : ∀ i, (v.get i == 0) = false → i ∈ v.support

/-- The support has every position once that is not zero, and it may have zeros. -/
structure Indexed (v : SparseVector α) : Prop extends Covered v where
  nodup : v.support.Nodup

/-- All is zero, and nothing is listed. -/
structure Cleared (v : SparseVector α) : Prop where
  support_eq : v.support = []
  beq_zero : ∀ i, (v.get i == 0) = true

/-! ## Reading a vector after a write -/

theorem get_put (v : SparseVector α) (i j : Nat) (x : α) :
    (v.put i x).get j = if i = j ∧ j < v.dim then x else v.get j :=
  getD_setIfInBounds ..

theorem get_put_ne {i j : Nat} (h : i ≠ j) (v : SparseVector α) (x : α) :
    (v.put i x).get j = v.get j := by
  rw [get_put, if_neg fun h' => h h'.1]

theorem get_of_dim_le {v : SparseVector α} {i : Nat} (h : v.dim ≤ i) : v.get i = 0 :=
  getD_of_size_le h 0

/-- Put a value at a position and list the position if it was zero. -/
def enter (v : SparseVector α) (i : Nat) (x : α) : SparseVector α :=
  { v.put i x with support := if v.get i == 0 then v.support ++ [i] else v.support }

@[simp] theorem dim_enter (v : SparseVector α) (i : Nat) (x : α) : (v.enter i x).dim = v.dim :=
  Array.size_setIfInBounds ..

theorem get_enter (v : SparseVector α) (i j : Nat) (x : α) :
    (v.enter i x).get j = if i = j ∧ j < v.dim then x else v.get j :=
  get_put v i j x

theorem collect_eq_enter (v : SparseVector α) (i : Nat) (delta : α) :
    v.collect i delta =
      v.enter i (if v.get i + delta == 0 then vanished else v.get i + delta) := rfl

@[simp] theorem dim_collect (v : SparseVector α) (i : Nat) (delta : α) :
    (v.collect i delta).dim = v.dim :=
  dim_enter ..

theorem add_eq_enter (v : SparseVector α) (i : Nat) (x : α) :
    v.add i x = if x == 0 then v
      else v.enter i (if v.get i + x == 0 then cancelled else v.get i + x) := rfl

theorem put_eq_enter {v : SparseVector α} {i : Nat} (h : (v.get i == 0) = false) (x : α) :
    v.put i x = v.enter i x := by
  rw [enter, h]
  rfl

theorem setOnly_eq_enter {v : SparseVector α} {i : Nat} (h : (v.get i == 0) = true) (x : α) :
    v.setOnly i x = v.enter i x := by
  rw [enter, h]
  rfl

variable {v w : SparseVector α} {m : Nat}

theorem Listed.lt [LawfulScalar α] (h : v.Listed m) {i : Nat} (hi : i ∈ v.support) : i < m := by
  by_contra hge
  rw [h.mem_support, get_of_dim_le (by rw [h.dim_eq]; omega), zero_beq_zero] at hi
  exact absurd hi Bool.noConfusion

theorem Listed.beq_zero (h : v.Listed m) {i : Nat} (hi : i ∉ v.support) :
    (v.get i == 0) = true := by
  rw [h.mem_support, Bool.not_eq_false] at hi
  exact hi

theorem Covered.beq_zero (h : v.Covered) {i : Nat} (hi : i ∉ v.support) :
    (v.get i == 0) = true := by
  by_contra hne
  exact hi (h.mem_support i (Bool.eq_false_iff.mpr hne))

theorem Listed.indexed [LawfulScalar α] (h : v.Listed m) : v.Indexed :=
  ⟨⟨fun _ hi => h.dim_eq.symm ▸ h.lt hi, fun i => (h.mem_support i).mpr⟩, h.nodup⟩

theorem Indexed.listed (h : v.Indexed) (hsupport : ∀ i ∈ v.support, (v.get i == 0) = false) :
    v.Listed v.dim :=
  ⟨rfl, h.nodup, fun i => ⟨hsupport i, h.mem_support i⟩⟩

theorem Cleared.listed (h : v.Cleared) : v.Listed v.dim := by
  refine ⟨rfl, h.support_eq ▸ List.nodup_nil, fun i => ?_⟩
  rw [h.support_eq, h.beq_zero i]
  exact ⟨fun hi => absurd hi List.not_mem_nil, fun hi => absurd hi Bool.noConfusion⟩

theorem Listed.addTicks (h : v.Listed m) (ticks : Float) : (v.addTicks ticks).Listed m :=
  ⟨h.dim_eq, h.nodup, h.mem_support⟩

@[simp] theorem get_zero (m : Nat) (density : Float) (i : Nat) :
    (zero m density : SparseVector α).get i = 0 := by
  show (Array.replicate m (0 : α)).getD i 0 = 0
  rw [getD_replicate, ite_self]

theorem listed_zero [LawfulScalar α] (m : Nat) (density : Float) :
    (zero m density : SparseVector α).Listed m := by
  refine ⟨Array.size_replicate, List.nodup_nil, fun i => ?_⟩
  rw [get_zero, zero_beq_zero]
  exact ⟨fun h => absurd h List.not_mem_nil, fun h => absurd h Bool.noConfusion⟩

/-! ## Writing and listing -/

theorem mem_support_enter (v : SparseVector α) (i j : Nat) (x : α) :
    j ∈ (v.enter i x).support ↔ j ∈ v.support ∨ j = i ∧ (v.get i == 0) = true := by
  show j ∈ (if v.get i == 0 then v.support ++ [i] else v.support) ↔ _
  split
  · rename_i hzero
    rw [List.mem_append, List.mem_singleton]
    exact or_congr_right ⟨fun hj => ⟨hj, hzero⟩, And.left⟩
  · rename_i hne
    exact ⟨Or.inl, fun hj => hj.resolve_right fun hj => hne hj.2⟩

/-- A position that is listed with a zero is listed again. -/
theorem nodup_enter_iff {i : Nat} {x : α} (h : v.support.Nodup) :
    (v.enter i x).support.Nodup ↔ ¬(i ∈ v.support ∧ (v.get i == 0) = true) := by
  show (if v.get i == 0 then v.support ++ [i] else v.support).Nodup ↔ _
  split
  · rename_i hzero
    rw [nodup_append_singleton]
    exact ⟨fun hc hi => hc.2 hi.1, fun hc => ⟨h, fun hi => hc ⟨hi, hzero⟩⟩⟩
  · rename_i hne
    exact ⟨fun _ hi => hne hi.2, fun _ => h⟩

theorem Covered.enter (h : v.Covered) {i : Nat} (hi : i < v.dim) (x : α) :
    (v.enter i x).Covered := by
  refine ⟨fun j hj => ?_, fun j hj => ?_⟩
  · rw [dim_enter]
    rcases (mem_support_enter v i j x).mp hj with hj | ⟨rfl, -⟩
    · exact h.lt j hj
    · exact hi
  · rw [mem_support_enter]
    by_cases hji : j = i
    · subst hji
      by_cases hzero : (v.get j == 0) = true
      · exact Or.inr ⟨rfl, hzero⟩
      · exact Or.inl (h.mem_support j (Bool.eq_false_iff.mpr hzero))
    · rw [get_enter, if_neg fun hc => hji hc.1.symm] at hj
      exact Or.inl (h.mem_support j hj)

/-- Values other than `0` may be put anywhere. -/
theorem Listed.enter (h : v.Listed m) {i : Nat} (hi : i < m) {x : α} (hx : (x == 0) = false) :
    (v.enter i x).Listed m := by
  refine ⟨(dim_enter v i x).trans h.dim_eq, ?_, fun j => ?_⟩
  · refine (nodup_enter_iff h.nodup).mpr fun hc => ?_
    exact Bool.noConfusion (hc.2.symm.trans ((h.mem_support i).mp hc.1))
  · rw [mem_support_enter, get_enter, h.mem_support]
    by_cases hj : i = j
    · subst hj
      rw [if_pos ⟨rfl, h.dim_eq.symm ▸ hi⟩]
      refine ⟨fun _ => hx, fun _ => ?_⟩
      cases hzero : v.get i == 0 with
      | false => exact Or.inl rfl
      | true => exact Or.inr ⟨rfl, rfl⟩
    · rw [if_neg fun hc => hj hc.1]
      exact ⟨fun hc => hc.resolve_right fun hc => hj hc.1.symm, Or.inl⟩

theorem Listed.put [LawfulScalar α] (h : v.Listed m) {i : Nat} (hi : i ∈ v.support) {x : α}
    (hx : (x == 0) = false) : (v.put i x).Listed m := by
  rw [put_eq_enter ((h.mem_support i).mp hi)]
  exact h.enter (h.lt hi) hx

theorem Listed.collect [LawfulScalar α] (h : v.Listed m) {i : Nat} (hi : i < m) (delta : α) :
    (v.collect i delta).Listed m := by
  rw [collect_eq_enter]
  refine h.enter hi ?_
  split
  · exact vanished_beq_zero
  · rename_i hne
    exact Bool.eq_false_iff.mpr hne

theorem Listed.add [LawfulScalar α] (h : v.Listed m) {i : Nat} (hi : i < m) (x : α) :
    (v.add i x).Listed m := by
  rw [add_eq_enter]
  split
  · exact h
  · refine h.enter hi ?_
    split
    · exact cancelled_beq_zero
    · rename_i hne
      exact Bool.eq_false_iff.mpr hne

theorem Listed.addAll [LawfulScalar α] (h : v.Listed m) {terms : List (Nat × α)}
    (hlt : ∀ t ∈ terms, t.1 < m) : (v.addAll terms).Listed m := by
  induction terms generalizing v with
  | nil => exact h
  | cons t terms ih =>
    exact ih (h.add (hlt t List.mem_cons_self) t.2) fun s hs => hlt s (List.mem_cons_of_mem t hs)

theorem Listed.setOnly (h : v.Listed m) {i : Nat} (hi : i < m) (hzero : (v.get i == 0) = true)
    {x : α} (hx : (x == 0) = false) : (v.setOnly i x).Listed m := by
  rw [setOnly_eq_enter hzero]
  exact h.enter hi hx

/-- A vector with one entry. -/
def single (m i : Nat) (x : α) : SparseVector α :=
  (zero m defaultDensity).setOnly i x

theorem listed_single [LawfulScalar α] {i : Nat} (hi : i < m) {x : α} (hx : (x == 0) = false) :
    (single m i x).Listed m :=
  (listed_zero m _).setOnly hi (by rw [get_zero]; exact zero_beq_zero) hx

/-! ## Clearing, copying and making the list anew -/

/-- Reading a vector after some positions have been zeroed. -/
theorem getD_foldl_zero (l : List Nat) (values : Array α) (i : Nat) :
    (l.foldl (fun a i => a.setIfInBounds i 0) values).getD i 0 =
      if i ∈ l then 0 else values.getD i 0 := by
  induction l generalizing values with
  | nil => rw [if_neg List.not_mem_nil]; rfl
  | cons j l ih =>
    rw [List.foldl_cons, ih, getD_setIfInBounds]
    by_cases hl : i ∈ l
    · rw [if_pos hl, if_pos (List.mem_cons_of_mem j hl)]
    · rw [if_neg hl]
      by_cases hj : i = j
      · subst hj
        rw [if_pos List.mem_cons_self]
        split
        · rfl
        · rename_i hout
          exact getD_of_size_le (by omega) 0
      · rw [if_neg (fun h => hj h.1.symm), if_neg fun h => (List.mem_cons.mp h).elim hj hl]

theorem size_foldl_zero (l : List Nat) (values : Array α) :
    (l.foldl (fun a i => a.setIfInBounds i 0) values).size = values.size :=
  size_foldl_set id (fun _ => 0) l values

@[simp] theorem dim_clear (v : SparseVector α) : v.clear.dim = v.dim := by
  show (if _ then _ else _ : Array α).size = v.values.size
  split
  · exact size_foldl_zero _ _
  · exact Array.size_map

theorem Covered.cleared_clear [LawfulScalar α] (h : v.Covered) : v.clear.Cleared := by
  refine ⟨rfl, fun i => ?_⟩
  show ((if _ then _ else _ : Array α).getD i 0 == 0) = true
  split
  · rw [getD_foldl_zero]
    split
    · exact zero_beq_zero
    · rename_i hi
      exact h.beq_zero hi
  · by_cases hi : i < v.values.size
    · rw [getD_eq_getElem (by rw [Array.size_map]; exact hi), Array.getElem_map]
      exact zero_beq_zero
    · rw [getD_of_size_le (by rw [Array.size_map]; omega)]
      exact zero_beq_zero

theorem Listed.get_clear [LawfulScalar α] (h : v.Listed m) (i : Nat) :
    (v.clear.get i == 0) = true :=
  h.indexed.cleared_clear.beq_zero i

theorem Listed.clear [LawfulScalar α] (h : v.Listed m) : v.clear.Listed m := by
  have hlisted := h.indexed.cleared_clear.listed
  rw [dim_clear, h.dim_eq] at hlisted
  exact hlisted

theorem get_assign_of_mem {i : Nat} (hnodup : w.support.Nodup) (hi : i ∈ w.support)
    (hlt : i < v.dim) : (v.assign w).get i = w.get i := by
  rw [← dim_clear v] at hlt
  exact getD_foldl_set_of_mem id w.get (by rw [List.map_id]; exact hnodup) hi hlt 0

theorem get_assign_of_notMem {i : Nat} (hi : i ∉ w.support) :
    (v.assign w).get i = v.clear.get i :=
  getD_foldl_set_of_notMem id w.get (fun j hj e => hi ((show j = i from e) ▸ hj)) _ 0

theorem Listed.assign [LawfulScalar α] (hv : v.Listed m) (hw : w.Listed m) :
    (v.assign w).Listed m := by
  refine ⟨?_, hw.nodup, fun i => ?_⟩
  · show (w.support.foldl _ v.clear.values).size = m
    exact (size_foldl_set id w.get _ _).trans ((dim_clear v).trans hv.dim_eq)
  · show i ∈ w.support ↔ _
    by_cases hi : i ∈ w.support
    · rw [get_assign_of_mem hw.nodup hi (hv.dim_eq ▸ hw.lt hi), ← hw.mem_support]
    · rw [get_assign_of_notMem hi, hv.get_clear]
      exact ⟨fun h => absurd h hi, fun h => absurd h Bool.noConfusion⟩

/-- A value on the list stays under its position. -/
theorem get_dropTiny (v : SparseVector α) (i : Nat) :
    v.dropTiny.get i = if i ∈ v.support ∧ isTiny (v.get i) = true then 0 else v.get i := by
  show ((v.support.filter fun i => isTiny (v.get i)).foldl _ v.values).getD i 0 = _
  rw [getD_foldl_zero]
  simp only [List.mem_filter]
  rfl

theorem Listed.dropTiny [LawfulScalar α] (h : v.Listed m) : v.dropTiny.Listed m := by
  refine ⟨(size_foldl_zero _ _).trans h.dim_eq, h.nodup.filter _, fun i => ?_⟩
  show i ∈ v.support.filter _ ↔ _
  rw [List.mem_filter, get_dropTiny, Bool.not_eq_true']
  by_cases hi : i ∈ v.support ∧ isTiny (v.get i) = true
  · rw [if_pos hi, hi.2, zero_beq_zero]
    exact ⟨fun h' => absurd h'.2 Bool.noConfusion, fun h' => absurd h' Bool.noConfusion⟩
  · rw [if_neg hi, ← h.mem_support]
    exact ⟨And.left, fun h' => ⟨h', Bool.eq_false_iff.mpr fun ht => hi ⟨h', ht⟩⟩⟩

theorem get_reindex (v : SparseVector α) (i : Nat) :
    v.reindex.get i = if isTiny (v.get i) then 0 else v.get i := by
  show (v.values.map _).getD i 0 = if isTiny (v.values.getD i 0) then 0 else v.values.getD i 0
  by_cases hi : i < v.values.size
  · rw [getD_eq_getElem (by rw [Array.size_map]; exact hi), Array.getElem_map, getD_eq_getElem hi]
  · rw [getD_of_size_le (by rw [Array.size_map]; omega), getD_of_size_le (by omega), ite_self]

/-- The list that is made anew is right whatever it was before. -/
theorem listed_reindex [LawfulScalar α] (hdim : v.dim = m) : v.reindex.Listed m := by
  refine ⟨Array.size_map.trans hdim, List.nodup_range.filter _, fun i => ?_⟩
  show i ∈ (List.range v.dim).filter _ ↔ _
  rw [List.mem_filter, List.mem_range, Bool.not_eq_true', get_reindex]
  by_cases ht : isTiny (v.get i) = true
  · rw [if_pos ht, ht, zero_beq_zero]
    exact ⟨fun h => absurd h.2 Bool.noConfusion, fun h => absurd h Bool.noConfusion⟩
  · rw [if_neg ht]
    have hne : (v.get i == 0) = false :=
      Bool.eq_false_iff.mpr fun h => ht (isTiny_of_beq_zero h)
    refine ⟨fun _ => hne, fun _ => ⟨?_, Bool.eq_false_iff.mpr ht⟩⟩
    by_contra hge
    rw [get_of_dim_le (by omega), zero_beq_zero] at hne
    exact absurd hne Bool.noConfusion

/-! ## What vectors are worth -/

section Values

variable {cutoff : Rat}

/-- The value at a position of an exact vector. -/
def valueAt (v : SparseVector (Exact cutoff)) (i : Nat) : ℚ :=
  (v.get i).value

theorem valueAt_put (v : SparseVector (Exact cutoff)) (i j : Nat) (x : Exact cutoff) :
    (v.put i x).valueAt j = if i = j ∧ j < v.dim then x.value else v.valueAt j := by
  rw [valueAt, get_put]
  split <;> rfl

theorem valueAt_enter (v : SparseVector (Exact cutoff)) (i j : Nat) (x : Exact cutoff) :
    (v.enter i x).valueAt j = if i = j ∧ j < v.dim then x.value else v.valueAt j :=
  valueAt_put v i j x

/-- A mark in the place of a zero is worth as much. -/
theorem value_ite_beq (x mark : Exact cutoff) (hmark : mark.value = 0) :
    (if x == 0 then mark else x).value = x.value := by
  split
  · rename_i hx
    rw [hmark, Exact.value_eq_zero_of_beq hx]
  · rfl

theorem valueAt_collect (v : SparseVector (Exact cutoff)) (i j : Nat) (delta : Exact cutoff) :
    (v.collect i delta).valueAt j =
      if i = j ∧ j < v.dim then v.valueAt j + delta.value else v.valueAt j := by
  rw [collect_eq_enter, valueAt_enter, value_ite_beq _ _ rfl]
  by_cases h : i = j ∧ j < v.dim
  · rw [if_pos h, if_pos h, h.1]
    rfl
  · rw [if_neg h, if_neg h]

theorem valueAt_add (v : SparseVector (Exact cutoff)) (i j : Nat) (x : Exact cutoff) :
    (v.add i x).valueAt j =
      if i = j ∧ j < v.dim then v.valueAt j + x.value else v.valueAt j := by
  rw [add_eq_enter]
  by_cases hx : (x == 0) = true
  · rw [if_pos hx, Exact.value_eq_zero_of_beq hx, add_zero, ite_self]
  · rw [if_neg hx, valueAt_enter, value_ite_beq _ _ rfl]
    by_cases h : i = j ∧ j < v.dim
    · rw [if_pos h, if_pos h, h.1]
      rfl
    · rw [if_neg h, if_neg h]

@[simp] theorem dim_add (v : SparseVector (Exact cutoff)) (i : Nat) (x : Exact cutoff) :
    (v.add i x).dim = v.dim := by
  rw [add_eq_enter]
  split
  · rfl
  · exact dim_enter ..

theorem valueAt_addAll (v : SparseVector (Exact cutoff)) (terms : List (Nat × Exact cutoff))
    {j : Nat} (hj : j < v.dim) :
    (v.addAll terms).valueAt j = v.valueAt j + Exact.coefficient terms j := by
  induction terms generalizing v with
  | nil => rw [Exact.coefficient_nil, add_zero]; rfl
  | cons t terms ih =>
    show ((v.add t.1 t.2).addAll terms).valueAt j = _
    rw [ih _ (by rw [dim_add]; exact hj), valueAt_add, Exact.coefficient_cons]
    by_cases h : t.1 = j
    · rw [if_pos ⟨h, hj⟩, if_pos h, add_assoc]
    · rw [if_neg fun h' => h h'.1, if_neg h, zero_add]

theorem Listed.valueAt_eq_zero {v : SparseVector (Exact cutoff)} {m : Nat} (h : v.Listed m)
    {i : Nat} (hi : i ∉ v.support) : v.valueAt i = 0 :=
  Exact.value_eq_zero_of_beq (h.beq_zero hi)

theorem distinctKeys_entries {α : Type} [Scalar α] {v : SparseVector α} (h : v.support.Nodup) :
    DistinctKeys v.entries := by
  rw [DistinctKeys, entries, List.map_map]
  exact h.map fun _ _ he => he

theorem Covered.valueAt_eq_zero {v : SparseVector (Exact cutoff)} (h : v.Covered) {i : Nat}
    (hi : i ∉ v.support) : v.valueAt i = 0 :=
  Exact.value_eq_zero_of_beq (h.beq_zero hi)

/-- The entries of a vector are its values. -/
theorem Indexed.coefficient_entries {v : SparseVector (Exact cutoff)} (h : v.Indexed) (i : Nat) :
    Exact.coefficient v.entries i = v.valueAt i := by
  by_cases hi : i ∈ v.support
  · exact Exact.coefficient_of_mem (distinctKeys_entries h.nodup) (List.mem_map.mpr ⟨i, hi, rfl⟩)
  · rw [h.valueAt_eq_zero hi]
    refine Exact.coefficient_of_notMem fun t ht he => hi ?_
    obtain ⟨k, hk, rfl⟩ := List.mem_map.mp ht
    have he : k = i := he
    exact he ▸ hk

/-- A sum over the list is a sum over all positions. -/
theorem Indexed.sum_support {v : SparseVector (Exact cutoff)} (h : v.Indexed) (f : Nat → ℚ) :
    (v.support.map fun i => v.valueAt i * f i).sum =
      ∑ i ∈ Finset.range v.dim, f i * v.valueAt i := by
  have hlt : ∀ u ∈ v.entries, u.1 < v.dim := by
    intro u hu
    obtain ⟨i, hi, rfl⟩ := List.mem_map.mp hu
    exact h.lt i hi
  have hsum := Exact.sum_coefficient_mul hlt f
  rw [entries, List.map_map] at hsum
  refine hsum.symm.trans (Finset.sum_congr rfl fun i _ => ?_)
  rw [← entries, h.coefficient_entries, mul_comm]

theorem Listed.coefficient_entries {v : SparseVector (Exact cutoff)} {m : Nat} (h : v.Listed m)
    (i : Nat) : Exact.coefficient v.entries i = v.valueAt i :=
  h.indexed.coefficient_entries i

theorem valueAt_of_dim_le {v : SparseVector (Exact cutoff)} {i : Nat} (h : v.dim ≤ i) :
    v.valueAt i = 0 := by
  rw [valueAt, get_of_dim_le h]
  rfl

@[simp] theorem valueAt_zero (m : Nat) (density : Float) (i : Nat) :
    (zero m density : SparseVector (Exact cutoff)).valueAt i = 0 :=
  (listed_zero m density).valueAt_eq_zero List.not_mem_nil

theorem valueAt_single {m i : Nat} (hi : i < m) (x : Exact cutoff) (j : Nat) :
    (single m i x).valueAt j = if i = j then x.value else 0 := by
  show ((zero m defaultDensity).put i x).valueAt j = _
  rw [valueAt_put, valueAt_zero]
  by_cases hj : i = j
  · rw [if_pos ⟨hj, by rw [← hj]; exact Nat.lt_of_lt_of_eq hi (listed_zero m _).dim_eq.symm⟩,
      if_pos hj]
  · rw [if_neg fun e => hj e.1, if_neg hj]

theorem Listed.valueAt_clear {v : SparseVector (Exact cutoff)} {m : Nat} (h : v.Listed m)
    (i : Nat) : v.clear.valueAt i = 0 :=
  Exact.value_eq_zero_of_beq (h.get_clear i)

theorem Listed.valueAt_assign {v w : SparseVector (Exact cutoff)} {m : Nat} (hv : v.Listed m)
    (hw : w.Listed m) (i : Nat) : (v.assign w).valueAt i = w.valueAt i := by
  by_cases hi : i ∈ w.support
  · rw [valueAt, get_assign_of_mem hw.nodup hi (hv.dim_eq ▸ hw.lt hi)]
    rfl
  · rw [valueAt, get_assign_of_notMem hi, hw.valueAt_eq_zero hi]
    exact hv.valueAt_clear i

theorem valueAt_dropTiny (v : SparseVector (Exact 0)) (i : Nat) :
    v.dropTiny.valueAt i = v.valueAt i := by
  rw [valueAt, get_dropTiny]
  split
  · rename_i h
    exact (Exact.isTiny_zero_cutoff_iff.mp h.2).symm
  · rfl

theorem valueAt_reindex (v : SparseVector (Exact 0)) (i : Nat) :
    v.reindex.valueAt i = v.valueAt i := by
  rw [valueAt, get_reindex]
  split
  · rename_i h
    exact (Exact.isTiny_zero_cutoff_iff.mp h).symm
  · rfl

end Values

end SparseVector
end DualSimplex
