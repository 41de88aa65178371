import Mathlib.Algebra.BigOperators.Intervals
import Mathlib.Algebra.BigOperators.Ring.Finset
import Mathlib.Algebra.Order.Ring.Rat
import Mathlib.Tactic.Ring
import DualSimplex.Proofs.Lines
import DualSimplex.Proofs.Scalar

/-!
# Values of exact scalars

An exact scalar is worth its value, and a mark is worth zero.  The order, the
sums and the lines of entries that the solver works with are described here by
what they are worth.
-/

namespace DualSimplex

open Scalar

namespace Exact

variable {cutoff : Rat}

theorem abs_eq (x : ℚ) : x.abs = |x| := by
  rcases le_total 0 x with h | h
  · rw [Rat.abs_of_nonneg h, abs_of_nonneg h]
  · rw [Rat.abs_of_nonpos h, abs_of_nonpos h]

theorem value_sum (xs : List (Exact cutoff)) : (Scalar.sum xs).value = (xs.map value).sum := by
  have hfold : ∀ (xs : List (Exact cutoff)) (x : Exact cutoff),
      (xs.foldl (· + ·) x).value = x.value + (xs.map value).sum := by
    intro xs
    induction xs with
    | nil => intro x; simp
    | cons y xs ih =>
      intro x
      rw [List.foldl_cons, ih, value_add, List.map_cons, List.sum_cons, add_assoc]
  rw [Scalar.sum, hfold, value_neg, value_zero, neg_zero, zero_add]

theorem value_larger (x y : Exact cutoff) : (larger x y).value = max x.value y.value := by
  show (if y ≤ x then x else if false = true then x else y).value = _
  by_cases h : y ≤ x
  · rw [if_pos h, max_eq_left (le_iff.mp h)]
  · rw [if_neg h, if_neg Bool.false_ne_true,
      max_eq_right (le_of_not_ge fun h' => h (le_iff.mpr h'))]

theorem value_eq_zero_of_beq {x : Exact cutoff} (h : (x == 0) = true) : x.value = 0 :=
  congrArg value (beq_iff.mp h)

theorem beq_zero_eq_false {x : Exact cutoff} (h : x.value ≠ 0) : (x == 0) = false :=
  beq_eq_false.mpr fun h' => h (congrArg value h')

theorem isTiny_eq_false {x : Exact 0} : isTiny x = false ↔ x.value ≠ 0 := by
  rw [← Bool.not_eq_true, isTiny_zero_cutoff_iff]

theorem isSignificant_eq_false {x : Exact 0} : isSignificant x = false ↔ x.value = 0 := by
  rw [isSignificant, Bool.not_eq_false', Bool.or_eq_true, isTiny_zero_cutoff_iff]
  exact ⟨fun h => h.elim id fun h => absurd h Bool.false_ne_true, Or.inl⟩

/-! ## Largest magnitudes -/

theorem value_foldl_larger (xs : List (Exact cutoff)) (m : Exact cutoff) :
    (xs.foldl (fun m x => larger m (magnitude x)) m).value =
      (xs.map fun x => |x.value|).foldl max m.value := by
  induction xs generalizing m with
  | nil => rfl
  | cons x xs ih =>
    rw [List.foldl_cons, ih, List.map_cons, List.foldl_cons, value_larger, value_magnitude, abs_eq]

/-- The largest magnitude in a list, zero for the empty list. -/
def peak (xs : List (Exact cutoff)) : ℚ :=
  (xs.map fun x => |x.value|).foldl max 0

theorem value_maxAbs (xs : List (Exact cutoff)) : (maxAbs xs).value = peak xs :=
  value_foldl_larger xs 0

/-- The peak of a list is reached, or it is zero, and it is not exceeded. -/
theorem peak_spec (xs : List (Exact cutoff)) :
    peak xs ∈ 0 :: xs.map (fun x => |x.value|) ∧
      ∀ y ∈ 0 :: xs.map (fun x => |x.value|), y ≤ peak xs :=
  List.max?_eq_some_iff.mp List.max?_cons'

theorem peak_nonneg (xs : List (Exact cutoff)) : 0 ≤ peak xs :=
  (peak_spec xs).2 0 List.mem_cons_self

theorem abs_le_peak {xs : List (Exact cutoff)} {x : Exact cutoff} (hx : x ∈ xs) :
    |x.value| ≤ peak xs :=
  (peak_spec xs).2 _ (List.mem_cons_of_mem 0 (List.mem_map_of_mem hx))

theorem exists_abs_eq_peak {xs : List (Exact cutoff)} (h : xs ≠ []) :
    ∃ x ∈ xs, |x.value| = peak xs := by
  rcases List.mem_cons.mp (peak_spec xs).1 with hzero | hmem
  · obtain ⟨x, hx⟩ := List.exists_mem_of_ne_nil xs h
    exact ⟨x, hx, le_antisymm (abs_le_peak hx) (hzero ▸ abs_nonneg x.value)⟩
  · exact List.mem_map.mp hmem

/-! ## Lines of entries -/

/-- What the entries with a key add up to. -/
def coefficient (line : List (Nat × Exact cutoff)) (key : Nat) : ℚ :=
  (line.map fun t => if t.1 = key then t.2.value else 0).sum

@[simp] theorem coefficient_nil (key : Nat) :
    coefficient ([] : List (Nat × Exact cutoff)) key = 0 := rfl

theorem coefficient_cons (t : Nat × Exact cutoff) (line : List (Nat × Exact cutoff)) (key : Nat) :
    coefficient (t :: line) key = (if t.1 = key then t.2.value else 0) + coefficient line key :=
  List.sum_cons

theorem coefficient_append (line line' : List (Nat × Exact cutoff)) (key : Nat) :
    coefficient (line ++ line') key = coefficient line key + coefficient line' key := by
  rw [coefficient, List.map_append, List.sum_append]
  rfl

/-- What is left out of a line makes no difference to the keys that stay. -/
theorem coefficient_filter {p : Nat × Exact cutoff → Bool} {key : Nat}
    (hp : ∀ x, p (key, x) = true) (line : List (Nat × Exact cutoff)) :
    coefficient (line.filter p) key = coefficient line key := by
  induction line with
  | nil => rfl
  | cons u line ih =>
    rw [List.filter_cons, coefficient_cons]
    by_cases hkey : u.1 = key
    · obtain ⟨k, x⟩ := u
      obtain rfl : k = key := hkey
      rw [if_pos (hp x), coefficient_cons, ih]
    · rw [if_neg hkey, zero_add]
      split
      · rw [coefficient_cons, if_neg hkey, zero_add, ih]
      · exact ih

theorem coefficient_of_notMem {line : List (Nat × Exact cutoff)} {key : Nat}
    (h : ∀ t ∈ line, t.1 ≠ key) : coefficient line key = 0 := by
  induction line with
  | nil => rfl
  | cons t line ih =>
    rw [coefficient_cons, if_neg (h t List.mem_cons_self),
      ih fun s hs => h s (List.mem_cons_of_mem t hs), zero_add]

theorem coefficient_of_mem {line : List (Nat × Exact cutoff)} (hkeys : DistinctKeys line)
    {key : Nat} {x : Exact cutoff} (h : (key, x) ∈ line) : coefficient line key = x.value := by
  induction line with
  | nil => exact absurd h List.not_mem_nil
  | cons t line ih =>
    have ht := List.nodup_cons.mp hkeys
    rw [coefficient_cons]
    rcases List.mem_cons.mp h with rfl | h
    · rw [if_pos rfl, coefficient_of_notMem, add_zero]
      exact fun s hs e => ht.1 (List.mem_map.mpr ⟨s, hs, e⟩)
    · rw [if_neg, ih ht.2 h, zero_add]
      exact fun e => ht.1 (List.mem_map.mpr ⟨(key, x), h, e.symm⟩)

/-- Lines with the same entries have the same coefficients. -/
theorem coefficient_congr {line line' : List (Nat × Exact cutoff)} (hkeys : DistinctKeys line)
    (hkeys' : DistinctKeys line') {key key' : Nat}
    (h : ∀ x, (key, x) ∈ line ↔ (key', x) ∈ line') :
    coefficient line key = coefficient line' key' := by
  by_cases hx : ∃ x, (key, x) ∈ line
  · obtain ⟨x, hx⟩ := hx
    rw [coefficient_of_mem hkeys hx, coefficient_of_mem hkeys' ((h x).mp hx)]
  · rw [coefficient_of_notMem, coefficient_of_notMem]
    · rintro ⟨k, x⟩ ht rfl
      exact hx ⟨x, (h x).mpr ht⟩
    · rintro ⟨k, x⟩ ht rfl
      exact hx ⟨x, ht⟩

/-- A line times a factor. -/
theorem coefficient_map_mul (line : List (Nat × Exact cutoff))
    {f : Nat × Exact cutoff → Exact cutoff} {factor : ℚ}
    (hf : ∀ t ∈ line, (f t).value = t.2.value * factor) (key : Nat) :
    coefficient (line.map fun t => (t.1, f t)) key = coefficient line key * factor := by
  induction line with
  | nil => rw [coefficient_nil, zero_mul]; rfl
  | cons t line ih =>
    rw [List.map_cons, coefficient_cons, coefficient_cons, add_mul,
      ih fun s hs => hf s (List.mem_cons_of_mem t hs), ite_mul, zero_mul, hf t List.mem_cons_self]

/-- The inner product of a line with a vector, by position and by entry. -/
theorem sum_coefficient_mul {line : List (Nat × Exact cutoff)} {m : Nat}
    (h : ∀ t ∈ line, t.1 < m) (f : Nat → ℚ) :
    ∑ i ∈ Finset.range m, coefficient line i * f i =
      (line.map fun t => t.2.value * f t.1).sum := by
  induction line with
  | nil => simp
  | cons t line ih =>
    simp only [coefficient_cons, add_mul, Finset.sum_add_distrib, List.map_cons, List.sum_cons,
      ite_mul, zero_mul]
    rw [ih fun s hs => h s (List.mem_cons_of_mem t hs), Finset.sum_ite_eq,
      if_pos (Finset.mem_range.mpr (h t List.mem_cons_self))]

theorem coefficient_scatter (key : Nat) (line : List (Nat × Exact cutoff))
    (lines : Array (List (Nat × Exact cutoff))) (i k : Nat) :
    coefficient ((scatter key line lines).getD i []) k = coefficient (lines.getD i []) k +
      if k = key ∧ i < lines.size then coefficient line i else 0 := by
  induction line generalizing lines with
  | nil => rw [coefficient_nil, ite_self, add_zero]; rfl
  | cons t line ih =>
    show coefficient ((scatter key line (lines.modify t.1 (· ++ [(key, t.2)]))).getD i []) k = _
    rw [ih, Array.size_modify, getD_modify, coefficient_cons]
    by_cases hi : i < lines.size
    · by_cases ht : t.1 = i
      · rw [if_pos (show t.1 = i ∧ i < lines.size from ⟨ht, hi⟩), coefficient_append,
          coefficient_cons, coefficient_nil, if_pos ht]
        by_cases hk : k = key
        · rw [if_pos (show (key, t.2).1 = k from hk.symm), if_pos ⟨hk, hi⟩, if_pos ⟨hk, hi⟩]
          ring
        · rw [if_neg (show ¬ (key, t.2).1 = k from fun e => hk e.symm), if_neg fun e => hk e.1,
            if_neg fun e => hk e.1]
          ring
      · rw [if_neg fun e => ht e.1, if_neg ht, zero_add]
    · rw [if_neg fun e => hi e.2, if_neg fun e => hi e.2, if_neg fun e => hi e.2]

end Exact

/-! ## Arrays and rows -/

/-- The value at a position of an exact array. -/
def arrayAt {cutoff : Rat} (xs : Array (Exact cutoff)) (i : Nat) : ℚ :=
  (xs.getD i 0).value

/-- The inner product of two arrays. -/
theorem value_sum_zipWith {cutoff : Rat} {xs ys : Array (Exact cutoff)} {n : Nat}
    (hxs : xs.size = n) (hys : ys.size = n) :
    (Scalar.sum (List.zipWith (· * ·) xs.toList ys.toList)).value =
      ∑ i ∈ Finset.range n, arrayAt xs i * arrayAt ys i := by
  have hterms : List.zipWith (· * ·) xs.toList ys.toList =
      (List.range n).map fun i => xs.getD i 0 * ys.getD i 0 := by
    refine List.ext_getElem ?_ fun i hi _ => ?_
    · rw [List.length_zipWith, Array.length_toList, Array.length_toList, hxs, hys, List.length_map,
        List.length_range]
      exact min_self _
    · simp only [List.getElem_zipWith, Array.getElem_toList, List.getElem_map, List.getElem_range]
      rw [List.length_zipWith, Array.length_toList, Array.length_toList] at hi
      rw [getD_eq_getElem (Nat.lt_min.mp hi).1, getD_eq_getElem (Nat.lt_min.mp hi).2]
  rw [hterms, Exact.value_sum, List.map_map]
  rfl

theorem arrayAt_modify {cutoff : Rat} {xs : Array (Exact cutoff)} {i : Nat} (hi : i < xs.size)
    (f : Exact cutoff → Exact cutoff) (j : Nat) :
    arrayAt (xs.modify i f) j = if j = i then (f (xs.getD j 0)).value else arrayAt xs j := by
  rw [arrayAt, getD_modify]
  by_cases hj : j = i
  · rw [if_pos ⟨hj.symm, hj ▸ hi⟩, if_pos hj]
  · rw [if_neg fun h => hj h.1.symm, if_neg hj]
    rfl

/-- Writing the entries of a line over zeros. -/
theorem arrayAt_foldl_set {cutoff : Rat} {line : List (Nat × Exact cutoff)}
    (hkeys : DistinctKeys line) {xs : Array (Exact cutoff)}
    (hzero : ∀ t ∈ line, arrayAt xs t.1 = 0) {i : Nat} (hi : i < xs.size) :
    arrayAt (line.foldl (fun xs t => xs.setIfInBounds t.1 t.2) xs) i =
      arrayAt xs i + Exact.coefficient line i := by
  by_cases hmem : ∃ x, (i, x) ∈ line
  · obtain ⟨x, hx⟩ := hmem
    have hset := getD_foldl_set_of_mem Prod.fst Prod.snd hkeys hx hi 0
    rw [arrayAt, hset, hzero _ hx, zero_add, Exact.coefficient_of_mem hkeys hx]
  · have hout : ∀ t ∈ line, t.1 ≠ i := by
      rintro ⟨k, x⟩ ht rfl
      exact hmem ⟨x, ht⟩
    rw [arrayAt, getD_foldl_set_of_notMem Prod.fst Prod.snd hout, Exact.coefficient_of_notMem hout,
      add_zero]
    rfl

/-- Changing an array along a line, at each entry by a multiple of it. -/
theorem arrayAt_foldl_update {cutoff : Rat}
    {update : Nat × Exact cutoff → Exact cutoff → Exact cutoff} {factor : ℚ}
    (hupdate : ∀ t x, (update t x).value = x.value + t.2.value * factor)
    {line : List (Nat × Exact cutoff)} {xs : Array (Exact cutoff)}
    (hlt : ∀ t ∈ line, t.1 < xs.size) (i : Nat) :
    arrayAt (line.foldl (fun xs t => xs.modify t.1 (update t)) xs) i =
      arrayAt xs i + Exact.coefficient line i * factor := by
  induction line generalizing xs with
  | nil => rw [Exact.coefficient_nil, zero_mul, add_zero]; rfl
  | cons t line ih =>
    have ht := hlt t List.mem_cons_self
    rw [List.foldl_cons, ih fun s hs => by
        rw [Array.size_modify]
        exact hlt s (List.mem_cons_of_mem t hs),
      arrayAt_modify ht, Exact.coefficient_cons]
    by_cases he : i = t.1
    · rw [if_pos he, if_pos he.symm, hupdate]
      show arrayAt xs i + _ + _ = _
      ring
    · rw [if_neg he, if_neg (Ne.symm he), zero_add]

/-- Adding a multiple of a line. -/
theorem arrayAt_foldl_modify {cutoff : Rat} (line : List (Nat × Exact cutoff))
    (x : Exact cutoff) {xs : Array (Exact cutoff)} (hlt : ∀ t ∈ line, t.1 < xs.size) (i : Nat) :
    arrayAt (line.foldl (fun xs t => xs.modify t.1 (· + t.2 * x)) xs) i =
      arrayAt xs i + Exact.coefficient line i * x.value :=
  arrayAt_foldl_update (fun _ _ => by rw [Exact.value_add, Exact.value_mul]) hlt i

/-- The value at a row and column of an exact matrix given by its rows. -/
def rowsAt {cutoff : Rat} (rows : List (List (Exact cutoff))) (i j : Nat) : ℚ :=
  ((rows.getD i []).getD j 0).value

end DualSimplex
