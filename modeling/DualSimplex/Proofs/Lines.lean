import Mathlib.Data.Finset.Card
import Mathlib.Data.List.Nodup
import Mathlib.Data.List.Perm.Basic
import Mathlib.Data.List.TakeDrop
import Mathlib.Data.List.TakeWhile
import Mathlib.Tactic.Linarith
import DualSimplex.Factor.UpperTriangle

/-!
# Lines of entries

A line of a matrix is a list of keys with values, and a matrix is an array of
lines.  The factors keep such arrays by column and by row.  What is said here of
a line concerns its entries alone, not their order, which `swapRemove` changes.
-/

namespace DualSimplex

variable {α β : Type}

/-! ## Reading an array after a write -/

theorem getD_of_size_le {xs : Array β} {i : Nat} (h : xs.size ≤ i) (d : β) : xs.getD i d = d := by
  rw [Array.getD_eq_getD_getElem?, Array.getElem?_eq_none h]
  rfl

theorem getD_setIfInBounds (xs : Array β) (i j : Nat) (x d : β) :
    (xs.setIfInBounds i x).getD j d = if i = j ∧ j < xs.size then x else xs.getD j d := by
  rw [Array.getD_eq_getD_getElem?, Array.getD_eq_getD_getElem?, Array.getElem?_setIfInBounds]
  by_cases hij : i = j
  · subst hij
    by_cases hi : i < xs.size
    · rw [if_pos rfl, if_pos hi, if_pos ⟨rfl, hi⟩]
      rfl
    · rw [if_pos rfl, if_neg hi, if_neg fun h => hi h.2, Array.getElem?_eq_none (by omega)]
  · rw [if_neg hij, if_neg fun h => hij h.1]

theorem getD_setIfInBounds_self {xs : Array β} {i : Nat} (hi : i < xs.size) (x d : β) :
    (xs.setIfInBounds i x).getD i d = x := by
  rw [getD_setIfInBounds, if_pos ⟨rfl, hi⟩]

theorem getD_setIfInBounds_ne {i j : Nat} (h : i ≠ j) (xs : Array β) (x d : β) :
    (xs.setIfInBounds i x).getD j d = xs.getD j d := by
  rw [getD_setIfInBounds, if_neg fun h' => h h'.1]

theorem getD_setIfInBounds_of_lt {xs : Array β} {i : Nat} (hi : i < xs.size) (j : Nat) (x d : β) :
    (xs.setIfInBounds i x).getD j d = if i = j then x else xs.getD j d := by
  rw [getD_setIfInBounds]
  by_cases hij : i = j
  · rw [if_pos ⟨hij, hij ▸ hi⟩, if_pos hij]
  · rw [if_neg fun h => hij h.1, if_neg hij]

/-- Where nothing can be read anyway it makes no difference what is stored. -/
theorem getD_setIfInBounds_default (xs : Array β) (i j : Nat) (d : β) :
    (xs.setIfInBounds i d).getD j d = if i = j then d else xs.getD j d := by
  by_cases hi : i < xs.size
  · exact getD_setIfInBounds_of_lt hi j d d
  · rw [getD_setIfInBounds, if_neg fun h => hi (h.1.trans_lt h.2)]
    split
    · exact getD_of_size_le (by omega) d
    · rfl

theorem getD_modify (xs : Array β) (i j : Nat) (f : β → β) (d : β) :
    (xs.modify i f).getD j d = if i = j ∧ j < xs.size then f (xs.getD j d) else xs.getD j d := by
  rw [Array.getD_eq_getD_getElem?, Array.getD_eq_getD_getElem?, Array.getElem?_modify]
  by_cases hij : i = j
  · subst hij
    by_cases hi : i < xs.size
    · rw [if_pos rfl, if_pos ⟨rfl, hi⟩, Array.getElem?_eq_getElem hi]
      rfl
    · rw [if_pos rfl, if_neg fun h => hi h.2, Array.getElem?_eq_none (by omega)]
      rfl
  · rw [if_neg hij, if_neg fun h => hij h.1]

theorem getD_modify_ne {i j : Nat} (h : i ≠ j) (xs : Array β) (f : β → β) (d : β) :
    (xs.modify i f).getD j d = xs.getD j d := by
  rw [getD_modify, if_neg fun h' => h h'.1]

theorem getD_eq_getElem {xs : Array β} {i : Nat} (h : i < xs.size) (d : β) :
    xs.getD i d = xs[i] := by
  rw [Array.getD_eq_getD_getElem?, Array.getElem?_eq_getElem h]
  rfl

theorem getD_replicate (n i : Nat) (x d : β) :
    (Array.replicate n x).getD i d = if i < n then x else d := by
  by_cases h : i < n
  · rw [if_pos h, getD_eq_getElem (by simpa using h), Array.getElem_replicate]
  · rw [if_neg h, getD_of_size_le (by simpa using h)]

theorem getD_push (xs : Array β) (x : β) (i : Nat) (d : β) :
    (xs.push x).getD i d = if i = xs.size then x else xs.getD i d := by
  rw [Array.getD_eq_getD_getElem?, Array.getD_eq_getD_getElem?, Array.getElem?_push]
  by_cases h : i = xs.size
  · rw [if_pos h, if_pos h]
    rfl
  · rw [if_neg h, if_neg h]

theorem getD_map {γ : Type} (f : β → γ) (xs : Array β) (i : Nat) (d : β) :
    (xs.map f).getD i (f d) = f (xs.getD i d) := by
  rw [Array.getD_eq_getD_getElem?, Array.getElem?_map, Array.getD_eq_getD_getElem?]
  cases xs[i]? <;> rfl

theorem getD_toArray (xs : List β) (i : Nat) (d : β) : xs.toArray.getD i d = xs.getD i d := by
  rw [Array.getD_eq_getD_getElem?, List.getElem?_toArray, List.getD_eq_getElem?_getD]

section Fold

variable {γ : Type} (f : γ → Nat) (g : γ → β)

theorem size_foldl_set (l : List γ) (xs : Array β) :
    (l.foldl (fun xs t => xs.setIfInBounds (f t) (g t)) xs).size = xs.size := by
  induction l generalizing xs with
  | nil => rfl
  | cons t l ih => rw [List.foldl_cons, ih, Array.size_setIfInBounds]

/-- A place that no write goes to. -/
theorem getD_foldl_set_of_notMem {l : List γ} {i : Nat} (h : ∀ t ∈ l, f t ≠ i) (xs : Array β)
    (d : β) : (l.foldl (fun xs t => xs.setIfInBounds (f t) (g t)) xs).getD i d = xs.getD i d := by
  induction l generalizing xs with
  | nil => rfl
  | cons t l ih =>
    rw [List.foldl_cons, ih fun s hs => h s (List.mem_cons_of_mem t hs),
      getD_setIfInBounds_ne (h t List.mem_cons_self)]

/-- A place that one write goes to. -/
theorem getD_foldl_set_of_mem {l : List γ} (hl : (l.map f).Nodup) {t : γ} (ht : t ∈ l)
    {xs : Array β} (hi : f t < xs.size) (d : β) :
    (l.foldl (fun xs t => xs.setIfInBounds (f t) (g t)) xs).getD (f t) d = g t := by
  induction l generalizing xs with
  | nil => exact absurd ht List.not_mem_nil
  | cons s l ih =>
    have hs := List.nodup_cons.mp hl
    rw [List.foldl_cons]
    rcases List.mem_cons.mp ht with rfl | ht
    · rw [getD_foldl_set_of_notMem f g (fun r hr e => hs.1 (List.mem_map.mpr ⟨r, hr, e⟩)),
        getD_setIfInBounds_self hi]
    · exact ih hs.2 ht (by rw [Array.size_setIfInBounds]; exact hi)

theorem size_foldl_modify (update : γ → β → β) (l : List γ) (xs : Array β) :
    (l.foldl (fun xs t => xs.modify (f t) (update t)) xs).size = xs.size := by
  induction l generalizing xs with
  | nil => rfl
  | cons t l ih => rw [List.foldl_cons, ih, Array.size_modify]

theorem getD_foldl_modify_of_notMem (update : γ → β → β) {l : List γ} {i : Nat}
    (h : ∀ t ∈ l, f t ≠ i) (xs : Array β) (d : β) :
    (l.foldl (fun xs t => xs.modify (f t) (update t)) xs).getD i d = xs.getD i d := by
  induction l generalizing xs with
  | nil => rfl
  | cons t l ih =>
    rw [List.foldl_cons, ih fun s hs => h s (List.mem_cons_of_mem t hs),
      getD_modify_ne (h t List.mem_cons_self)]

end Fold

/-- Steps that change one place each, applied at distinct places, change each of them once. -/
theorem foldl_distinct {σ γ : Type} (invariant : σ → Prop) (view : σ → Nat → γ) (change : γ → γ)
    {f : σ → Nat → σ} {l : List Nat} (hl : l.Nodup) {s : σ} (h : invariant s)
    (hf : ∀ s', invariant s' → ∀ j ∈ l, view s' j = view s j → invariant (f s' j) ∧
      ∀ k, view (f s' j) k = if j = k then change (view s' k) else view s' k) :
    invariant (l.foldl f s) ∧
      ∀ k, view (l.foldl f s) k = if k ∈ l then change (view s k) else view s k := by
  induction l generalizing s with
  | nil => exact ⟨h, fun _ => rfl⟩
  | cons j l ih =>
    obtain ⟨hj, hl⟩ := List.nodup_cons.mp hl
    obtain ⟨hnext, hview⟩ := hf s h j List.mem_cons_self rfl
    -- the places still to come have not been changed
    have hrest : ∀ i ∈ l, view (f s j) i = view s i := by
      intro i hi
      have hne : j ≠ i := fun hc => hj (hc ▸ hi)
      rw [hview, if_neg hne]
    obtain ⟨hlast, hfold⟩ := ih hl hnext fun s' hs' i hi hsame =>
      hf s' hs' i (List.mem_cons_of_mem j hi) (hsame.trans (hrest i hi))
    refine ⟨hlast, fun k => ?_⟩
    rw [List.foldl_cons, hfold, hview]
    by_cases hjk : j = k
    · subst hjk
      rw [if_neg hj, if_pos rfl, if_pos List.mem_cons_self]
    · rw [if_neg hjk]
      refine if_congr ?_ rfl rfl
      rw [List.mem_cons]
      exact ⟨Or.inr, fun hk => hk.resolve_left (Ne.symm hjk)⟩

/-- What is in a list after one of its items has been replaced. -/
theorem mem_set_iff {xs : List β} (hxs : xs.Nodup) {i : Nat} (hi : i < xs.length) {a x : β} :
    x ∈ xs.set i a ↔ x ∈ xs ∧ x ≠ xs[i] ∨ x = a := by
  rw [List.mem_iff_getElem]
  constructor
  · intro h
    obtain ⟨k, hk, h⟩ := h
    rw [List.getElem_set] at h
    split at h
    · exact Or.inr h.symm
    · rename_i hne
      refine Or.inl ⟨h ▸ List.getElem_mem _, fun he => hne ?_⟩
      exact (hxs.getElem_inj_iff.mp (h.trans he)).symm
  · intro h
    rcases h with ⟨hmem, hne⟩ | h
    · obtain ⟨k, hk, h⟩ := List.getElem_of_mem hmem
      refine ⟨k, by rw [List.length_set]; exact hk, ?_⟩
      rw [List.getElem_set_ne fun he => hne (by subst he; exact h.symm)]
      exact h
    · refine ⟨i, by rw [List.length_set]; exact hi, ?_⟩
      rw [List.getElem_set_self]
      exact h.symm

theorem nodup_append_singleton {xs : List β} {x : β} :
    (xs ++ [x]).Nodup ↔ xs.Nodup ∧ x ∉ xs := by
  rw [← List.concat_eq_append, List.nodup_concat, and_comm]

/-- As many different numbers below `n` as there are. -/
theorem mem_of_nodup_of_lt {xs : List Nat} {n : Nat} (hxs : xs.Nodup) (hlt : ∀ x ∈ xs, x < n)
    (hlen : n ≤ xs.length) {i : Nat} (hi : i < n) : i ∈ xs := by
  have hsub : xs.toFinset ⊆ Finset.range n := fun x hx =>
    Finset.mem_range.mpr (hlt x (List.mem_toFinset.mp hx))
  have hcard : (Finset.range n).card ≤ xs.toFinset.card := by
    rw [Finset.card_range, List.toFinset_card_of_nodup hxs]
    exact hlen
  have := Finset.eq_of_subset_of_card_le hsub hcard
  exact List.mem_toFinset.mp (this ▸ Finset.mem_range.mpr hi)

/-! ## Distinct keys -/

/-- No key occurs twice in a line. -/
def DistinctKeys (line : List (Nat × β)) : Prop :=
  (line.map Prod.fst).Nodup

theorem DistinctKeys.eq {line : List (Nat × β)} (h : DistinctKeys line) {k : Nat} {x y : β}
    (hx : (k, x) ∈ line) (hy : (k, y) ∈ line) : x = y := by
  have := List.inj_on_of_nodup_map h hx hy rfl
  exact congrArg Prod.snd this

theorem DistinctKeys.nodup {line : List (Nat × β)} (h : DistinctKeys line) : line.Nodup :=
  List.Nodup.of_map Prod.fst h

theorem DistinctKeys.perm {line line' : List (Nat × β)} (h : DistinctKeys line)
    (hp : line'.Perm line) : DistinctKeys line' :=
  (hp.map Prod.fst).nodup_iff.mpr h

theorem DistinctKeys.sublist {line line' : List (Nat × β)} (h : DistinctKeys line)
    (hs : line'.Sublist line) : DistinctKeys line' :=
  List.Nodup.sublist (hs.map Prod.fst) h

theorem DistinctKeys.filter {line : List (Nat × β)} (h : DistinctKeys line)
    (p : Nat × β → Bool) : DistinctKeys (line.filter p) :=
  h.sublist List.filter_sublist

theorem distinctKeys_nil : DistinctKeys ([] : List (Nat × β)) :=
  List.nodup_nil

theorem distinctKeys_append_singleton {line : List (Nat × β)} {k : Nat} {x : β} :
    DistinctKeys (line ++ [(k, x)]) ↔ DistinctKeys line ∧ ∀ y, (k, y) ∉ line := by
  rw [DistinctKeys, List.map_append, List.map_singleton, nodup_append_singleton]
  simp only [List.mem_map, Prod.exists, exists_and_right, exists_eq_right, not_exists]
  rfl

/-- The keys of a line with one value for each of them, as looked up. -/
theorem lookup_eq_some_iff {line : List (Nat × β)} (h : DistinctKeys line) {k : Nat} {x : β} :
    line.lookup k = some x ↔ (k, x) ∈ line := by
  induction line with
  | nil => simp
  | cons t line ih =>
    obtain ⟨l, y⟩ := t
    have ht := List.nodup_cons.mp h
    rw [List.lookup_cons]
    by_cases hkl : k = l
    · subst hkl
      simp only [beq_self_eq_true, Option.some.injEq, List.mem_cons, Prod.mk.injEq, true_and]
      refine ⟨fun e => Or.inl e.symm, fun e => e.elim Eq.symm fun e => ?_⟩
      exact absurd (List.mem_map.mpr ⟨(k, x), e, rfl⟩) ht.1
    · rw [show (k == l) = false from beq_eq_false_iff_ne.mpr hkl]
      simp only [List.mem_cons, Prod.mk.injEq, hkl, false_and, false_or]
      exact ih ht.2

theorem lookup_eq_none_iff' {line : List (Nat × β)} {k : Nat} :
    line.lookup k = none ↔ ∀ x, (k, x) ∉ line := by
  induction line with
  | nil => simp
  | cons t line ih =>
    obtain ⟨l, y⟩ := t
    rw [List.lookup_cons]
    by_cases hkl : k = l
    · subst hkl
      simp only [beq_self_eq_true, reduceCtorEq, List.mem_cons, Prod.mk.injEq, true_and, not_or,
        false_iff, not_forall, not_and, not_not]
      exact ⟨y, fun h => absurd rfl h⟩
    · rw [show (k == l) = false from beq_eq_false_iff_ne.mpr hkl]
      simp only [List.mem_cons, Prod.mk.injEq, hkl, false_and, false_or]
      exact ih

/-! ## Replacing the value of a key -/

theorem map_fst_set_findIdx (line : List (Nat × β)) (k : Nat) (x : β) :
    (line.set (line.findIdx fun t => t.1 == k) (k, x)).map Prod.fst = line.map Prod.fst := by
  induction line with
  | nil => rfl
  | cons t line ih =>
    rw [List.findIdx_cons]
    by_cases ht : t.1 = k
    · rw [show (t.1 == k) = true from beq_iff_eq.mpr ht]
      simp [ht]
    · rw [show (t.1 == k) = false from beq_eq_false_iff_ne.mpr ht]
      simp only [cond_false, List.set_cons_succ, List.map_cons, ih]

theorem mem_set_findIdx {line : List (Nat × β)} (h : DistinctKeys line) {k : Nat} {x y : β}
    (hy : (k, y) ∈ line) {t : Nat × β} :
    t ∈ line.set (line.findIdx fun t => t.1 == k) (k, x) ↔
      t = (k, x) ∨ t ∈ line ∧ t.1 ≠ k := by
  induction line with
  | nil => exact absurd hy List.not_mem_nil
  | cons s line ih =>
    have hs := List.nodup_cons.mp h
    rw [List.findIdx_cons]
    by_cases hsk : s.1 = k
    · rw [show (s.1 == k) = true from beq_iff_eq.mpr hsk]
      simp only [cond_true, List.set_cons_zero, List.mem_cons]
      refine or_congr_right ⟨fun ht => ⟨Or.inr ht, fun e => ?_⟩, ?_⟩
      · exact hs.1 (List.mem_map.mpr ⟨t, ht, e.trans hsk.symm⟩)
      · rintro ⟨rfl | ht, hne⟩
        · exact absurd hsk hne
        · exact ht
    · rw [show (s.1 == k) = false from beq_eq_false_iff_ne.mpr hsk]
      have hline := (List.mem_cons.mp hy).resolve_left fun e => hsk (by rw [← e])
      simp only [cond_false, List.set_cons_succ, List.mem_cons, ih hs.2 hline]
      constructor
      · rintro (rfl | rfl | ht)
        · exact Or.inr ⟨Or.inl rfl, hsk⟩
        · exact Or.inl rfl
        · exact Or.inr ⟨Or.inr ht.1, ht.2⟩
      · rintro (rfl | ⟨rfl | ht, hne⟩)
        · exact Or.inr (Or.inl rfl)
        · exact Or.inl rfl
        · exact Or.inr (Or.inr ⟨ht, hne⟩)

/-! ## Removing an element -/

theorem swapRemove_perm (p : β → Bool) (xs : List β) :
    (swapRemove p xs).Perm (xs.eraseP p) := by
  have hsplit : xs = (xs.span fun x => !p x).1 ++ (xs.span fun x => !p x).2 := by
    rw [List.span_eq_takeWhile_dropWhile]
    exact List.takeWhile_append_dropWhile.symm
  have hfront : ∀ x ∈ (xs.span fun x => !p x).1, ¬ p x = true := by
    intro x hx
    rw [List.span_eq_takeWhile_dropWhile] at hx
    have := List.mem_takeWhile_imp hx
    simpa using this
  have hhead : ∀ x rest, (xs.span fun x => !p x).2 = x :: rest → p x = true := by
    intro x rest h
    rw [List.span_eq_takeWhile_dropWhile] at h
    have := List.head_dropWhile_not (fun x => !p x) (l := xs) (by
      show List.dropWhile (fun x => !p x) xs ≠ []
      rw [show List.dropWhile (fun x => !p x) xs = x :: rest from h]
      exact List.cons_ne_nil x rest)
    simp only [show List.dropWhile (fun x => !p x) xs = x :: rest from h, List.head_cons] at this
    simpa using this
  unfold swapRemove
  generalize (xs.span fun x => !p x) = s at hsplit hfront hhead
  obtain ⟨front, back⟩ := s
  subst hsplit
  cases back with
  | nil => rw [List.append_nil, List.eraseP_of_forall_not hfront]
  | cons x rest =>
    have hx : p x = true := hhead x rest rfl
    rw [List.eraseP_append_right _ hfront, List.eraseP_cons_of_pos hx]
    dsimp only
    cases hlast : rest.getLast? with
    | none =>
      rw [List.getLast?_eq_none_iff.mp hlast, List.append_nil]
    | some last =>
      have hrest : rest.dropLast ++ [last] = rest :=
        List.dropLast_append_getLast? last hlast
      refine List.Perm.append_left front ?_
      conv_rhs => rw [← hrest]
      exact (List.perm_append_singleton last rest.dropLast).symm

theorem eraseP_eq_filter {p : β → Bool} {xs : List β}
    (h : xs.Pairwise fun x y => ¬ (p x = true ∧ p y = true)) :
    xs.eraseP p = xs.filter fun x => !p x := by
  induction xs with
  | nil => rfl
  | cons x xs ih =>
    have ht := List.pairwise_cons.mp h
    by_cases hx : p x = true
    · rw [List.eraseP_cons_of_pos hx, List.filter_cons_of_neg (by simp [hx])]
      refine (List.filter_eq_self.mpr fun y hy => ?_).symm
      have := ht.1 y hy
      simp only [hx, true_and, Bool.not_eq_true] at this
      simp [this]
    · rw [List.eraseP_cons_of_neg hx, List.filter_cons_of_pos (by simp [hx]), ih ht.2]

/-- Removing the entry with a key leaves the entries with other keys. -/
theorem swapRemove_key_perm {line : List (Nat × β)} (h : DistinctKeys line) (k : Nat) :
    (swapRemove (fun t => t.1 == k) line).Perm (line.filter fun t => t.1 != k) := by
  refine (swapRemove_perm _ line).trans (.of_eq ?_)
  refine eraseP_eq_filter ((List.pairwise_map.mp h).imp fun {s t} hst => ?_)
  simp only [beq_iff_eq]
  exact fun e => hst (e.1.trans e.2.symm)

theorem mem_swapRemove_key {line : List (Nat × β)} (h : DistinctKeys line) {k : Nat}
    {t : Nat × β} : t ∈ swapRemove (fun t => t.1 == k) line ↔ t ∈ line ∧ t.1 ≠ k := by
  rw [(swapRemove_key_perm h k).mem_iff, List.mem_filter]
  simp

theorem DistinctKeys.swapRemove {line : List (Nat × β)} (h : DistinctKeys line) (k : Nat) :
    DistinctKeys (swapRemove (fun t => t.1 == k) line) :=
  (h.filter _).perm (swapRemove_key_perm h k)

theorem swapRemove_item_perm {xs : List Nat} (h : xs.Nodup) (k : Nat) :
    (swapRemove (fun x => x == k) xs).Perm (xs.filter fun x => x != k) := by
  refine (swapRemove_perm _ xs).trans (.of_eq ?_)
  refine eraseP_eq_filter (h.imp fun {s t} hst => ?_)
  simp only [beq_iff_eq]
  exact fun e => hst (e.1.trans e.2.symm)

theorem mem_swapRemove_item {xs : List Nat} (h : xs.Nodup) {k x : Nat} :
    x ∈ swapRemove (fun x => x == k) xs ↔ x ∈ xs ∧ x ≠ k := by
  rw [(swapRemove_item_perm h k).mem_iff, List.mem_filter]
  simp

theorem nodup_swapRemove_item {xs : List Nat} (h : xs.Nodup) (k : Nat) :
    (swapRemove (fun x => x == k) xs).Nodup :=
  (swapRemove_item_perm h k).nodup_iff.mpr (h.filter _)

/-! ## The copy by lines of the other kind -/

/-- Append the entries of the line `key` to the lines that their own keys name. -/
def scatter (key : Nat) (line : List (Nat × β)) (lines : Array (List (Nat × β))) :
    Array (List (Nat × β)) :=
  line.foldl (fun lines t => lines.modify t.1 (· ++ [(key, t.2)])) lines

@[simp] theorem size_scatter (key : Nat) (line : List (Nat × β))
    (lines : Array (List (Nat × β))) : (scatter key line lines).size = lines.size := by
  induction line generalizing lines with
  | nil => rfl
  | cons t line ih =>
    show (scatter key line (lines.modify t.1 (· ++ [(key, t.2)]))).size = lines.size
    rw [ih, Array.size_modify]

theorem mem_scatter {key : Nat} {line : List (Nat × β)} {lines : Array (List (Nat × β))}
    {i : Nat} {t : Nat × β} : t ∈ (scatter key line lines).getD i [] ↔
      t ∈ lines.getD i [] ∨ i < lines.size ∧ t.1 = key ∧ (i, t.2) ∈ line := by
  induction line generalizing lines with
  | nil => simp [scatter]
  | cons s line ih =>
    show t ∈ (scatter key line (lines.modify s.1 (· ++ [(key, s.2)]))).getD i [] ↔ _
    rw [ih, getD_modify, Array.size_modify, List.mem_cons]
    obtain ⟨k, y⟩ := s
    obtain ⟨l, x⟩ := t
    by_cases hk : k = i ∧ i < lines.size
    · rw [if_pos hk, List.mem_append, List.mem_singleton]
      obtain ⟨rfl, hi⟩ := hk
      simp only [Prod.mk.injEq, hi, true_and]
      tauto
    · rw [if_neg hk]
      simp only [Prod.mk.injEq]
      constructor
      · rintro (h | ⟨hi, hl, h⟩)
        · exact Or.inl h
        · exact Or.inr ⟨hi, hl, Or.inr h⟩
      · rintro (h | ⟨hi, hl, h | h⟩)
        · exact Or.inl h
        · exact absurd ⟨h.1.symm, hi⟩ hk
        · exact Or.inr ⟨hi, hl, h⟩

theorem distinctKeys_scatter {key : Nat} {line : List (Nat × β)}
    {lines : Array (List (Nat × β))} (hline : DistinctKeys line)
    (hlines : ∀ i, DistinctKeys (lines.getD i []))
    (hnew : ∀ i x, (i, x) ∈ line → ∀ y, (key, y) ∉ lines.getD i []) (i : Nat) :
    DistinctKeys ((scatter key line lines).getD i []) := by
  induction line generalizing lines with
  | nil => exact hlines i
  | cons s line ih =>
    obtain ⟨k, z⟩ := s
    have hs := List.nodup_cons.mp hline
    show DistinctKeys ((scatter key line (lines.modify k (· ++ [(key, z)]))).getD i [])
    refine ih hs.2 (fun j => ?_) fun j x hj y => ?_
    · rw [getD_modify]
      by_cases hk : k = j ∧ j < lines.size
      · rw [if_pos hk, distinctKeys_append_singleton]
        exact ⟨hlines j, hnew j z (hk.1 ▸ List.mem_cons_self)⟩
      · rw [if_neg hk]
        exact hlines j
    · have hkj : k ≠ j := by
        rintro rfl
        exact hs.1 (List.mem_map.mpr ⟨(k, x), hj, rfl⟩)
      rw [getD_modify_ne hkj]
      exact hnew j x (List.mem_cons_of_mem _ hj) y

/-- Append a number to the lists that the keys of a line name. -/
def mark (key : Nat) (line : List (Nat × β)) (lists : Array (List Nat)) : Array (List Nat) :=
  line.foldl (fun lists t => lists.modify t.1 (· ++ [key])) lists

@[simp] theorem size_mark (key : Nat) (line : List (Nat × β)) (lists : Array (List Nat)) :
    (mark key line lists).size = lists.size :=
  size_foldl_modify Prod.fst (fun _ => (· ++ [key])) line lists

theorem mem_mark {key : Nat} {line : List (Nat × β)} {lists : Array (List Nat)} {i k : Nat} :
    k ∈ (mark key line lists).getD i [] ↔
      k ∈ lists.getD i [] ∨ i < lists.size ∧ k = key ∧ ∃ x, (i, x) ∈ line := by
  induction line generalizing lists with
  | nil => simp [mark]
  | cons s line ih =>
    show k ∈ (mark key line (lists.modify s.1 (· ++ [key]))).getD i [] ↔ _
    rw [ih, getD_modify, Array.size_modify]
    obtain ⟨l, y⟩ := s
    simp only [List.mem_cons, Prod.mk.injEq]
    by_cases hl : l = i ∧ i < lists.size
    · rw [if_pos hl, List.mem_append, List.mem_singleton]
      constructor
      · rintro ((h | h) | ⟨hi, hk, x, hx⟩)
        · exact Or.inl h
        · exact Or.inr ⟨hl.2, h, y, Or.inl ⟨hl.1.symm, rfl⟩⟩
        · exact Or.inr ⟨hi, hk, x, Or.inr hx⟩
      · rintro (h | ⟨-, hk, -⟩)
        · exact Or.inl (Or.inl h)
        · exact Or.inl (Or.inr hk)
    · rw [if_neg hl]
      refine or_congr_right (and_congr_right fun hi => and_congr_right fun _ => ?_)
      have hne : ¬ i = l := fun e => hl ⟨e.symm, hi⟩
      simp only [hne, false_and, false_or]

theorem nodup_mark {key : Nat} {line : List (Nat × β)} {lists : Array (List Nat)}
    (hline : DistinctKeys line) (hlists : ∀ i, (lists.getD i []).Nodup)
    (hnew : ∀ i x, (i, x) ∈ line → key ∉ lists.getD i []) (i : Nat) :
    ((mark key line lists).getD i []).Nodup := by
  induction line generalizing lists with
  | nil => exact hlists i
  | cons s line ih =>
    obtain ⟨l, y⟩ := s
    have hs := List.nodup_cons.mp hline
    show ((mark key line (lists.modify l (· ++ [key]))).getD i []).Nodup
    refine ih hs.2 (fun j => ?_) fun j x hj => ?_
    · rw [getD_modify]
      split
      · rename_i hl
        exact nodup_append_singleton.mpr ⟨hlists j, hl.1 ▸ hnew l y List.mem_cons_self⟩
      · exact hlists j
    · have hne : l ≠ j := by
        rintro rfl
        exact hs.1 (List.mem_map.mpr ⟨(l, x), hj, rfl⟩)
      rw [getD_modify_ne hne]
      exact hnew j x (List.mem_cons_of_mem _ hj)

/-- Remove the entry with a key from all lines that the keys of `line` name. -/
def withdraw (key : Nat) (line : List (Nat × β)) (lines : Array (List (Nat × β))) :
    Array (List (Nat × β)) :=
  line.foldl (fun lines t => lines.modify t.1 (swapRemove fun t => t.1 == key)) lines

@[simp] theorem size_withdraw (key : Nat) (line : List (Nat × β))
    (lines : Array (List (Nat × β))) : (withdraw key line lines).size = lines.size := by
  induction line generalizing lines with
  | nil => rfl
  | cons t line ih =>
    show (withdraw key line (lines.modify t.1 _)).size = lines.size
    rw [ih, Array.size_modify]

theorem distinctKeys_modify_swapRemove {lines : Array (List (Nat × β))}
    (hlines : ∀ i, DistinctKeys (lines.getD i [])) (k key i : Nat) :
    DistinctKeys ((lines.modify k (swapRemove fun t => t.1 == key)).getD i []) := by
  rw [getD_modify]
  by_cases hk : k = i ∧ i < lines.size
  · rw [if_pos hk]
    exact (hlines i).swapRemove key
  · rw [if_neg hk]
    exact hlines i

theorem distinctKeys_withdraw {key : Nat} {line : List (Nat × β)}
    {lines : Array (List (Nat × β))} (hlines : ∀ i, DistinctKeys (lines.getD i [])) (i : Nat) :
    DistinctKeys ((withdraw key line lines).getD i []) := by
  induction line generalizing lines with
  | nil => exact hlines i
  | cons s line ih =>
    exact ih (distinctKeys_modify_swapRemove hlines s.1 key)

theorem mem_withdraw {key : Nat} {line : List (Nat × β)} {lines : Array (List (Nat × β))}
    (hlines : ∀ i, DistinctKeys (lines.getD i [])) {i : Nat} {t : Nat × β} :
    t ∈ (withdraw key line lines).getD i [] ↔
      t ∈ lines.getD i [] ∧ ¬ (t.1 = key ∧ ∃ x, (i, x) ∈ line) := by
  induction line generalizing lines with
  | nil => simp [withdraw]
  | cons s line ih =>
    show t ∈ (withdraw key line (lines.modify s.1 (swapRemove fun t => t.1 == key))).getD i [] ↔ _
    rw [ih (distinctKeys_modify_swapRemove hlines s.1 key), getD_modify]
    obtain ⟨k, y⟩ := s
    simp only [List.mem_cons, Prod.mk.injEq]
    by_cases hk : k = i ∧ i < lines.size
    · rw [if_pos hk, mem_swapRemove_key (hlines i)]
      obtain ⟨rfl, -⟩ := hk
      constructor
      · rintro ⟨⟨h, hkey⟩, -⟩
        exact ⟨h, fun h' => hkey h'.1⟩
      · rintro ⟨h, hkey⟩
        have hne : t.1 ≠ key := fun e => hkey ⟨e, y, Or.inl ⟨rfl, rfl⟩⟩
        exact ⟨⟨h, hne⟩, fun h' => hne h'.1⟩
    · rw [if_neg hk]
      refine and_congr_right fun h => not_congr (and_congr_right fun _ => ?_)
      -- An entry that is there lies in a line that is there.
      have hi : i < lines.size := by
        by_contra hge
        rw [getD_of_size_le (by omega)] at h
        exact absurd h List.not_mem_nil
      have hki : i ≠ k := fun e => hk ⟨e.symm, hi⟩
      simp [hki]

end DualSimplex
