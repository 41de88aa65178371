import DualSimplex.Proofs.Factor.CountBuckets

/-!
# The lists of count buckets

Going through a list of the buckets finds every item with that count, once.  Links
that fit together are not enough for that, since they may also close a circle that no
head leads to.  What excludes it is that every list is a chain to its end.
-/

namespace DualSimplex
namespace CountBuckets

/-- Following the links from a start leads through these items and then ends. -/
def Chain (l : CountBuckets) : Option Nat → List Nat → Prop
  | start, [] => start = none
  | start, i :: items => start = some i ∧ l.Chain (l.nextOf i) items

/-- Links of which every list ends, and holds the items with its count. -/
structure Threaded (l : CountBuckets) : Prop extends l.Linked where
  chain : ∀ c, l.Chain (l.first c) (l.items c)
  items_nodup : ∀ c, (l.items c).Nodup
  mem_items : ∀ c i, i ∈ l.items c ↔ l.countOf i = some c

/-- The lists of `n` items with counts up to `n`. -/
structure Traversable (l : CountBuckets) (n : Nat) : Prop extends l.WellFormed n where
  chain : ∀ c, l.Chain (l.first c) (l.items c)
  items_nodup : ∀ c, (l.items c).Nodup
  mem_items : ∀ c i, i ∈ l.items c ↔ l.countOf i = some c

variable {l : CountBuckets} {n : Nat}

theorem Traversable.threaded (h : l.Traversable n) : l.Threaded :=
  ⟨h.linked, h.chain, h.items_nodup, h.mem_items⟩

theorem WellFormed.traversable (h : l.WellFormed n) (h' : l.Threaded) : l.Traversable n :=
  ⟨h, h'.chain, h'.items_nodup, h'.mem_items⟩

/-! ## Chains -/

theorem Chain.start_eq {start : Option Nat} {items : List Nat} (h : l.Chain start items) :
    start = items.head? := by
  cases items with
  | nil => exact h
  | cons i items => exact h.1

theorem Chain.follow_eq {start : Option Nat} {items : List Nat} (h : l.Chain start items)
    {fuel : Nat} (hfuel : items.length ≤ fuel) : l.follow fuel start = items := by
  induction items generalizing start fuel with
  | nil =>
    rw [show start = none from h]
    cases fuel <;> rfl
  | cons i items ih =>
    cases fuel with
    | zero => exact absurd hfuel (Nat.not_succ_le_zero _)
    | succ fuel =>
      rw [h.1]
      exact congrArg (i :: ·) (ih h.2 (Nat.le_of_succ_le_succ hfuel))

/-- A chain depends on the links of its items only. -/
theorem Chain.congr {l' : CountBuckets} {start : Option Nat} {items : List Nat}
    (h : l.Chain start items) (hnext : ∀ i ∈ items, l'.nextOf i = l.nextOf i) :
    l'.Chain start items := by
  induction items generalizing start with
  | nil => exact h
  | cons i items ih =>
    refine ⟨h.1, ?_⟩
    rw [hnext i List.mem_cons_self]
    exact ih h.2 fun k hk => hnext k (List.mem_cons_of_mem i hk)

/-- Taking an item out of a chain, whose predecessor then leads to its successor. -/
theorem Chain.erase {l' : CountBuckets} {start : Option Nat} {items : List Nat} {item : Nat}
    (h : l.Chain start items) (hnodup : items.Nodup)
    (hnext : ∀ i ∈ items, i ≠ item →
      l'.nextOf i = if l.nextOf i = some item then l.nextOf item else l.nextOf i) :
    l'.Chain (if start = some item then l.nextOf item else start) (items.erase item) := by
  induction items generalizing start with
  | nil =>
    rw [show start = none from h, if_neg nofun]
    rfl
  | cons i items ih =>
    have hi := List.nodup_cons.mp hnodup
    have hrest := ih h.2 hi.2 fun k hk => hnext k (List.mem_cons_of_mem i hk)
    rw [h.1]
    by_cases he : i = item
    · subst he
      have hnot : l.nextOf i ≠ some i := fun e =>
        hi.1 (List.mem_of_mem_head? (h.2.start_eq.symm.trans e))
      rw [if_neg hnot, List.erase_of_not_mem hi.1] at hrest
      rw [if_pos rfl, List.erase_cons_head]
      exact hrest
    · rw [if_neg fun e => he (Option.some.inj e), List.erase_cons_tail (by simpa using he)]
      refine ⟨rfl, ?_⟩
      rw [hnext i List.mem_cons_self he]
      exact hrest

/-- Chains that hold the items with their count are what the traversal finds. -/
theorem Linked.threaded (h : l.Linked) {lists : Nat → List Nat}
    (hchain : ∀ c, l.Chain (l.first c) (lists c)) (hnodup : ∀ c, (lists c).Nodup)
    (hmem : ∀ c i, i ∈ lists c ↔ l.countOf i = some c) :
    l.Threaded ∧ ∀ c, l.items c = lists c := by
  have hitems : ∀ c, l.items c = lists c := fun c => by
    refine (hchain c).follow_eq ?_
    have hsub : (lists c).Subperm (List.range l.next.size) := (hnodup c).subperm fun i hi =>
      List.mem_range.mpr (h.item_lt ((hmem c i).mp hi))
    have := hsub.length_le
    rwa [List.length_range] at this
  refine ⟨⟨h, fun c => ?_, fun c => ?_, fun c => ?_⟩, hitems⟩ <;> rw [hitems]
  · exact hchain c
  · exact hnodup c
  · exact hmem c

theorem threaded_empty (size maxCount : Nat) :
    (empty size maxCount).Threaded ∧ ∀ c, (empty size maxCount).items c = [] := by
  refine (linked_empty size maxCount).threaded (first_empty size maxCount)
    (fun _ => List.nodup_nil) fun c i => ?_
  rw [countOf_empty]
  exact ⟨fun h => absurd h List.not_mem_nil, fun h => absurd h.symm (Option.some_ne_none c)⟩

/-! ## What the operations do to the lists -/

/-- An item is inserted in front. -/
theorem Threaded.insert (h : l.Threaded) {item count : Nat} (hitem : item < l.next.size)
    (hcount : count < l.head.size) (hnew : l.countOf item = none) :
    (l.insert item count).Threaded ∧ ∀ c, (l.insert item count).items c =
      if c = count then item :: l.items c else l.items c := by
  have hc := countOf_insert item count h.toLinked hitem
  have hf := first_insert item count hcount
  have hn := nextOf_insert item count hitem
  have hnot : ∀ c, item ∉ l.items c := fun c hi => by
    rw [h.mem_items, hnew] at hi
    exact absurd hi nofun
  have hkeep : ∀ c, (l.insert item count).Chain (l.first c) (l.items c) := fun c =>
    (h.chain c).congr fun i hi => (hn i).trans (if_neg fun (e : i = item) => hnot c (e ▸ hi))
  refine (h.toLinked.insert item count hitem hcount hnew).threaded (fun c => ?_)
    (fun c => ?_) fun c i => ?_
  · rw [hf]
    split
    · rename_i he
      refine ⟨rfl, ?_⟩
      rw [hn, if_pos rfl]
      exact he ▸ hkeep c
    · exact hkeep c
  · split
    · exact List.nodup_cons.mpr ⟨hnot c, h.items_nodup c⟩
    · exact h.items_nodup c
  · rw [hc]
    by_cases hi : i = item
    · subst hi
      rw [if_pos rfl, Option.some.injEq]
      split
      · rename_i he
        exact ⟨fun _ => he.symm, fun _ => List.mem_cons_self⟩
      · rename_i he
        exact ⟨fun hi => absurd hi (hnot c), fun e => absurd e.symm he⟩
    · rw [if_neg hi, ← h.mem_items]
      split
      · rw [List.mem_cons, or_iff_right hi]
      · rfl

/-- An item is removed from where it is. -/
theorem Threaded.remove (h : l.Threaded) (item : Nat) : (l.remove item).Threaded ∧
    ∀ c, (l.remove item).items c = (l.items c).erase item := by
  cases hitem : l.countOf item with
  | none =>
    rw [remove_eq_self hitem]
    refine ⟨h, fun c => (List.erase_of_not_mem fun hi => ?_).symm⟩
    rw [h.mem_items, hitem] at hi
    exact absurd hi nofun
  | some count =>
    have hnext : ∀ c, ∀ i ∈ l.items c, i ≠ item → (l.remove item).nextOf i =
        if l.nextOf i = some item then l.nextOf item else l.nextOf i := by
      intro c i hi hne
      have hprevious : l.previousOf item = some i ↔ l.nextOf i = some item :=
        ⟨fun e => (h.previous item count i hitem e).2,
          fun e => (h.next i c item ((h.mem_items c i).mp hi) e).2⟩
      rw [nextOf_remove h.toLinked hitem, if_neg hne]
      exact if_congr hprevious rfl rfl
    refine (h.toLinked.remove_listed hitem).threaded (fun c => ?_)
      (fun c => (h.items_nodup c).erase item) fun c i => ?_
    · rw [first_remove h.toLinked hitem]
      exact (h.chain c).erase (h.items_nodup c) (hnext c)
    · rw [(h.items_nodup c).mem_erase_iff, h.mem_items, countOf_remove hitem]
      by_cases hi : i = item
      · rw [if_pos hi]
        exact ⟨fun e => absurd hi e.1, nofun⟩
      · rw [if_neg hi, and_iff_right hi]

/-- An item whose count changes moves to the front of another list. -/
theorem Threaded.update (h : l.Threaded) {item count : Nat} (hitem : item < l.next.size)
    (hcount : count < l.head.size) : (l.update item count).Threaded ∧
    ∀ c, (l.update item count).items c =
      if l.countOf item = some count then l.items c
      else if c = count then item :: (l.items c).erase item else (l.items c).erase item := by
  rw [CountBuckets.update]
  split
  · exact ⟨h, fun c => rfl⟩
  · obtain ⟨hremove, hitems⟩ := h.remove item
    have hnew : (l.remove item).countOf item = none := by
      rw [(h.toLinked.remove item).2, if_pos rfl]
    obtain ⟨hinsert, hitems'⟩ := hremove.insert ((l.sameSizes_remove item).next.symm ▸ hitem)
      ((l.sameSizes_remove item).head.symm ▸ hcount) hnew
    refine ⟨hinsert, fun c => ?_⟩
    rw [hitems', hitems]

/-! ## Counting several items -/

theorem Traversable.remove (h : l.Traversable n) (item : Nat) : (l.remove item).Traversable n :=
  (h.toWellFormed.remove item).1.traversable (h.threaded.remove item).1

theorem Traversable.update (h : l.Traversable n) {item count : Nat} (hitem : item < n)
    (hcount : count ≤ n) : (l.update item count).Traversable n := by
  have hitem' : item < l.next.size := h.size_next.symm ▸ hitem
  have hcount' : count < l.head.size := h.size_head.symm ▸ Nat.lt_succ_of_le hcount
  exact (h.toWellFormed.update hitem hcount).1.traversable (h.threaded.update hitem' hcount').1

theorem Traversable.foldl_update (h : l.Traversable n) (size : Nat → Nat) (items : List Nat)
    (hitems : ∀ j ∈ items, j < n ∧ size j ≤ n) :
    (items.foldl (fun l j => l.update j (size j)) l).Traversable n := by
  induction items generalizing l with
  | nil => exact h
  | cons j items ih =>
    have hj := hitems j List.mem_cons_self
    exact ih (h.update hj.1 hj.2) fun k hk => hitems k (List.mem_cons_of_mem j hk)

theorem traversable_foldr_insert (size : Nat → Nat) (items : List Nat) (hnodup : items.Nodup)
    (hitems : ∀ j ∈ items, j < n ∧ size j ≤ n) :
    (items.foldr (fun j l => l.insert j (size j)) (empty n n)).Traversable n := by
  refine (wellFormed_foldr_insert size items hnodup hitems).1.traversable ?_
  induction items with
  | nil => exact (threaded_empty n n).1
  | cons j items ih =>
    have hj := List.nodup_cons.mp hnodup
    have hlt := hitems j List.mem_cons_self
    have hrest := fun k hk => hitems k (List.mem_cons_of_mem j hk)
    obtain ⟨hw, hcount⟩ := wellFormed_foldr_insert size items hj.2 hrest
    refine ((ih hj.2 hrest).insert ?_ ?_ ?_).1
    · exact hw.size_next.symm ▸ hlt.1
    · exact hw.size_head.symm ▸ Nat.lt_succ_of_le hlt.2
    · rw [hcount, if_neg hj.1]

/-! ## Lines that are counted -/

/-- The lines in question are counted, and no others, each with its present size. -/
structure Counts (l : CountBuckets) (n : Nat) (isIn : Nat → Prop) (size : Nat → Nat) : Prop
    extends l.Traversable n where
  countOf_iff : ∀ i c, l.countOf i = some c ↔ isIn i ∧ size i = c

variable {isIn : Nat → Prop} {size : Nat → Nat}

theorem Counts.mem_items_iff (h : l.Counts n isIn size) {c i : Nat} :
    i ∈ l.items c ↔ isIn i ∧ size i = c :=
  (h.mem_items c i).trans (h.countOf_iff i c)

theorem Counts.congr (h : l.Counts n isIn size) {isIn' : Nat → Prop} {size' : Nat → Nat}
    (hin : ∀ i, isIn' i ↔ isIn i) (hsize : ∀ i, isIn i → size' i = size i) :
    l.Counts n isIn' size' := by
  refine ⟨h.toTraversable, fun i c => (h.countOf_iff i c).trans ?_⟩
  rw [hin]
  exact and_congr_right fun hi => by rw [hsize i hi]

theorem Counts.remove (h : l.Counts n isIn size) (item : Nat) :
    (l.remove item).Counts n (fun i => isIn i ∧ i ≠ item) size := by
  refine ⟨h.toTraversable.remove item, fun i c => ?_⟩
  rw [(h.toWellFormed.remove item).2]
  by_cases hi : i = item
  · rw [if_pos hi]
    exact ⟨nofun, fun e => absurd hi e.1.2⟩
  · rw [if_neg hi, h.countOf_iff, and_iff_left hi]

/-- It is enough to count the lines anew whose size has changed. -/
theorem Counts.foldl_update (h : l.Counts n isIn size) {size' : Nat → Nat} {items : List Nat}
    (hitems : ∀ i ∈ items, isIn i ∧ i < n ∧ size' i ≤ n)
    (hsame : ∀ i, isIn i → i ∉ items → size' i = size i) :
    (items.foldl (fun l j => l.update j (size' j)) l).Counts n isIn size' := by
  have hlt : ∀ i ∈ items, i < n ∧ size' i ≤ n := fun i hi => (hitems i hi).2
  refine ⟨h.toTraversable.foldl_update size' items hlt, fun i c => ?_⟩
  rw [(h.toWellFormed.foldl_update size' items hlt).2]
  by_cases hi : i ∈ items
  · rw [if_pos hi, Option.some.injEq, and_iff_right (hitems i hi).1]
  · rw [if_neg hi, h.countOf_iff]
    exact and_congr_right fun hin => by rw [hsame i hin hi]

theorem counts_foldr_insert (size : Nat → Nat) {items : List Nat} (hnodup : items.Nodup)
    (hitems : ∀ j ∈ items, j < n ∧ size j ≤ n) :
    (items.foldr (fun j l => l.insert j (size j)) (empty n n)).Counts n (· ∈ items) size := by
  refine ⟨traversable_foldr_insert size items hnodup hitems, fun i c => ?_⟩
  rw [(wellFormed_foldr_insert size items hnodup hitems).2]
  by_cases hi : i ∈ items
  · rw [if_pos hi, Option.some.injEq, and_iff_right hi]
  · rw [if_neg hi]
    exact ⟨nofun, fun e => absurd e.1 hi⟩

end CountBuckets
end DualSimplex
