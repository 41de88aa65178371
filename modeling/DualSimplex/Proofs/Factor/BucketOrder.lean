import DualSimplex.Proofs.Factor.CountLists

/-!
# The order in count buckets

Whatever has been done to count buckets, going through a list comes to an end, and meets the
items with that count once, those first that have come into the list last.  An update to
the count that an item has does not bring it to the front, so what orders a list is not
when its items were last named, but when they were last placed.
-/

namespace DualSimplex
namespace CountBuckets

/-- The operations that change count buckets. -/
inductive Operation
  | insert (item count : Nat)
  | remove (item : Nat)
  | update (item count : Nat)

namespace Operation

def apply (l : CountBuckets) : Operation → CountBuckets
  | insert item count => l.insert item count
  | remove item => l.remove item
  | update item count => l.update item count

/-- Items and counts are within range, and what is inserted is in no list.  An item that is
removed or updated may be in any or in none. -/
def Admissible (size maxCount : Nat) (l : CountBuckets) : Operation → Prop
  | insert item count => item < size ∧ count ≤ maxCount ∧ l.countOf item = none
  | remove item => item < size
  | update item count => item < size ∧ count ≤ maxCount

instance (size maxCount : Nat) (l : CountBuckets) (op : Operation) :
    Decidable (op.Admissible size maxCount l) :=
  match op with
  | insert item count =>
    inferInstanceAs (Decidable (item < size ∧ count ≤ maxCount ∧ l.countOf item = none))
  | remove item => inferInstanceAs (Decidable (item < size))
  | update item count => inferInstanceAs (Decidable (item < size ∧ count ≤ maxCount))

/-- The item that an operation is about. -/
def item : Operation → Nat
  | insert item _ => item
  | remove item => item
  | update item _ => item

/-- The count that this item has afterwards. -/
def count : Operation → Option Nat
  | insert _ count => some count
  | remove _ => none
  | update _ count => some count

end Operation

/-- What operations, the latest of which comes first, make of empty buckets. -/
inductive Operated (size maxCount : Nat) : List Operation → CountBuckets → Prop
  | empty : Operated size maxCount [] (empty size maxCount)
  | operate {ops : List Operation} {l : CountBuckets} (h : Operated size maxCount ops l)
    (op : Operation) (hop : op.Admissible size maxCount l) :
    Operated size maxCount (op :: ops) (op.apply l)

/-- The count of an item after its latest operation. -/
def countAfter (ops : List Operation) (i : Nat) : Option Nat :=
  (ops.find? fun op => op.item = i).bind Operation.count

/-- Whether an operation puts its item in front of a list, after these operations. -/
def Operation.places (ops : List Operation) : Operation → Bool
  | insert _ _ => true
  | remove _ => false
  | update item count => countAfter ops item ≠ some count

/-- The number of operations up to the one that has last put an item in front of a list. -/
def placedAt : List Operation → Nat → Nat
  | [], _ => 0
  | op :: ops, i => if op.item = i ∧ op.places ops = true then ops.length + 1 else placedAt ops i

/-! ## Going through a list -/

variable {l : CountBuckets}

theorem Chain.iterate_eq {start : Option Nat} {items : List Nat} (h : l.Chain start items)
    (k : Nat) : (fun i => i.bind l.nextOf)^[k] start = items[k]? := by
  induction items generalizing start k with
  | nil =>
    rw [show start = none from h, List.getElem?_nil]
    exact Function.iterate_fixed rfl k
  | cons i items ih =>
    rw [h.1]
    cases k with
    | zero => rfl
    | succ k =>
      rw [Function.iterate_succ_apply, List.getElem?_cons_succ]
      exact ih h.2 k

/-! ## Items in no list -/

/-- An item that is in no list has no neighbours. -/
def UnlistedAlone (l : CountBuckets) : Prop :=
  ∀ i, l.countOf i = none → l.nextOf i = none ∧ l.previousOf i = none

theorem unlistedAlone_empty (size maxCount : Nat) : (empty size maxCount).UnlistedAlone :=
  fun i _ => ⟨nextOf_empty size maxCount i, previousOf_empty size maxCount i⟩

theorem UnlistedAlone.insert (halone : l.UnlistedAlone) (h : l.Linked) {item count : Nat}
    (hitem : item < l.next.size) : (l.insert item count).UnlistedAlone := by
  intro i hi
  rw [countOf_insert item count h hitem] at hi
  by_cases he : i = item
  · rw [if_pos he] at hi
    exact absurd hi (Option.some_ne_none count)
  · rw [if_neg he] at hi
    have hfirst : l.first count ≠ some i := fun e => nomatch hi.symm.trans (h.first count i e).1
    rw [nextOf_insert item count hitem, previousOf_insert item count h, if_neg he, if_neg hfirst,
      if_neg he]
    exact halone i hi

theorem UnlistedAlone.remove (halone : l.UnlistedAlone) (h : l.Linked) (item : Nat) :
    (l.remove item).UnlistedAlone := by
  cases hitem : l.countOf item with
  | none => rwa [remove_eq_self hitem]
  | some count =>
    intro i hi
    rw [nextOf_remove h hitem, previousOf_remove h hitem]
    by_cases he : i = item
    · rw [if_pos he, if_pos he]
      exact ⟨rfl, rfl⟩
    · rw [countOf_remove hitem, if_neg he] at hi
      have hprevious : l.previousOf item ≠ some i := fun e =>
        nomatch hi.symm.trans (h.previous item count i hitem e).1
      have hnext : l.nextOf item ≠ some i := fun e =>
        nomatch hi.symm.trans (h.next item count i hitem e).1
      rw [if_neg he, if_neg he, if_neg hprevious, if_neg hnext]
      exact halone i hi

theorem UnlistedAlone.update (halone : l.UnlistedAlone) (h : l.Linked) {item count : Nat}
    (hitem : item < l.next.size) : (l.update item count).UnlistedAlone := by
  rw [CountBuckets.update]
  split
  · exact halone
  · refine (halone.remove h item).insert (h.remove item).1 ?_
    rwa [(l.sameSizes_remove item).next]

theorem UnlistedAlone.lists_of_nextOf (halone : l.UnlistedAlone) {i k : Nat}
    (hk : l.nextOf i = some k) : l.Lists i := by
  refine Option.ne_none_iff_exists'.mp fun hi => ?_
  rw [(halone i hi).1] at hk
  exact absurd hk nofun

theorem UnlistedAlone.lists_of_previousOf (halone : l.UnlistedAlone) {i k : Nat}
    (hk : l.previousOf i = some k) : l.Lists i := by
  refine Option.ne_none_iff_exists'.mp fun hi => ?_
  rw [(halone i hi).2] at hk
  exact absurd hk nofun

/-- Links of items in lists lead to and fro, and there are no others. -/
theorem UnlistedAlone.nextOf_eq_some_iff (halone : l.UnlistedAlone) (h : l.Linked) {i k : Nat} :
    l.nextOf i = some k ↔ l.previousOf k = some i := by
  constructor
  · intro hk
    obtain ⟨c, hi⟩ := halone.lists_of_nextOf hk
    exact (h.next i c k hi hk).2
  · intro hi
    obtain ⟨c, hk⟩ := halone.lists_of_previousOf hi
    exact (h.previous k c i hk hi).2

/-! ## Histories -/

variable {ops : List Operation} {op : Operation} {items : List Nat} {i : Nat}

theorem countAfter_cons (op : Operation) (ops : List Operation) (i : Nat) :
    countAfter (op :: ops) i = if i = op.item then op.count else countAfter ops i := by
  rw [countAfter, List.find?_cons]
  by_cases h : i = op.item
  · rw [if_pos h, decide_eq_true h.symm]
    rfl
  · rw [if_neg h, decide_eq_false fun e => h e.symm]
    rfl

theorem placedAt_le (ops : List Operation) (i : Nat) : placedAt ops i ≤ ops.length := by
  induction ops with
  | nil => exact le_rfl
  | cons op ops ih =>
    rw [placedAt]
    split
    · exact le_rfl
    · exact ih.trans (Nat.le_succ _)

theorem placedAt_of_ne (h : i ≠ op.item) : placedAt (op :: ops) i = placedAt ops i :=
  if_neg fun e => h e.1.symm

theorem placedAt_of_places (h : op.places ops = true) :
    placedAt (op :: ops) op.item = ops.length + 1 :=
  if_pos ⟨rfl, h⟩

theorem placedAt_of_not_places (h : op.places ops = false) :
    placedAt (op :: ops) i = placedAt ops i :=
  if_neg fun e => Bool.false_ne_true (h.symm.trans e.2)

/-- The item that comes first in a list has been placed last. -/
def NewestFirst (ops : List Operation) (items : List Nat) : Prop :=
  items.Pairwise fun i j => placedAt ops j < placedAt ops i

/-- A list in which an operation leaves its item out keeps its order. -/
theorem NewestFirst.cons_of_notMem (h : NewestFirst ops items) (op : Operation)
    (hop : op.item ∉ items) : NewestFirst (op :: ops) items :=
  h.imp_of_mem fun {i j} hi hj hlt => by
    rwa [placedAt_of_ne (ne_of_mem_of_not_mem hi hop),
      placedAt_of_ne (ne_of_mem_of_not_mem hj hop)]

theorem NewestFirst.cons_of_places (h : NewestFirst ops items) (op : Operation)
    (hplaces : op.places ops = true) (hop : op.item ∉ items) :
    NewestFirst (op :: ops) (op.item :: items) := by
  refine List.pairwise_cons.mpr ⟨fun j hj => ?_, h.cons_of_notMem op hop⟩
  rw [placedAt_of_places hplaces, placedAt_of_ne (ne_of_mem_of_not_mem hj hop)]
  exact Nat.lt_succ_of_le (placedAt_le ops j)

theorem NewestFirst.cons_of_not_places (h : NewestFirst ops items) (op : Operation)
    (hplaces : op.places ops = false) : NewestFirst (op :: ops) items :=
  h.imp fun {i j} hlt => by
    rwa [placedAt_of_not_places hplaces, placedAt_of_not_places hplaces]

/-! ## Sequences of operations -/

variable {size maxCount : Nat}

/-- What operations keep: the counts and the order are those of the history. -/
structure Ordered (size maxCount : Nat) (ops : List Operation) (l : CountBuckets) : Prop
    extends l.Threaded where
  size_head : l.head.size = maxCount + 1
  size_next : l.next.size = size
  alone : l.UnlistedAlone
  countOf_eq : ∀ i, l.countOf i = countAfter ops i
  newestFirst : ∀ c, NewestFirst ops (l.items c)

theorem ordered_empty (size maxCount : Nat) :
    Ordered size maxCount [] (empty size maxCount) where
  toThreaded := (threaded_empty size maxCount).1
  size_head := size_head_empty size maxCount
  size_next := size_next_empty size maxCount
  alone := unlistedAlone_empty size maxCount
  countOf_eq := countOf_empty size maxCount
  newestFirst c := by
    rw [(threaded_empty size maxCount).2]
    exact List.Pairwise.nil

section Steps

variable (h : Ordered size maxCount ops l) {item count : Nat}

include h

theorem Ordered.insert (hitem : item < size) (hcount : count ≤ maxCount)
    (hnew : l.countOf item = none) :
    Ordered size maxCount (.insert item count :: ops) (l.insert item count) := by
  have hitem' : item < l.next.size := h.size_next.symm ▸ hitem
  have hcount' : count < l.head.size := h.size_head.symm ▸ Nat.lt_succ_of_le hcount
  obtain ⟨hthreaded, hitems⟩ := h.toThreaded.insert hitem' hcount' hnew
  have hnot : ∀ c, item ∉ l.items c := fun c hi => by
    rw [h.mem_items, hnew] at hi
    exact absurd hi nofun
  refine ⟨hthreaded, (l.sameSizes_insert item count).head.trans h.size_head,
    (l.sameSizes_insert item count).next.trans h.size_next, h.alone.insert h.toLinked hitem',
    fun i => ?_, fun c => ?_⟩
  · rw [countOf_insert item count h.toLinked hitem', countAfter_cons, h.countOf_eq]
    rfl
  · rw [hitems]
    split
    · exact (h.newestFirst c).cons_of_places (.insert item count) rfl (hnot c)
    · exact (h.newestFirst c).cons_of_notMem (.insert item count) (hnot c)

theorem Ordered.remove (item : Nat) :
    Ordered size maxCount (.remove item :: ops) (l.remove item) := by
  obtain ⟨hthreaded, hitems⟩ := h.toThreaded.remove item
  refine ⟨hthreaded, (l.sameSizes_remove item).head.trans h.size_head,
    (l.sameSizes_remove item).next.trans h.size_next, h.alone.remove h.toLinked item,
    fun i => ?_, fun c => ?_⟩
  · rw [(h.toLinked.remove item).2, countAfter_cons, h.countOf_eq]
    rfl
  · rw [hitems]
    have hsub : NewestFirst ops ((l.items c).erase item) :=
      (h.newestFirst c).sublist List.erase_sublist
    exact hsub.cons_of_not_places (.remove item) rfl

theorem Ordered.update (hitem : item < size) (hcount : count ≤ maxCount) :
    Ordered size maxCount (.update item count :: ops) (l.update item count) := by
  have hitem' : item < l.next.size := h.size_next.symm ▸ hitem
  have hcount' : count < l.head.size := h.size_head.symm ▸ Nat.lt_succ_of_le hcount
  obtain ⟨hthreaded, hitems⟩ := h.toThreaded.update hitem' hcount'
  refine ⟨hthreaded, (l.sameSizes_update item count).head.trans h.size_head,
    (l.sameSizes_update item count).next.trans h.size_next, h.alone.update h.toLinked hitem',
    fun i => ?_, fun c => ?_⟩
  · rw [(h.toLinked.update hitem' hcount').2, countAfter_cons, h.countOf_eq]
    rfl
  · rw [hitems]
    by_cases hsame : l.countOf item = some count
    · have hplaces : Operation.places ops (.update item count) = false :=
        decide_eq_false (not_not.mpr (h.countOf_eq item ▸ hsame))
      rw [if_pos hsame]
      exact (h.newestFirst c).cons_of_not_places _ hplaces
    · have hplaces : Operation.places ops (.update item count) = true :=
        decide_eq_true (h.countOf_eq item ▸ hsame)
      have hsub : NewestFirst ops ((l.items c).erase item) :=
        (h.newestFirst c).sublist List.erase_sublist
      have hnot : item ∉ (l.items c).erase item := fun hi =>
        ((h.items_nodup c).mem_erase_iff.mp hi).1 rfl
      rw [if_neg hsame]
      split
      · exact hsub.cons_of_places _ hplaces hnot
      · exact hsub.cons_of_notMem (.update item count) hnot

theorem Ordered.apply (hop : op.Admissible size maxCount l) :
    Ordered size maxCount (op :: ops) (op.apply l) := by
  cases op with
  | insert item count => exact h.insert hop.1 hop.2.1 hop.2.2
  | remove item => exact h.remove item
  | update item count => exact h.update hop.1 hop.2

end Steps

theorem Operated.ordered (h : Operated size maxCount ops l) : Ordered size maxCount ops l := by
  induction h with
  | empty => exact ordered_empty size maxCount
  | operate _ _ hop ih => exact ih.apply hop

/-- Whatever has been done, the links from the head of a list lead through all the items that
have this count since their latest operation, once through each, from the newest to the oldest
in the list, and then end.  The links back are the inverse, all are between listed items, and
these are within range.  What is not listed is not removed, and what has its count stays where
it is. -/
theorem Operated.items_newest_first (h : Operated size maxCount ops l) :
    (∀ c k, (fun i => i.bind l.nextOf)^[k] (l.first c) = (l.items c)[k]?) ∧
    (∀ i, l.countOf i = countAfter ops i) ∧
    (∀ c i, i ∈ l.items c ↔ l.countOf i = some c) ∧
    (∀ c, (l.items c).Nodup ∧ NewestFirst ops (l.items c)) ∧
    (∀ i k, l.nextOf i = some k ↔ l.previousOf k = some i) ∧
    (∀ i k, l.nextOf i = some k → ∃ c, i ∈ l.items c ∧ k ∈ l.items c) ∧
    (∀ c, ∀ i ∈ l.items c, i < size ∧ c ≤ maxCount) ∧
    (∀ i, l.countOf i = none → l.remove i = l) ∧
    ∀ i c, l.countOf i = some c → l.update i c = l := by
  have hordered := h.ordered
  refine ⟨fun c => (hordered.chain c).iterate_eq, hordered.countOf_eq, hordered.mem_items,
    fun c => ⟨hordered.items_nodup c, hordered.newestFirst c⟩,
    fun _ _ => hordered.alone.nextOf_eq_some_iff hordered.toLinked, fun i k hk => ?_,
    fun c i hi => ?_, fun _ => remove_eq_self, fun _ _ => update_eq_self⟩
  · obtain ⟨c, hi⟩ := hordered.alone.lists_of_nextOf hk
    have hcount := (hordered.next i c k hi hk).1
    exact ⟨c, (hordered.mem_items c i).mpr hi, (hordered.mem_items c k).mpr hcount⟩
  · have hcount := (hordered.mem_items c i).mp hi
    have hlt := hordered.count_lt i c hcount
    rw [hordered.size_head] at hlt
    exact ⟨hordered.size_next ▸ hordered.item_lt hcount, Nat.le_of_lt_succ hlt⟩

/-- Four items are listed under one count, of which one is updated in vain, one moves, and one
is removed and comes back. -/
def shuffled : List Operation :=
  [.insert 0 2, .remove 0, .remove 4, .update 2 1, .update 1 2,
    .insert 3 2, .insert 2 2, .insert 1 2, .insert 0 2]

theorem items_newest_first_shuffled :
    let l := shuffled.foldr (fun op l => op.apply l) (empty 5 3)
    Operated 5 3 shuffled l ∧ l.items 2 = [0, 3, 1] ∧
      [0, 3, 1].map (placedAt shuffled) = [9, 4, 2] ∧
      (fun i => i.bind l.nextOf)^[3] (l.first 2) = none ∧ l.previousOf 3 = some 0 := by
  intro l
  have hoperated : Operated 5 3 shuffled l := by
    refine .operate (.operate (.operate (.operate (.operate (.operate (.operate (.operate
      (.operate .empty _ ?_) _ ?_) _ ?_) _ ?_) _ ?_) _ ?_) _ ?_) _ ?_) _ ?_
    all_goals decide +kernel
  have hitems : l.items 2 = [0, 3, 1] := by decide +kernel
  obtain ⟨htraversal, -, -, -, hinverse, -⟩ := hoperated.items_newest_first
  refine ⟨hoperated, hitems, by decide, ?_, (hinverse 0 3).mp (by decide +kernel)⟩
  rw [htraversal, hitems]
  rfl

end CountBuckets
end DualSimplex
