import DualSimplex.Proofs.Lines

/-!
# Well-formed count buckets

The lists of the buckets are doubly linked, and an item knows the count that it
is listed under.  Inserting and removing items keep it so, which is what makes
sure that the item at the head of a list is an item of that list.

`Linked` says so for any number of items and any largest count.  The lines of a
square matrix have as many entries as there are lines at most, and `WellFormed`
is about these.
-/

namespace DualSimplex
namespace CountBuckets

def nextOf (l : CountBuckets) (item : Nat) : Option Nat :=
  l.next.getD item none

def previousOf (l : CountBuckets) (item : Nat) : Option Nat :=
  l.previous.getD item none

/-- Links that fit together.  There is a place for every item in each table, and a head for
every count that an item is listed under. -/
structure Linked (l : CountBuckets) : Prop where
  size_previous : l.previous.size = l.next.size
  size_count : l.count.size = l.next.size
  count_lt : ∀ i c, l.countOf i = some c → c < l.head.size
  first : ∀ c i, l.first c = some i → l.countOf i = some c ∧ l.previousOf i = none
  next : ∀ i c k, l.countOf i = some c → l.nextOf i = some k →
    l.countOf k = some c ∧ l.previousOf k = some i
  previous : ∀ i c k, l.countOf i = some c → l.previousOf i = some k →
    l.countOf k = some c ∧ l.nextOf k = some i
  head : ∀ i c, l.countOf i = some c → l.previousOf i = none → l.first c = some i

/-- The links of `n` items with counts up to `n`. -/
structure WellFormed (l : CountBuckets) (n : Nat) : Prop where
  size_head : l.head.size = n + 1
  size_next : l.next.size = n
  size_previous : l.previous.size = n
  size_count : l.count.size = n
  count_le : ∀ i c, l.countOf i = some c → c ≤ n
  first : ∀ c i, l.first c = some i → l.countOf i = some c ∧ l.previousOf i = none
  next : ∀ i c k, l.countOf i = some c → l.nextOf i = some k →
    l.countOf k = some c ∧ l.previousOf k = some i
  previous : ∀ i c k, l.countOf i = some c → l.previousOf i = some k →
    l.countOf k = some c ∧ l.nextOf k = some i
  head : ∀ i c, l.countOf i = some c → l.previousOf i = none → l.first c = some i

/-- The tables of one have the sizes of those of the other. -/
structure SameSizes (l l' : CountBuckets) : Prop where
  head : l'.head.size = l.head.size
  next : l'.next.size = l.next.size
  previous : l'.previous.size = l.previous.size
  count : l'.count.size = l.count.size

variable {l : CountBuckets} {n : Nat}

theorem SameSizes.trans {l' l'' : CountBuckets} (h : l.SameSizes l') (h' : l'.SameSizes l'') :
    l.SameSizes l'' :=
  ⟨h'.head.trans h.head, h'.next.trans h.next, h'.previous.trans h.previous,
    h'.count.trans h.count⟩

theorem wellFormed_iff :
    l.WellFormed n ↔ l.Linked ∧ l.head.size = n + 1 ∧ l.next.size = n := by
  constructor
  · intro h
    refine ⟨⟨?_, ?_, fun i c hi => ?_, h.first, h.next, h.previous, h.head⟩, h.size_head,
      h.size_next⟩
    · rw [h.size_previous, h.size_next]
    · rw [h.size_count, h.size_next]
    · rw [h.size_head]
      exact Nat.lt_succ_of_le (h.count_le i c hi)
  · rintro ⟨h, hhead, hnext⟩
    refine ⟨hhead, hnext, h.size_previous.trans hnext, h.size_count.trans hnext, fun i c hi => ?_,
      h.first, h.next, h.previous, h.head⟩
    have := h.count_lt i c hi
    omega

theorem WellFormed.linked (h : l.WellFormed n) : l.Linked :=
  (wellFormed_iff.mp h).1

/-- No operation changes the sizes, so only the links need to be looked at. -/
theorem WellFormed.of_linked {l' : CountBuckets} (h : l.WellFormed n) (h' : l'.Linked)
    (hsizes : l.SameSizes l') : l'.WellFormed n :=
  wellFormed_iff.mpr ⟨h', hsizes.head.trans h.size_head, hsizes.next.trans h.size_next⟩

theorem Linked.item_lt (h : l.Linked) {i c : Nat} (hi : l.countOf i = some c) :
    i < l.next.size := by
  by_contra hge
  rw [countOf, getD_of_size_le (by rw [h.size_count]; omega)] at hi
  exact absurd hi nofun

section Empty

variable (size maxCount : Nat)

theorem countOf_empty (i : Nat) : (empty size maxCount).countOf i = none := by
  rw [countOf, empty, getD_replicate, ite_self]

theorem first_empty (c : Nat) : (empty size maxCount).first c = none := by
  rw [CountBuckets.first, empty, getD_replicate, ite_self]

theorem nextOf_empty (i : Nat) : (empty size maxCount).nextOf i = none := by
  rw [nextOf, empty, getD_replicate, ite_self]

theorem previousOf_empty (i : Nat) : (empty size maxCount).previousOf i = none := by
  rw [previousOf, empty, getD_replicate, ite_self]

theorem size_head_empty : (empty size maxCount).head.size = maxCount + 1 :=
  Array.size_replicate

theorem size_next_empty : (empty size maxCount).next.size = size :=
  Array.size_replicate

theorem linked_empty : (empty size maxCount).Linked := by
  have hcount : ∀ i c, (empty size maxCount).countOf i ≠ some c := fun i c => by
    rw [countOf_empty]
    exact nofun
  have hfirst : ∀ c i, (empty size maxCount).first c ≠ some i := fun c i => by
    rw [first_empty]
    exact nofun
  exact {
    size_previous := Array.size_replicate.trans Array.size_replicate.symm
    size_count := Array.size_replicate.trans Array.size_replicate.symm
    count_lt := fun i c hi => absurd hi (hcount i c)
    first := fun c i hi => absurd hi (hfirst c i)
    next := fun i c _ hi => absurd hi (hcount i c)
    previous := fun i c _ hi => absurd hi (hcount i c)
    head := fun i c hi => absurd hi (hcount i c) }

end Empty

theorem wellFormed_empty (n : Nat) : (empty n n).WellFormed n :=
  wellFormed_iff.mpr ⟨linked_empty n n, size_head_empty n n, size_next_empty n n⟩

/-! ## Inserting -/

theorem sameSizes_insert (l : CountBuckets) (item count : Nat) :
    l.SameSizes (l.insert item count) := by
  refine ⟨Array.size_setIfInBounds, Array.size_setIfInBounds, ?_, Array.size_setIfInBounds⟩
  rw [insert]
  cases l.first count with
  | none => exact Array.size_setIfInBounds
  | some other => exact Array.size_setIfInBounds.trans Array.size_setIfInBounds

section Insert

variable (item count : Nat) (h : l.Linked)

include h

theorem countOf_insert (hitem : item < l.next.size) (i : Nat) :
    (l.insert item count).countOf i = if i = item then some count else l.countOf i := by
  have hlt : item < l.count.size := h.size_count.symm ▸ hitem
  exact (getD_setIfInBounds_of_lt hlt i _ none).trans (if_congr eq_comm rfl rfl)

omit h in
theorem first_insert (hcount : count < l.head.size) (c : Nat) :
    (l.insert item count).first c = if c = count then some item else l.first c :=
  (getD_setIfInBounds_of_lt hcount c _ none).trans (if_congr eq_comm rfl rfl)

omit h in
theorem nextOf_insert (hitem : item < l.next.size) (i : Nat) :
    (l.insert item count).nextOf i = if i = item then l.first count else l.nextOf i :=
  (getD_setIfInBounds_of_lt hitem i _ none).trans (if_congr eq_comm rfl rfl)

theorem previousOf_insert (i : Nat) : (l.insert item count).previousOf i =
    if l.first count = some i then some item else if i = item then none else l.previousOf i := by
  have hitem : (l.previous.setIfInBounds item none).getD i none =
      if i = item then none else l.previousOf i :=
    (getD_setIfInBounds_default ..).trans (if_congr eq_comm rfl rfl)
  rw [previousOf, insert]
  cases hfirst : l.first count with
  | none =>
    rw [if_neg nofun]
    exact hitem
  | some other =>
    have hother : other < (l.previous.setIfInBounds item none).size := by
      rw [Array.size_setIfInBounds, h.size_previous]
      exact h.item_lt (h.first count other hfirst).1
    show ((l.previous.setIfInBounds item none).setIfInBounds other (some item)).getD i none = _
    rw [getD_setIfInBounds_of_lt hother, hitem]
    exact if_congr (Option.some.injEq ..).symm.to_iff rfl rfl

/-- An item that is in no list may be put into any. -/
theorem Linked.insert (hitem : item < l.next.size) (hcount : count < l.head.size)
    (hnew : l.countOf item = none) : (l.insert item count).Linked := by
  have hc := countOf_insert item count h hitem
  have hf := first_insert item count hcount
  have hn := nextOf_insert item count hitem
  have hp := previousOf_insert item count h
  have hnot : ∀ i c, l.countOf i = some c → i ≠ item := by
    rintro i c hi rfl
    rw [hnew] at hi
    exact absurd hi nofun
  have hsizes := l.sameSizes_insert item count
  refine ⟨?_, ?_, ?_, ?_, ?_, ?_, ?_⟩
  · rw [hsizes.previous, hsizes.next, h.size_previous]
  · rw [hsizes.count, hsizes.next, h.size_count]
  · intro i c hi
    rw [hsizes.head]
    have := h.count_lt i c
    grind
  · intro c i hi
    have := h.first c i
    have := h.first count i
    grind
  · intro i c k hi hk
    have := h.next i c k
    have := h.first count k
    grind
  · intro i c k hi hk
    have := h.previous i c k
    have := h.first count i
    grind
  · intro i c hi hk
    have := h.head i c
    grind

end Insert

theorem WellFormed.insert (h : l.WellFormed n) {item count : Nat} (hitem : item < n)
    (hcount : count ≤ n) (hnew : l.countOf item = none) : (l.insert item count).WellFormed n := by
  have hitem' : item < l.next.size := h.size_next.symm ▸ hitem
  have hcount' : count < l.head.size := h.size_head.symm ▸ Nat.lt_succ_of_le hcount
  exact h.of_linked (h.linked.insert item count hitem' hcount' hnew)
    (l.sameSizes_insert item count)

/-! ## Removing -/

theorem remove_eq_self {item : Nat} (hnone : l.countOf item = none) : l.remove item = l := by
  rw [remove, hnone]

theorem sameSizes_remove (l : CountBuckets) (item : Nat) : l.SameSizes (l.remove item) := by
  rw [remove]
  cases l.countOf item with
  | none => exact ⟨rfl, rfl, rfl, rfl⟩
  | some count =>
    refine ⟨?_, ?_, ?_, Array.size_setIfInBounds⟩
    · cases l.previous.getD item none with
      | none => exact Array.size_setIfInBounds
      | some other => rfl
    · cases l.previous.getD item none with
      | none => exact Array.size_setIfInBounds
      | some other => exact Array.size_setIfInBounds.trans Array.size_setIfInBounds
    · cases l.next.getD item none with
      | none => exact Array.size_setIfInBounds
      | some other => exact Array.size_setIfInBounds.trans Array.size_setIfInBounds

section Remove

variable (h : l.Linked) {item count : Nat} (hitem : l.countOf item = some count)

include hitem

theorem countOf_remove (i : Nat) :
    (l.remove item).countOf i = if i = item then none else l.countOf i := by
  have hcount : (l.remove item).count = l.count.setIfInBounds item none := by
    rw [remove, hitem]
  rw [countOf, hcount]
  exact (getD_setIfInBounds_default ..).trans (if_congr eq_comm rfl rfl)

theorem head_remove : (l.remove item).head =
    match l.previousOf item with
    | some _ => l.head
    | none => l.head.setIfInBounds count (l.nextOf item) := by
  cases hbefore : l.previous.getD item none <;>
    simp [remove, hitem, previousOf, nextOf, hbefore]

theorem next_remove : (l.remove item).next =
    (match l.previousOf item with
    | some other => l.next.setIfInBounds other (l.nextOf item)
    | none => l.next).setIfInBounds item none := by
  cases hbefore : l.previous.getD item none <;>
    simp [remove, hitem, previousOf, nextOf, hbefore]

theorem previous_remove : (l.remove item).previous =
    (match l.nextOf item with
    | some other => l.previous.setIfInBounds other (l.previousOf item)
    | none => l.previous).setIfInBounds item none := by
  cases hbefore : l.previous.getD item none <;> cases hafter : l.next.getD item none <;>
    simp [remove, hitem, previousOf, nextOf, hbefore, hafter]

include h

theorem first_remove (c : Nat) : (l.remove item).first c =
    if l.first c = some item then l.nextOf item else l.first c := by
  rw [CountBuckets.first, head_remove hitem]
  cases hprevious : l.previousOf item with
  | some other =>
    rw [if_neg fun e => ?_]
    · rfl
    · rw [(h.first c item e).2] at hprevious
      exact absurd hprevious nofun
  | none =>
    have hfirst := h.head item count hitem hprevious
    have hlt : count < l.head.size := h.count_lt item count hitem
    show (l.head.setIfInBounds count (l.nextOf item)).getD c none = _
    rw [getD_setIfInBounds_of_lt hlt]
    by_cases hc : count = c
    · rw [if_pos hc, if_pos (hc ▸ hfirst)]
    · rw [if_neg hc, if_neg fun e => hc ?_]
      · rfl
      · have := (h.first c item e).1
        rw [hitem] at this
        exact Option.some.inj this

theorem nextOf_remove (i : Nat) : (l.remove item).nextOf i =
    if i = item then none else if l.previousOf item = some i then l.nextOf item
    else l.nextOf i := by
  rw [nextOf, next_remove hitem, getD_setIfInBounds_default]
  refine if_congr eq_comm rfl ?_
  cases hprevious : l.previousOf item with
  | none =>
    rw [if_neg nofun]
    rfl
  | some other =>
    have hother : other < l.next.size :=
      h.item_lt (h.previous item count other hitem hprevious).1
    exact (getD_setIfInBounds_of_lt hother ..).trans
      (if_congr (Option.some.injEq ..).symm.to_iff rfl rfl)

theorem previousOf_remove (i : Nat) : (l.remove item).previousOf i =
    if i = item then none else if l.nextOf item = some i then l.previousOf item
    else l.previousOf i := by
  rw [previousOf, previous_remove hitem, getD_setIfInBounds_default]
  refine if_congr eq_comm rfl ?_
  cases hnext : l.nextOf item with
  | none =>
    rw [if_neg nofun]
    rfl
  | some other =>
    have hother : other < l.previous.size :=
      h.size_previous.symm ▸ h.item_lt (h.next item count other hitem hnext).1
    exact (getD_setIfInBounds_of_lt hother ..).trans
      (if_congr (Option.some.injEq ..).symm.to_iff rfl rfl)

theorem Linked.remove_listed : (l.remove item).Linked := by
  have hc := countOf_remove hitem
  have hf := first_remove h hitem
  have hn := nextOf_remove h hitem
  have hp := previousOf_remove h hitem
  have hnext := h.next item count
  have hprevious := h.previous item count
  have hsizes := l.sameSizes_remove item
  refine ⟨?_, ?_, ?_, ?_, ?_, ?_, ?_⟩
  · rw [hsizes.previous, hsizes.next, h.size_previous]
  · rw [hsizes.count, hsizes.next, h.size_count]
  · intro i c hi
    rw [hsizes.head]
    have := h.count_lt i c
    grind
  · intro c i hi
    have := h.first c i
    have := h.first c item
    grind
  · intro i c k hi hk
    have := h.next i c k
    grind
  · intro i c k hi hk
    rw [hp] at hk
    have := h.previous i c k
    grind
  · intro i c hi hk
    rw [hp] at hk
    have := h.head i c
    have := h.head item count hitem
    have := h.first c item
    grind

end Remove

theorem Linked.remove (h : l.Linked) (item : Nat) : (l.remove item).Linked ∧
    ∀ i, (l.remove item).countOf i = if i = item then none else l.countOf i := by
  cases hitem : l.countOf item with
  | none =>
    rw [remove_eq_self hitem]
    refine ⟨h, fun i => ?_⟩
    split
    · rename_i hi
      rw [hi, hitem]
    · rfl
  | some count => exact ⟨h.remove_listed hitem, countOf_remove hitem⟩

theorem WellFormed.remove (h : l.WellFormed n) (item : Nat) : (l.remove item).WellFormed n ∧
    ∀ i, (l.remove item).countOf i = if i = item then none else l.countOf i := by
  obtain ⟨hlinked, hc⟩ := h.linked.remove item
  exact ⟨h.of_linked hlinked (l.sameSizes_remove item), hc⟩

/-! ## Listing anew -/

theorem update_eq_self {item count : Nat} (h : l.countOf item = some count) :
    l.update item count = l :=
  if_pos h

theorem sameSizes_update (l : CountBuckets) (item count : Nat) :
    l.SameSizes (l.update item count) := by
  rw [update]
  split
  · exact ⟨rfl, rfl, rfl, rfl⟩
  · exact (l.sameSizes_remove item).trans ((l.remove item).sameSizes_insert item count)

/-- Listing an item under a count, wherever it was listed before. -/
theorem Linked.update (h : l.Linked) {item count : Nat} (hitem : item < l.next.size)
    (hcount : count < l.head.size) : (l.update item count).Linked ∧
    ∀ i, (l.update item count).countOf i = if i = item then some count else l.countOf i := by
  rw [CountBuckets.update]
  split
  · rename_i he
    refine ⟨h, fun i => ?_⟩
    split
    · rename_i hi
      rw [hi, he]
    · rfl
  · obtain ⟨hlinked, hc⟩ := h.remove item
    have hsizes := l.sameSizes_remove item
    have hitem' : item < (l.remove item).next.size := hsizes.next.symm ▸ hitem
    have hcount' : count < (l.remove item).head.size := hsizes.head.symm ▸ hcount
    refine ⟨hlinked.insert item count hitem' hcount' (by rw [hc, if_pos rfl]), fun i => ?_⟩
    rw [countOf_insert item count hlinked hitem', hc]
    split
    · rfl
    · rfl

theorem WellFormed.update (h : l.WellFormed n) {item count : Nat} (hitem : item < n)
    (hcount : count ≤ n) : (l.update item count).WellFormed n ∧
    ∀ i, (l.update item count).countOf i = if i = item then some count else l.countOf i := by
  have hitem' : item < l.next.size := h.size_next.symm ▸ hitem
  have hcount' : count < l.head.size := h.size_head.symm ▸ Nat.lt_succ_of_le hcount
  obtain ⟨hlinked, hc⟩ := h.linked.update hitem' hcount'
  exact ⟨h.of_linked hlinked (l.sameSizes_update item count), hc⟩

/-- Whether an item is listed at all. -/
def Lists (l : CountBuckets) (item : Nat) : Prop :=
  ∃ count, l.countOf item = some count

theorem WellFormed.lists_remove (h : l.WellFormed n) (item : Nat) :
    (l.remove item).WellFormed n ∧ ∀ i, (l.remove item).Lists i ↔ l.Lists i ∧ i ≠ item := by
  obtain ⟨hw, hc⟩ := h.remove item
  refine ⟨hw, fun i => ?_⟩
  simp only [Lists, hc]
  by_cases hi : i = item
  · rw [if_pos hi]
    exact ⟨fun e => absurd e.choose_spec nofun, fun e => absurd hi e.2⟩
  · rw [if_neg hi]
    exact ⟨fun e => ⟨e, hi⟩, And.left⟩

/-- Every item that is counted anew has its new count. -/
theorem WellFormed.foldl_update (h : l.WellFormed n) (size : Nat → Nat) (items : List Nat)
    (hitems : ∀ j ∈ items, j < n ∧ size j ≤ n) :
    (items.foldl (fun l j => l.update j (size j)) l).WellFormed n ∧
    ∀ i, (items.foldl (fun l j => l.update j (size j)) l).countOf i =
      if i ∈ items then some (size i) else l.countOf i := by
  induction items generalizing l with
  | nil => exact ⟨h, fun i => (if_neg List.not_mem_nil).symm⟩
  | cons j items ih =>
    have hj := hitems j List.mem_cons_self
    obtain ⟨hw, hc⟩ := h.update hj.1 hj.2
    obtain ⟨hw', hc'⟩ := ih hw fun k hk => hitems k (List.mem_cons_of_mem j hk)
    refine ⟨hw', fun i => (hc' i).trans ?_⟩
    rw [hc]
    by_cases hi : i = j
    · subst hi
      rw [if_pos rfl, if_pos List.mem_cons_self, ite_self]
    · rw [if_neg hi]
      exact if_congr (by rw [List.mem_cons, or_iff_right hi]) rfl rfl

theorem WellFormed.lists_foldl_update (h : l.WellFormed n) (size : Nat → Nat) (items : List Nat)
    (hitems : ∀ j ∈ items, j < n ∧ size j ≤ n) :
    (items.foldl (fun l j => l.update j (size j)) l).WellFormed n ∧
    ∀ i, (items.foldl (fun l j => l.update j (size j)) l).Lists i ↔ l.Lists i ∨ i ∈ items := by
  obtain ⟨hw, hc⟩ := h.foldl_update size items hitems
  refine ⟨hw, fun i => ?_⟩
  simp only [Lists, hc]
  by_cases hi : i ∈ items
  · rw [if_pos hi]
    exact ⟨fun _ => Or.inr hi, fun _ => ⟨size i, rfl⟩⟩
  · rw [if_neg hi, or_iff_left hi]

/-- Inserting items that are not listed so far. -/
theorem wellFormed_foldr_insert (size : Nat → Nat) (items : List Nat) (hnodup : items.Nodup)
    (hitems : ∀ j ∈ items, j < n ∧ size j ≤ n) :
    (items.foldr (fun j l => l.insert j (size j)) (empty n n)).WellFormed n ∧
    ∀ i, (items.foldr (fun j l => l.insert j (size j)) (empty n n)).countOf i =
      if i ∈ items then some (size i) else none := by
  induction items with
  | nil =>
    refine ⟨wellFormed_empty n, fun i => ?_⟩
    rw [if_neg List.not_mem_nil, List.foldr_nil, countOf_empty]
  | cons j items ih =>
    have hj := List.nodup_cons.mp hnodup
    have hlt := hitems j List.mem_cons_self
    obtain ⟨hw, hc⟩ := ih hj.2 fun k hk => hitems k (List.mem_cons_of_mem j hk)
    rw [List.foldr_cons]
    refine ⟨hw.insert hlt.1 hlt.2 ((hc j).trans (if_neg hj.1)), fun i => ?_⟩
    rw [countOf_insert j (size j) hw.linked (hw.size_next.symm ▸ hlt.1), hc]
    by_cases hi : i = j
    · subst hi
      rw [if_pos rfl, if_pos List.mem_cons_self]
    · rw [if_neg hi]
      exact if_congr (by rw [List.mem_cons, or_iff_right hi]) rfl rfl

theorem lists_foldr_insert (size : Nat → Nat) (items : List Nat) (hnodup : items.Nodup)
    (hitems : ∀ j ∈ items, j < n ∧ size j ≤ n) :
    (items.foldr (fun j l => l.insert j (size j)) (empty n n)).WellFormed n ∧
    ∀ i, (items.foldr (fun j l => l.insert j (size j)) (empty n n)).Lists i ↔ i ∈ items := by
  obtain ⟨hw, hc⟩ := wellFormed_foldr_insert size items hnodup hitems
  refine ⟨hw, fun i => ?_⟩
  simp only [Lists, hc]
  by_cases hi : i ∈ items
  · rw [if_pos hi]
    exact ⟨fun _ => hi, fun _ => ⟨size i, rfl⟩⟩
  · rw [if_neg hi]
    exact ⟨fun e => absurd e.choose_spec nofun, fun e => absurd e hi⟩

end CountBuckets
end DualSimplex
