/-!
# Count buckets

The lines of a matrix, grouped by how many entries they have.  A group is a
linked list, so that a line can move to another group without a search.
-/

namespace DualSimplex

/-- A linked list for every count, of items that are in at most one of them.
An item that is in none has no `count`. -/
structure CountBuckets where
  head : Array (Option Nat)
  next : Array (Option Nat)
  previous : Array (Option Nat)
  count : Array (Option Nat)

namespace CountBuckets

/-- Empty lists for that many items, with counts up to a largest. -/
def empty (size maxCount : Nat) : CountBuckets where
  head := Array.replicate (maxCount + 1) none
  next := Array.replicate size none
  previous := Array.replicate size none
  count := Array.replicate size none

/-- The item at the head of a list. -/
def first (l : CountBuckets) (count : Nat) : Option Nat :=
  l.head.getD count none

/-- The count under which an item is listed. -/
def countOf (l : CountBuckets) (item : Nat) : Option Nat :=
  l.count.getD item none

/-- Put an item that is in no list in front of those with a count. -/
def insert (l : CountBuckets) (item count : Nat) : CountBuckets :=
  let first := l.first count
  { head := l.head.setIfInBounds count (some item)
    next := l.next.setIfInBounds item first
    previous :=
      let previous := l.previous.setIfInBounds item none
      match first with
      | some other => previous.setIfInBounds other (some item)
      | none => previous
    count := l.count.setIfInBounds item (some count) }

/-- Take an item out of its list, if it is in one. -/
def remove (l : CountBuckets) (item : Nat) : CountBuckets :=
  match l.countOf item with
  | none => l
  | some count =>
    let before := l.previous.getD item none
    let after := l.next.getD item none
    let (head, next) :=
      match before with
      | some other => (l.head, l.next.setIfInBounds other after)
      | none => (l.head.setIfInBounds count after, l.next)
    let previous :=
      match after with
      | some other => l.previous.setIfInBounds other before
      | none => l.previous
    { head := head
      next := next.setIfInBounds item none
      previous := previous.setIfInBounds item none
      count := l.count.setIfInBounds item none }

/-- List an item under a count.  It keeps its place if it has that count. -/
def update (l : CountBuckets) (item count : Nat) : CountBuckets :=
  if l.countOf item = some count then l else (l.remove item).insert item count

/-- The items from one on, as far as the fuel lasts. -/
def follow (l : CountBuckets) : Nat → Option Nat → List Nat
  | 0, _ => []
  | _ + 1, none => []
  | fuel + 1, some item => item :: l.follow fuel (l.next.getD item none)

/-- The items with a count, in the order of their list.  No list is longer than
there are items. -/
def items (l : CountBuckets) (count : Nat) : List Nat :=
  l.follow l.next.size (l.first count)

end CountBuckets
end DualSimplex
