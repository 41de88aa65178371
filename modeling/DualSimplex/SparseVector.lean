import DualSimplex.Scalar
import DualSimplex.Decimal.Layout

/-!
# Sparse vectors

A vector keeps every value in a dense array and beside it the list of the
positions that may be nonzero, so that it can be read sparsely when it has few
nonzeros and densely otherwise.

Between operations the list names every position that holds a nonzero once.
The order of the list is that in which the positions became nonzero.
-/

namespace DualSimplex

open Scalar

/-- A dense array with the list of its nonzero positions. -/
structure SparseVector (α : Type) where
  values : Array α
  support : List Nat
  /-- The entries by increasing position, as of the last `pack`. -/
  packed : List (Nat × α)
  /-- The share of positions up to which the vector counts as sparse. -/
  density : Float
  /-- How many entries have been touched in making the vector. -/
  ticks : Float

namespace SparseVector

variable {α : Type} [Scalar α]

/-- The zero vector of a dimension. -/
def zero (dim : Nat) (density : Float) : SparseVector α where
  values := Array.replicate dim 0
  support := []
  packed := []
  density := density
  ticks := 0

/-- The share of positions up to which sparse sweeps are worth their overhead. -/
def defaultDensity : Float := 0.1

def dim (v : SparseVector α) : Nat :=
  v.values.size

/-- The number of listed positions. -/
def count (v : SparseVector α) : Nat :=
  v.support.length

def get (v : SparseVector α) (i : Nat) : α :=
  v.values.getD i 0

/-- The listed positions with their values. -/
def entries (v : SparseVector α) : List (Nat × α) :=
  v.support.map fun i => (i, v.get i)

/-- Whether work on that many entries should be done sparsely.  Nothing else
consults the density. -/
def isSparse (v : SparseVector α) (count : Nat) : Bool :=
  Float.ofNat count ≤ v.density * Float.ofNat v.dim

def addTicks (v : SparseVector α) (ticks : Float) : SparseVector α :=
  { v with ticks := v.ticks + ticks }

/-- Put a value at a position, whether listed or not. -/
def put (v : SparseVector α) (i : Nat) (x : α) : SparseVector α :=
  { v with values := v.values.setIfInBounds i x }

/-- Set one position of a vector that is zero. -/
def setOnly (v : SparseVector α) (i : Nat) (x : α) : SparseVector α :=
  { v.put i x with support := v.support ++ [i] }

/-- Add a value to a position, which is listed if it was zero. -/
def add (v : SparseVector α) (i : Nat) (x : α) : SparseVector α :=
  if x == 0 then v
  else
    let before := v.get i
    let after := before + x
    let support := if before == 0 then v.support ++ [i] else v.support
    { v.put i (if after == 0 then cancelled else after) with support := support }

/-- Add terms one after the other. -/
def addAll (v : SparseVector α) (terms : List (Nat × α)) : SparseVector α :=
  terms.foldl (fun v t => v.add t.1 t.2) v

/-- The vector with the given terms, of which those at one position are added
up. -/
def ofTerms (dim : Nat) (terms : List (Nat × α)) : SparseVector α :=
  (zero dim defaultDensity).addAll terms

/-- The vector with the same dimension and density in which all is zero. -/
def clear (v : SparseVector α) : SparseVector α :=
  let values :=
    if v.isSparse v.count then v.support.foldl (fun a i => a.setIfInBounds i 0) v.values
    else v.values.map fun _ => 0
  { v with values := values, support := [], packed := [], ticks := 0 }

/-- One step of `saxpy`, with the news whether a listed position cancelled. -/
def saxpyAt (alpha : α) (other : SparseVector α) (s : SparseVector α × Bool) (i : Nat) :
    SparseVector α × Bool :=
  let (v, cancelled) := s
  let before := v.get i
  let after := before + alpha * other.get i
  if before == 0 then
    if isSignificant after then ({ v.put i after with support := v.support ++ [i] }, cancelled)
    else s
  else if isTiny after then (v.put i 0, true)
  else (v.put i after, cancelled)

/-- Add a multiple of another vector.  Positions where less than a tiny value
is left are taken off the list. -/
def saxpy (v : SparseVector α) (alpha : α) (other : SparseVector α) : SparseVector α :=
  let (w, cancelled) := other.support.foldl (saxpyAt alpha other) (v, false)
  let support := if cancelled then w.support.filter fun i => !(w.get i == 0) else w.support
  { w with support := support }.addTicks (Float.ofNat other.count)

/-- Zero the tiny entries and take them off the list. -/
def dropTiny (v : SparseVector α) : SparseVector α :=
  let dropped := v.support.filter fun i => isTiny (v.get i)
  { v with
    values := dropped.foldl (fun a i => a.setIfInBounds i 0) v.values
    support := v.support.filter fun i => !isTiny (v.get i) }

/-- Take a copy of the entries by increasing position, after `dropTiny`. -/
def pack (v : SparseVector α) : SparseVector α :=
  let v := v.dropTiny
  { v with packed := (v.support.mergeSort (· ≤ ·)).map fun i => (i, v.get i) }

/-- Make the list anew from the dense array, zeroing the tiny values. -/
def reindex (v : SparseVector α) : SparseVector α :=
  { v with
    values := v.values.map fun x => if isTiny x then 0 else x
    support := (List.range v.dim).filter fun i => !isTiny (v.get i) }.addTicks (Float.ofNat v.dim)

/-- The sum of the squared entries. -/
def normSquared (v : SparseVector α) : α :=
  v.support.foldl (fun total i => total + v.get i * v.get i) 0

/-- The largest magnitude of an entry. -/
def maxAbs (v : SparseVector α) : α :=
  Scalar.maxAbs (v.entries.map Prod.snd)

/-- Multiply every entry by a factor. -/
def scale (v : SparseVector α) (factor : α) : SparseVector α :=
  v.support.foldl (fun w i => w.put i (w.get i * factor)) v

/-- Take over the entries and the work of another vector. -/
def assign (v other : SparseVector α) : SparseVector α :=
  let v := v.clear
  { v with
    values := other.support.foldl (fun a i => a.setIfInBounds i (other.get i)) v.values
    support := other.support
    ticks := other.ticks }

/-- Whether two vectors agree in every field, the work done on them included. -/
def same (v w : SparseVector α) : Bool :=
  v.values == w.values && v.support == w.support && v.packed == w.packed
    && v.density == w.density && v.ticks == w.ticks

/-- The text of a vector: its dimension and its entries by increasing
position. -/
def format [Binary.Encoded α] (v : SparseVector α) : String :=
  let entry := fun i => toString i ++ ": " ++ Decimal.Layout.plain.format (v.get i)
  let entries := (v.support.mergeSort (· ≤ ·)).map entry
  "IndexedVector(" ++ toString v.dim ++ "; " ++ ", ".intercalate entries ++ ")"

end SparseVector
end DualSimplex
