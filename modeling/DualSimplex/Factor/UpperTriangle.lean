import DualSimplex.Factor.Active

/-!
# Upper triangles

A column of the upper factor lives in a slot, and the factor is triangular in
the order of the slots.  The row of its diagonal value is the label of a slot.
A replaced column leaves an empty slot behind and goes to a new one at the end,
under the same label, so that the order never has to be changed.
-/

namespace DualSimplex

open Scalar

/-- The triangle with a column-wise and a row-wise copy of the entries off its
diagonal. -/
structure UpperTriangle (α : Type) where
  /-- By slot, its entries as label and value. -/
  columns : Array (List (Nat × α))
  /-- By label, its entries as slot and value. -/
  rows : Array (List (Nat × α))
  diagonal : Array α
  labelBySlot : Array Nat
  /-- By label, its slot in use. -/
  slotByLabel : Array Nat
  /-- By slot, whether it has not been turned off. -/
  active : Array Bool
  /-- The number of entries off the diagonal. -/
  entryCount : Nat

namespace UpperTriangle

variable {α : Type} [Scalar α]

/-- The triangle for labels below `m` that has no slots yet. -/
def empty (m : Nat) : UpperTriangle α where
  columns := #[]
  rows := Array.replicate m []
  diagonal := #[]
  labelBySlot := #[]
  slotByLabel := Array.replicate m 0
  active := #[]
  entryCount := 0

def slotCount (u : UpperTriangle α) : Nat :=
  u.columns.size

def column (u : UpperTriangle α) (slot : Nat) : List (Nat × α) :=
  u.columns.getD slot []

def row (u : UpperTriangle α) (label : Nat) : List (Nat × α) :=
  u.rows.getD label []

def diagonalAt (u : UpperTriangle α) (slot : Nat) : α :=
  u.diagonal.getD slot 1

def labelOf (u : UpperTriangle α) (slot : Nat) : Nat :=
  u.labelBySlot.getD slot 0

def slotOf (u : UpperTriangle α) (label : Nat) : Nat :=
  u.slotByLabel.getD label 0

def isActive (u : UpperTriangle α) (slot : Nat) : Bool :=
  u.active.getD slot false

/-- The slots in use, in triangular order. -/
def slots (u : UpperTriangle α) : List Nat :=
  (List.range u.slotCount).filter u.isActive

/-- Append a slot. -/
def push (u : UpperTriangle α) (label : Nat) (diagonal : α) (column : List (Nat × α)) :
    UpperTriangle α :=
  let slot := u.slotCount
  { columns := u.columns.push column
    rows := column.foldl (fun rows (i, x) => rows.modify i (· ++ [(slot, x)])) u.rows
    diagonal := u.diagonal.push diagonal
    labelBySlot := u.labelBySlot.push label
    slotByLabel := u.slotByLabel.setIfInBounds label slot
    active := u.active.push true
    entryCount := u.entryCount + column.length }

/-- Remove the entries of a row. -/
def eraseRow (u : UpperTriangle α) (label : Nat) : UpperTriangle α :=
  let row := u.row label
  { u with
    columns := row.foldl (fun columns (slot, _) =>
      columns.modify slot (swapRemove fun t => t.1 == label)) u.columns
    rows := u.rows.setIfInBounds label []
    entryCount := u.entryCount - row.length }

/-- Turn a slot off and remove its column. -/
def turnOff (u : UpperTriangle α) (slot : Nat) : UpperTriangle α :=
  let column := u.column slot
  { u with
    columns := u.columns.setIfInBounds slot []
    rows := column.foldl (fun rows (label, _) =>
      rows.modify label (swapRemove fun t => t.1 == slot)) u.rows
    active := u.active.setIfInBounds slot false
    entryCount := u.entryCount - column.length }

end UpperTriangle
end DualSimplex
