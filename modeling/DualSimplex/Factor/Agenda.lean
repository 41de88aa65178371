/-!
# Agendas

The positions that a sparse sweep still has to visit, in the order in which it
visits them.
-/

namespace DualSimplex

/-- The direction in which a sweep goes through the ranks of a triangle. -/
inductive Direction
  | ascending
  | descending
  deriving DecidableEq

/-- Whether the first rank comes no later than the second. -/
def Direction.precedes (d : Direction) (a b : Nat) : Bool :=
  match d with
  | .ascending => a ≤ b
  | .descending => b ≤ a

/-- Ascending ranks in the order of the direction. -/
def Direction.order (d : Direction) (ranks : List Nat) : List Nat :=
  match d with
  | .ascending => ranks
  | .descending => ranks.reverse

/-- Put a rank in its place. -/
def Direction.insert (d : Direction) (r : Nat) : List Nat → List Nat
  | [] => [r]
  | s :: rest => if d.precedes r s then r :: s :: rest else s :: d.insert r rest

theorem Direction.insert_perm (d : Direction) (r : Nat) (agenda : List Nat) :
    (d.insert r agenda).Perm (r :: agenda) := by
  induction agenda with
  | nil => exact .refl _
  | cons s rest ih =>
    rw [insert]
    split
    · exact .refl _
    · exact (ih.cons s).trans (.swap r s rest)

/-- An agenda of the given ranks. -/
def Direction.agenda (d : Direction) (ranks : List Nat) : List Nat :=
  ranks.foldr d.insert []

/-- An agenda holds a rank as often as it was given. -/
theorem Direction.agenda_perm (d : Direction) (ranks : List Nat) :
    (d.agenda ranks).Perm ranks := by
  induction ranks with
  | nil => exact .refl _
  | cons r ranks ih => exact (d.insert_perm r (d.agenda ranks)).trans (ih.cons r)

end DualSimplex
