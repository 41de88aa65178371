/-!
# Permutations

A permutation of the numbers below some size, with its inverse at hand.
-/

namespace DualSimplex

/-- What every number is mapped to, and what is mapped to it. -/
structure Permutation where
  forward : Array Nat
  backward : Array Nat
  deriving DecidableEq

namespace Permutation

/-- The permutation with the given images. -/
def ofForward (forward : Array Nat) : Permutation where
  forward := forward
  backward := forward.toList.zipIdx.foldl (fun inverse (j, i) => inverse.setIfInBounds j i)
    (Array.replicate forward.size 0)

def identity (n : Nat) : Permutation :=
  { forward := Array.range n, backward := Array.range n }

def size (p : Permutation) : Nat :=
  p.forward.size

def apply (p : Permutation) (i : Nat) : Nat :=
  p.forward.getD i 0

def invert (p : Permutation) (i : Nat) : Nat :=
  p.backward.getD i 0

/-- One line for every number, with its image. -/
def format (p : Permutation) : String :=
  String.join (p.forward.toList.zipIdx.map fun (j, i) => s!"{i} -> {j}\n")

end Permutation
end DualSimplex
