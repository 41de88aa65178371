/-!
# Scalars

The solver is written once for every kind of number that offers the operations
below.  Binary floating point runs it; an exact model, in `Scalar.Exact`, is
what statements about its results are made of.

A sparse vector keeps the list of its nonzero positions, and it tells a listed
position from an unlisted one by the value stored there.  A value that cancels
to zero while it is listed is therefore replaced by a mark: something that is
not `0` but counts for nothing.
-/

namespace DualSimplex

/-- Arithmetic, order and the few tests that the solver needs of its numbers. -/
class Scalar (α : Type) extends Add α, Sub α, Mul α, Div α, Neg α, Zero α, One α,
    NatCast α, OfScientific α, LT α, LE α, BEq α where
  decLT : DecidableLT α
  decLE : DecidableLE α
  magnitude : α → α
  isNaN : α → Bool
  isFinite : α → Bool
  /-- Too small to be kept as an entry of a vector. -/
  isTiny : α → Bool
  /-- Stands for a listed entry that cancelled while terms were added up. -/
  cancelled : α
  /-- Stands for a listed entry that cancelled during a triangular solve. -/
  vanished : α

namespace Scalar

variable {α : Type} [Scalar α]

instance : DecidableLT α := decLT

instance : DecidableLE α := decLE

/-- The larger of two values.  A value that is not a number loses against any
other, and of two equal values the first is kept. -/
def larger (a b : α) : α :=
  if b ≤ a then a else if isNaN b then a else b

/-- The smaller of two values, under the same rules as `larger`. -/
def smaller (a b : α) : α :=
  if a ≤ b then a else if isNaN b then a else b

/-- The sum from left to right.  It starts at minus zero, which no addition
notices. -/
def sum (xs : List α) : α :=
  xs.foldl (· + ·) (-0)

/-- The largest magnitude in a list, zero for the empty list. -/
def maxAbs (xs : List α) : α :=
  xs.foldl (fun m x => larger m (magnitude x)) 0

/-- One for values that are not below zero, minus one for the others. -/
def sign (x : α) : α :=
  if x < 0 then -1 else 1

/-- Whether a value may be stored as a new entry of a vector. -/
def isSignificant (x : α) : Bool :=
  !(isTiny x || isNaN x)

/-- Whether a value differs from zero by a tolerance at most. -/
def isZeroWithin (x tolerance : α) : Bool :=
  magnitude x ≤ tolerance

end Scalar

instance : Scalar Float where
  zero := 0
  one := 1
  natCast := Float.ofNat
  decLT := inferInstance
  decLE := inferInstance
  magnitude := Float.abs
  isNaN := Float.isNaN
  isFinite := Float.isFinite
  isTiny x := x.abs < 1e-14
  cancelled := 2.2250738585072014e-308
  vanished := 1e-50

instance : Scalar Float32 where
  zero := 0
  one := 1
  natCast := Float32.ofNat
  decLT := inferInstance
  decLE := inferInstance
  magnitude := Float32.abs
  isNaN := Float32.isNaN
  isFinite := Float32.isFinite
  isTiny x := x.abs < Float.toFloat32 1e-14
  cancelled := 1.1754943508222875e-38
  vanished := 1.1754943508222875e-38

end DualSimplex
