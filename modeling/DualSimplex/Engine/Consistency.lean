import DualSimplex.Engine.Basic

/-!
# Consistency

What has to hold of an engine at every iteration boundary, as a check that
names the first thing that does not.
-/

namespace DualSimplex

open Scalar

/-- What is wrong with an engine. -/
inductive Inconsistency (α : Type)
  | basisSize (found expected : Nat)
  | repeated (j position : Nat)
  | notBasic (j position : Nat) (status : VariableStatus)
  | unplaced (j : Nat)
  | status (j : Nat) (status : VariableStatus)
  | value (j : Nat) (found expected : α)
  | reducedCost (j : Nat) (status : VariableStatus) (x : α)
  | weight (position : Nat) (x : α)

def Inconsistency.message {α : Type} [Binary.Encoded α] : Inconsistency α → String
  | basisSize found expected => s!"{found} basic variables for {expected} rows"
  | repeated j position => s!"variable {j} at position {position} is out of range or repeated"
  | notBasic j position s =>
    s!"variable {j} at position {position} has status " ++ s.name
  | unplaced j => s!"basic variable {j} has no basis position"
  | status j s => "status " ++ s.name ++ s!" of variable {j} does not fit its bounds"
  | value j found expected =>
    s!"nonbasic variable {j} has value " ++ Decimal.Layout.plain.format found ++ " instead of "
      ++ Decimal.Layout.plain.format expected
  | reducedCost j s x =>
    s!"variable {j} at " ++ s.name ++ " has reduced cost " ++ Decimal.Layout.plain.format x
  | weight position x =>
    "edge weight " ++ Decimal.Layout.plain.format x ++ s!" at position {position}"

namespace Engine

variable {α : Type} [Scalar α] (t : Job α)

/-- The least edge weight, with some room for rounding. -/
def leastWeight : α := 1 - 1e-10

/-- What is wrong at a basis position.  `before` are the variables at those
before it. -/
def positionFault? (e : Engine α) (before : List Nat) (j position : Nat) :
    Option (Inconsistency α) :=
  if t.size ≤ j || before.contains j then some (.repeated j position)
  else if e.isBasic j then none
  else some (.notBasic j position (e.statusOf j))

def basisFault? (e : Engine α) : Option (Inconsistency α) :=
  if e.basicIndex.size ≠ t.rowCount then some (.basisSize e.basicIndex.size t.rowCount)
  else
    let basic := e.basicIndex.toList
    basic.zipIdx.findSome? fun (j, position) => e.positionFault? t (basic.take position) j position

/-- What is wrong with a variable that a status, a value, and maybe a reduced
cost within a tolerance belong to. -/
def variableFault? (e : Engine α) (tolerance : Option α) (j : Nat) :
    Option (Inconsistency α) :=
  let s := e.statusOf j
  let b := e.boundsOf j
  if s.isBasic then (if e.basicIndex.contains j then none else some (.unplaced j))
  else if !b.allows s then some (.status j s)
  else if !(e.valueOf j == b.restingValue s) then
    some (.value j (e.valueOf j) (b.restingValue s))
  else
    match tolerance with
    | some limit =>
      if limit < e.dualInfeasibility j then some (.reducedCost j s (e.reducedCostOf j)) else none
    | none => none

def weightFault? (e : Engine α) : Option (Inconsistency α) :=
  match e.weights.weights? with
  | none => none
  | some weights => weights.toList.zipIdx.findSome? fun (w, position) =>
    if w < leastWeight then some (.weight position w) else none

/-- The first thing found wrong.  Reduced costs are looked at if a tolerance is
given. -/
def fault? (e : Engine α) (tolerance : Option α) : Option (Inconsistency α) :=
  (e.basisFault? t).or
    ((t.indices.findSome? (e.variableFault? tolerance)).or e.weightFault?)

end Engine
end DualSimplex
