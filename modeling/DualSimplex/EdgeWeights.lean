import DualSimplex.Parameters
import DualSimplex.SparseVector

/-!
# Edge weights

The variable that leaves the basis is one that violates a bound.  The pricing
rules weigh the violations differently: not at all, against an approximate
weight, or against the squared norm of the variable's row of the basis inverse,
which can be kept up exactly through every basis change.
-/

namespace DualSimplex

open Scalar

/-- The weights of a pricing rule, by basis position. -/
inductive EdgeWeights (α : Type)
  | dantzig
  /-- `resets` counts how often the weights had grown too large. -/
  | devex (weights : Array α) (resets : Nat)
  | steepestEdge (weights : Array α)

/-- Whether an update has left the weights accurate enough. -/
inductive WeightQuality
  | sound
  | excessive
  deriving DecidableEq

namespace EdgeWeights

variable {α : Type} [Scalar α]

/-- Unit weights for a basis of a size. -/
def ofRule (rule : PricingRule) (m : Nat) : EdgeWeights α :=
  match rule with
  | .dantzig => .dantzig
  | .devex => .devex (Array.replicate m 1) 0
  | .steepestEdge => .steepestEdge (Array.replicate m 1)

/-- The stored weights.  Without any, all positions weigh one. -/
def weights? : EdgeWeights α → Option (Array α)
  | .dantzig => none
  | .devex weights _ => some weights
  | .steepestEdge weights => some weights

def weight (w : EdgeWeights α) (position : Nat) : α :=
  match w.weights? with
  | some weights => weights.getD position 1
  | none => 1

/-- Whether the weights are the squared norms of the rows of the basis inverse.
If so they are computed for any basis but the slack basis, and an update needs
the product of the inverse with the pivot row. -/
def areNorms : EdgeWeights α → Bool
  | .steepestEdge _ => true
  | _ => false

def reset (w : EdgeWeights α) (m : Nat) : EdgeWeights α :=
  match w with
  | .dantzig => .dantzig
  | .devex _ resets => .devex (Array.replicate m 1) resets
  | .steepestEdge _ => .steepestEdge (Array.replicate m 1)

/-- Take over computed weights, if the rule has a use for them. -/
def withNorms (w : EdgeWeights α) (weights : Array α) : EdgeWeights α :=
  match w with
  | .steepestEdge _ => .steepestEdge weights
  | other => other

/-- A basis position in the running for leaving. -/
structure Contender (α : Type) where
  score : α
  variableIndex : Nat
  position : Nat

def Contender.beats (c d : Contender α) : Bool :=
  d.score < c.score || (c.score == d.score && c.variableIndex < d.variableIndex)

/-- The position with the largest squared infeasibility over its weight, of
equal ones that with the lowest variable.  There is none if all infeasibilities
are zero. -/
def choosePosition (w : EdgeWeights α) (infeasibilities : Array α) (basicIndex : Array Nat) :
    Option Nat :=
  let best := infeasibilities.toList.zipIdx.foldl (fun best (x, position) =>
    if x == 0 then best
    else
      let c : Contender α := {
        score := x * x / w.weight position
        variableIndex := basicIndex.getD position 0
        position := position }
      match best with
      | none => some c
      | some b => if c.beats b then some c else best) none
  best.map Contender.position

/-- Weights under way through an update, with the largest so far. -/
structure Tally (α : Type) where
  weights : Array α
  largest : α

def Tally.put (t : Tally α) (i : Nat) (w : α) : Tally α :=
  { weights := t.weights.setIfInBounds i w, largest := larger t.largest w }

/-- Update the weights for the entering `column`, given by basis position, with
the pivot at `position`.  `renew` says what becomes of the weight at another
position, of which it is given the old weight, the entry over the pivot, and
the weight at the pivot. -/
def pivotWeights (renew : Nat → α → α → α → α) (weights : Array α) (position : Nat)
    (column : SparseVector α) : Tally α :=
  let pivot := column.get position
  let pivotWeight := weights.getD position 1
  let others := column.entries.filter fun t => t.1 != position
  let start : Tally α := { weights := weights, largest := 0 }
  let t := others.foldl
    (fun t (i, x) => t.put i (renew i (t.weights.getD i 1) (x / pivot) pivotWeight)) start
  t.put position (larger (pivotWeight / (pivot * pivot)) 1)

/-- The largest weight that does not reset a reference framework. -/
def devexLimit : α := 1e7

/-- The largest weight that is relied on. -/
def steepestEdgeLimit : α := 1e20

/-- The weights of the basis in which `column` has taken the place at a position.
`tau` is the product of the basis inverse with its row there. -/
def update (w : EdgeWeights α) (position : Nat) (column : SparseVector α)
    (tau : Option (SparseVector α)) : EdgeWeights α × WeightQuality :=
  match w with
  | .dantzig => (.dantzig, .sound)
  | .devex weights resets =>
    let renew := fun _ old ratio pivotWeight => larger old (ratio * ratio * pivotWeight)
    let t := pivotWeights renew weights position column
    if devexLimit < t.largest then (.devex (Array.replicate t.weights.size 1) (resets + 1), .sound)
    else (.devex t.weights resets, .sound)
  | .steepestEdge weights =>
    let renew := fun i old ratio pivotWeight =>
      let inner := match tau with
        | some v => v.get i
        | none => 0
      larger (old + ratio * (ratio * pivotWeight - 2.0 * inner)) 1
    let t := pivotWeights renew weights position column
    (.steepestEdge t.weights, if steepestEdgeLimit < t.largest then .excessive else .sound)

end EdgeWeights
end DualSimplex
