import DualSimplex.Bound

/-!
# Bound flipping ratio test

Along a dual step the dual objective is concave and piecewise linear.  It bends
at the breakpoints, where a reduced cost reaches zero.  Behind the breakpoint of
a variable with two bounds the variable belongs on the other one, and the slope
has become smaller by the product of its range and its pivot row entry.  Behind
that of any other variable the dual solution would be infeasible.  The step ends
before the slope turns negative, and the variable whose breakpoint stops it
enters the basis.

Since a small pivot element is a bad one, breakpoints are passed in groups, from
the last of which the largest element is taken.  A group holds all breakpoints
that can be passed before some reduced cost is infeasible by more than a
tolerance.
-/

namespace DualSimplex

open Scalar

/-- A variable outside the basis that limits the dual step. -/
structure Candidate (α : Type) where
  variableIndex : Nat
  /-- The magnitude of its entry in the pivot row, which is positive. -/
  alpha : α
  /-- The step at which its reduced cost reaches zero, negative if the reduced
  cost has the wrong sign already. -/
  ratio : α
  /-- The distance between its bounds. -/
  range : Bound α
  deriving Inhabited

/-- The candidates of a ratio test, and the variables that the last run moves
to their other bound. -/
structure RatioTest (α : Type) where
  candidates : List (Candidate α)
  flips : List Nat

namespace RatioTest

variable {α : Type}

inductive Result (α : Type)
  | entering (variableIndex : Nat) (alpha step : α)
  /-- The dual objective grows for ever. -/
  | unbounded

def empty : RatioTest α :=
  { candidates := [], flips := [] }

def push (t : RatioTest α) (c : Candidate α) : RatioTest α :=
  { t with candidates := t.candidates ++ [c] }

/-- Put a candidate into the group if it satisfies the condition, and then let
the foremost of the others so far fall back behind the rest.  Otherwise put it
behind the others. -/
def splitStep (p : Candidate α → Bool) (s : List (Candidate α) × List (Candidate α))
    (c : Candidate α) : List (Candidate α) × List (Candidate α) :=
  if p c then (s.1 ++ [c], s.2.drop 1 ++ s.2.take 1) else (s.1, s.2 ++ [c])

/-- The group of candidates that satisfy a condition, and the others. -/
def split (p : Candidate α → Bool) (cs : List (Candidate α)) :
    List (Candidate α) × List (Candidate α) :=
  cs.foldl (splitStep p) ([], [])

theorem foldl_splitStep_fst (p : Candidate α → Bool) (cs : List (Candidate α))
    (s : List (Candidate α) × List (Candidate α)) :
    (cs.foldl (splitStep p) s).1 = s.1 ++ cs.filter p := by
  induction cs generalizing s with
  | nil => rw [List.foldl_nil, List.filter_nil, List.append_nil]
  | cons c cs ih =>
    rw [List.foldl_cons, ih, splitStep]
    by_cases h : p c
    · rw [if_pos h, List.filter_cons_of_pos h, List.append_assoc, List.singleton_append]
    · rw [if_neg h, List.filter_cons_of_neg h]

/-- The group keeps its order. -/
theorem split_fst (p : Candidate α → Bool) (cs : List (Candidate α)) :
    (split p cs).1 = cs.filter p :=
  foldl_splitStep_fst p cs ([], [])

theorem splitStep_perm (p : Candidate α → Bool) (s : List (Candidate α) × List (Candidate α))
    (c : Candidate α) : ((splitStep p s c).1 ++ (splitStep p s c).2).Perm (s.1 ++ s.2 ++ [c]) := by
  unfold splitStep
  split
  · have rotate : (s.2.drop 1 ++ s.2.take 1).Perm s.2 :=
      List.perm_append_comm.trans (.of_eq (List.take_append_drop 1 s.2))
    rw [List.append_assoc, List.append_assoc]
    exact (List.perm_append_comm.trans (rotate.append_right [c])).append_left s.1
  · rw [List.append_assoc]

theorem foldl_splitStep_perm (p : Candidate α → Bool) (cs : List (Candidate α))
    (s : List (Candidate α) × List (Candidate α)) :
    ((cs.foldl (splitStep p) s).1 ++ (cs.foldl (splitStep p) s).2).Perm (s.1 ++ s.2 ++ cs) := by
  induction cs generalizing s with
  | nil => rw [List.foldl_nil, List.append_nil]
  | cons c cs ih =>
    rw [List.foldl_cons, List.append_cons]
    exact (ih _).trans ((splitStep_perm p s c).append_right cs)

/-- No candidate is lost and none is doubled. -/
theorem split_perm (p : Candidate α → Bool) (cs : List (Candidate α)) :
    ((split p cs).1 ++ (split p cs).2).Perm cs :=
  foldl_splitStep_perm p cs ([], [])

variable [Scalar α]

/-- The slope that the dual objective loses when a candidate is passed. -/
def slopeOf (c : Candidate α) : Bound α :=
  c.range.scale c.alpha

/-- The largest step after which every candidate is feasible within the
tolerance. -/
def maxStep (dualTolerance : α) (cs : List (Candidate α)) : Bound α :=
  cs.foldl (fun limit c =>
    let step := c.ratio + dualTolerance / c.alpha
    match limit with
    | .finite least => .finite (smaller least step)
    | other => if isNaN step then other else .finite step) .posInf

/-- The candidate with the largest pivot element, of equal ones that with the
lowest index. -/
def best (first : Candidate α) (others : List (Candidate α)) : Candidate α :=
  others.foldl (fun b c =>
    if b.alpha < c.alpha || (c.alpha == b.alpha && c.variableIndex < b.variableIndex) then c else b)
    first

def choose : List (Candidate α) → Result α
  | [] => .unbounded
  | first :: others =>
    let b := best first others
    .entering b.variableIndex b.alpha (larger b.ratio 0)

/-- The slope left after a group whose loss did not use it up. -/
def lessSlope (slope : α) : Bound α → α
  | .finite x => slope - x
  | _ => slope - slope

/-- What a run leaves behind. -/
structure Outcome (α : Type) where
  candidates : List (Candidate α)
  flips : List Nat
  result : Result α

/-- Pass group after group.  The fuel need not exceed the number of candidates,
since a group holds at least the candidate with the least relaxed breakpoint. -/
def search (dualTolerance primalTolerance : α) : Nat → α → List (Candidate α) → Outcome α
  | 0, _, cs => { candidates := cs, flips := [], result := .unbounded }
  | _ + 1, _, [] => { candidates := [], flips := [], result := .unbounded }
  | fuel + 1, slope, cs =>
    let limit := maxStep dualTolerance cs
    let (group, others) := split (fun c => limit.reaches c.ratio) cs
    let loss := Bound.sum (group.map slopeOf)
    if loss.reaches (slope - primalTolerance * (1 + slope)) then
      { candidates := group ++ others, flips := [], result := choose group }
    else
      let rest := search dualTolerance primalTolerance fuel (lessSlope slope loss) others
      { candidates := group ++ rest.candidates
        flips := group.map Candidate.variableIndex ++ rest.flips
        result := rest.result }

/-- Run the test from a slope.  A group may fall short of the remaining slope
by the primal tolerance, relative to it, and still be the last.  The candidates
stay, ordered by group. -/
def run (t : RatioTest α) (slope dualTolerance primalTolerance : α) : RatioTest α × Result α :=
  let o := search dualTolerance primalTolerance t.candidates.length slope t.candidates
  ({ candidates := o.candidates, flips := o.flips }, o.result)

end RatioTest
end DualSimplex
