import DualSimplex.Scalar
import DualSimplex.Decimal.Layout

/-!
# Bounds

A bound of a variable is a number or infinite, and a variable has two of them.
A variable that is not in the basis rests on one of its bounds, which its
status names, or at zero if it has none.
-/

namespace DualSimplex

open Scalar

/-- One end of the values that a variable may take. -/
inductive Bound (α : Type)
  | negInf
  | finite (x : α)
  | posInf
  deriving BEq, Inhabited

namespace Bound

variable {α : Type} [Scalar α]

/-- A number as a bound.  The infinities of the number type become those of
the bound. -/
def ofScalar (x : α) : Bound α :=
  if isFinite x || isNaN x then .finite x else if x < 0 then .negInf else .posInf

/-- Numbers at or beyond `infinity` in magnitude count as infinite. -/
def normalize (infinity : α) : Bound α → Bound α
  | .finite x =>
    if infinity ≤ x then .posInf else if x ≤ -infinity then .negInf else .finite x
  | b => b

def isFinite : Bound α → Bool
  | .finite x => Scalar.isFinite x
  | _ => false

def isNaN : Bound α → Bool
  | .finite x => Scalar.isNaN x
  | _ => false

def neg : Bound α → Bound α
  | .negInf => .posInf
  | .finite x => .finite (-x)
  | .posInf => .negInf

/-- The number itself, zero where there is none. -/
def value : Bound α → α
  | .finite x => x
  | _ => 0

/-- Whether the bound lies above a number. -/
def exceeds (b : Bound α) (x : α) : Bool :=
  match b with
  | .negInf => false
  | .finite y => x < y
  | .posInf => true

/-- Whether the bound lies below a number. -/
def isBelow (b : Bound α) (x : α) : Bool :=
  match b with
  | .negInf => true
  | .finite y => y < x
  | .posInf => false

/-- Whether the bound lies at or above a number. -/
def reaches (b : Bound α) (x : α) : Bool :=
  match b with
  | .negInf => false
  | .finite y => x ≤ y
  | .posInf => !Scalar.isNaN x

/-- A positive multiple. -/
def scale (c : α) : Bound α → Bound α
  | .finite x => .finite (c * x)
  | b => b

/-- The sum, where an infinite term decides.  Terms of which one is infinite
upwards and another downwards have none; the first of them is kept. -/
def add : Bound α → Bound α → Bound α
  | .finite x, .finite y => .finite (x + y)
  | .finite _, b => b
  | a, _ => a

/-- The sum of a list from left to right. -/
def sum (bs : List (Bound α)) : Bound α :=
  bs.foldl add (.finite (-0))

/-- Whether the first bound lies strictly above the second. -/
def above : Bound α → Bound α → Bool
  | .finite x, .finite y => y < x
  | .negInf, _ => false
  | .posInf, .posInf => false
  | .posInf, _ => true
  | .finite _, .negInf => true
  | .finite _, .posInf => false

/-- The text of a bound in a layout of numbers. -/
def format [Binary.Encoded α] (layout : Decimal.Layout) : Bound α → String
  | .negInf => "-" ++ layout.infinity
  | .finite x => layout.format x
  | .posInf => layout.infinity

/-- The difference of two numbers over the smaller of their magnitudes, to
compare two computations of what should be one number. -/
def discrepancy (a b : α) : Bound α :=
  let scale := smaller (magnitude a) (magnitude b)
  if scale == 0 then (if a == b then .finite 0 else .posInf)
  else .finite (magnitude (a - b) / scale)

end Bound

/-- Which of its bounds a variable has, and whether they leave it any room. -/
inductive BoundKind
  | free
  | lower
  | upper
  | boxed
  | fixed
  deriving DecidableEq

/-- Whether the variable has two bounds. -/
def BoundKind.isBoxed : BoundKind → Bool
  | .boxed | .fixed => true
  | .free | .lower | .upper => false

/-- The end of a variable's range. -/
inductive Side
  | lower
  | upper
  deriving DecidableEq

def Side.opposite : Side → Side
  | .lower => .upper
  | .upper => .lower

/-- A variable is basic, or it rests at a bound or at zero.  The status of a row
is that of its activity. -/
inductive VariableStatus
  | basic
  | atLower
  | atUpper
  | fixed
  | free
  deriving DecidableEq, Inhabited

namespace VariableStatus

def isBasic (s : VariableStatus) : Bool :=
  s = .basic

/-- The status at the other end, for a variable whose range is turned around:
that of a row seen from its logical variable, or that of a variable that moves
to its other bound. -/
def opposite : VariableStatus → VariableStatus
  | .atLower => .atUpper
  | .atUpper => .atLower
  | other => other

@[simp] theorem isBasic_opposite (s : VariableStatus) : s.opposite.isBasic = s.isBasic := by
  cases s <;> rfl

@[simp] theorem opposite_eq_basic {s : VariableStatus} : s.opposite = .basic ↔ s = .basic := by
  cases s <;> simp [opposite]

def name : VariableStatus → String
  | .basic => "Basic"
  | .atLower => "AtLower"
  | .atUpper => "AtUpper"
  | .fixed => "Fixed"
  | .free => "Free"

/-- How far a reduced cost is on the wrong side of zero: it should not be negative
at a lower bound, nor positive at an upper one, nor either without bounds. -/
def dualInfeasibility {α : Type} [Scalar α] (s : VariableStatus) (reducedCost : α) : α :=
  match s with
  | .atLower => larger (-reducedCost) 0
  | .atUpper => larger reducedCost 0
  | .free => magnitude reducedCost
  | .fixed | .basic => 0

end VariableStatus

/-- The values from `lower` to `upper`. -/
structure Interval (α : Type) where
  lower : Bound α
  upper : Bound α
  deriving Inhabited

namespace Interval

variable {α : Type} [Scalar α]

/-- The interval between two numbers. -/
def between (lower upper : α) : Interval α :=
  { lower := .finite lower, upper := .finite upper }

def isPoint (b : Interval α) : Bool :=
  b.lower == b.upper

def kind (b : Interval α) : BoundKind :=
  match b.lower.isFinite, b.upper.isFinite with
  | false, false => .free
  | true, false => .lower
  | false, true => .upper
  | true, true => if b.isPoint then .fixed else .boxed

/-- The interval of the negated values. -/
def neg (b : Interval α) : Interval α :=
  { lower := b.upper.neg, upper := b.lower.neg }

/-- The bound at a side. -/
def side (b : Interval α) : Side → Bound α
  | .lower => b.lower
  | .upper => b.upper

/-- The length of the interval, infinite unless both bounds are numbers. -/
def range (b : Interval α) : Bound α :=
  if b.kind.isBoxed then .finite (b.upper.value - b.lower.value) else .posInf

/-- Whether a variable with these bounds can have the status.  Any can be
basic. -/
def allows (b : Interval α) : VariableStatus → Bool
  | .basic => true
  | .atLower => b.lower.isFinite
  | .atUpper => b.upper.isFinite
  | .fixed => b.isPoint
  | .free => !b.lower.isFinite && !b.upper.isFinite

/-- The status of a variable that is put outside the basis without further
reason: at its lower bound if it has one, else at its upper bound. -/
def restingStatus (b : Interval α) : VariableStatus :=
  match b.kind with
  | .fixed => .fixed
  | .lower | .boxed => .atLower
  | .upper => .atUpper
  | .free => .free

/-- A variable may stand where it is put. -/
theorem allows_restingStatus (b : Interval α) : b.allows b.restingStatus = true := by
  unfold allows restingStatus kind
  cases b.lower.isFinite <;> cases b.upper.isFinite <;> cases b.isPoint <;> rfl

/-- The value of a variable outside the basis. -/
def restingValue (b : Interval α) : VariableStatus → α
  | .atLower | .fixed => b.lower.value
  | .atUpper => b.upper.value
  | .free | .basic => 0

/-- How far a value lies above the upper bound, or, as a negative number, below
the lower bound.  Zero if it violates neither by more than the tolerance. -/
def violation (b : Interval α) (tolerance x : α) : α :=
  let below :=
    match b.lower with
    | .finite l => if x < l - tolerance then x - l else 0
    | _ => 0
  match b.upper with
  | .finite u => if u + tolerance < x then x - u else below
  | _ => below

/-- What a term with coefficient `g` can contribute at most. -/
def supremum (b : Interval α) (g : α) : Bound α :=
  if 0 < g then b.upper.scale g
  else
    match b.lower with
    | .finite l => .finite (g * l)
    | other => other.neg

/-- The distance of a value from the interval. -/
def distance (b : Interval α) (x : α) : α :=
  match b.lower, b.upper with
  | .finite l, .finite u => larger (larger (l - x) (x - u)) 0
  | .finite l, _ => larger (l - x) 0
  | _, .finite u => larger (x - u) 0
  | _, _ => 0

end Interval
end DualSimplex
