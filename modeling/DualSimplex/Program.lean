import DualSimplex.Bound
import DualSimplex.Matrix

/-!
# Linear programs

Minimize or maximize `c x + offset` where every column `x j` and every row
activity `(A x) i` stays within its bounds.

A program is made from a `Draft`, a loose collection of its parts.
`Draft.build` accepts a draft or names the first thing that is wrong with it,
and the rest of the library relies on what it accepts.
-/

namespace DualSimplex

open Scalar

inductive ObjectiveSense
  | minimize
  | maximize
  deriving DecidableEq, Inhabited

/-- A cost as one of a minimization, or a quantity of the minimization as one
of the program.  Either way it changes its sign if the sense is to maximize. -/
def ObjectiveSense.orient {α : Type} [Scalar α] (s : ObjectiveSense) (x : α) : α :=
  match s with
  | .minimize => x
  | .maximize => -x

inductive VariableKind
  | column
  | row
  deriving DecidableEq

def VariableKind.word : VariableKind → String
  | .column => "column"
  | .row => "row"

/-- The parts of a draft whose lengths have to match. -/
inductive DraftPart
  | costs
  | columnLower
  | columnUpper
  | rowLower
  | rowUpper
  | starts
  | values
  | indices

def DraftPart.name : DraftPart → String
  | .costs => "costs"
  | .columnLower => "column lower bounds"
  | .columnUpper => "column upper bounds"
  | .rowLower => "row lower bounds"
  | .rowUpper => "row upper bounds"
  | .starts => "column starts"
  | .values => "matrix values"
  | .indices => "matrix indices"

/-- Why a program or an initial basis is refused. -/
inductive InputError (α : Type)
  | dimensionMismatch (part : DraftPart) (expected found : Nat)
  | nonMonotoneStarts (column : Nat)
  | indexOutOfRange (column row rowCount : Nat)
  | duplicateEntry (column row : Nat)
  | nonFiniteValue (row column : Nat) (value : α)
  | nonFiniteCost (column : Nat) (value : α)
  | nonFiniteOffset (value : α)
  | nonMonotoneBounds (kind : VariableKind) (index : Nat) (bounds : Interval α)
  | invalidBound (kind : VariableKind) (index : Nat) (bounds : Interval α)
  | basisSize (expected found : Nat)
  | basisCount (expected found : Nat)
  | basisStatus (kind : VariableKind) (index : Nat) (status : VariableStatus)
      (bounds : Interval α)

namespace InputError

variable {α : Type} [Scalar α] [Binary.Encoded α]

def message : InputError α → String
  | dimensionMismatch part expected found =>
    part.name ++ s!" has length {found}, expected {expected}"
  | nonMonotoneStarts column =>
    s!"column start {column} is smaller than its predecessor"
  | indexOutOfRange column row rowCount =>
    s!"row index {row} in column {column} is out of range for {rowCount} rows"
  | duplicateEntry column row =>
    s!"duplicate entry for row {row} in column {column}"
  | nonFiniteValue row column value =>
    "matrix value " ++ number value ++ s!" at row {row}, column {column} is not finite"
  | nonFiniteCost column value =>
    "cost " ++ number value ++ s!" of column {column} is not finite"
  | nonFiniteOffset value =>
    "objective offset " ++ number value ++ " is not finite"
  | nonMonotoneBounds kind index bounds =>
    kind.word ++ s!" {index} has lower bound " ++ bound bounds.lower
      ++ " above its upper bound " ++ bound bounds.upper
  | invalidBound kind index bounds =>
    kind.word ++ s!" {index} has an unusable bound pair " ++ pair bounds
  | basisSize expected found =>
    s!"basis has {found} statuses, expected {expected}"
  | basisCount expected found =>
    s!"basis has {found} basic variables, expected {expected}"
  | basisStatus kind index status bounds =>
    kind.word ++ s!" {index} has status " ++ status.name ++ ", which its bounds "
      ++ pair bounds ++ " don't allow"
where
  number (x : α) : String := Decimal.Layout.plain.format x
  bound (b : Bound α) : String := b.format Decimal.Layout.plain
  pair (b : Interval α) : String := "[" ++ bound b.lower ++ ", " ++ bound b.upper ++ "]"

end InputError

/-- A linear program that `Draft.build` accepted. -/
structure LinearProgram (α : Type) where
  sense : ObjectiveSense
  offset : α
  costs : Array α
  columnBounds : Array (Interval α)
  rowBounds : Array (Interval α)
  /-- The matrix by column, and the same matrix by row. -/
  columns : Matrix α
  rows : Matrix α

namespace LinearProgram

variable {α : Type} [Scalar α]

def rowCount (lp : LinearProgram α) : Nat :=
  lp.rowBounds.size

def columnCount (lp : LinearProgram α) : Nat :=
  lp.costs.size

/-- The objective value of a point, in the sense of the program. -/
def objective (lp : LinearProgram α) (x : Array α) : α :=
  lp.offset + sum (List.zipWith (· * ·) lp.costs.toList x.toList)

/-- The row activities `A x` of a point. -/
def activities (lp : LinearProgram α) (x : Array α) : Array α :=
  x.toList.zipIdx.foldl (fun r (xj, j) =>
    if xj == 0 then r
    else (lp.columns.line j).foldl (fun r (i, a) => r.modify i (· + a * xj)) r)
    (Array.replicate lp.rowCount 0)

end LinearProgram

/-- The parts of a linear program before they are checked. -/
structure Draft (α : Type) where
  rowCount : Nat
  columnCount : Nat
  sense : ObjectiveSense
  offset : α
  costs : Array α
  columnLower : Array (Bound α)
  columnUpper : Array (Bound α)
  rowLower : Array (Bound α)
  rowUpper : Array (Bound α)
  /-- The matrix by column. -/
  matrix : Matrix α
  /-- The magnitude from which on a bound counts as infinite. -/
  infinity : α

namespace Draft

variable {α : Type} [Scalar α]

/-- A draft in which nothing is set: columns from zero upwards without cost,
rows without bounds, and an empty matrix. -/
def blank (rowCount columnCount : Nat) : Draft α where
  rowCount := rowCount
  columnCount := columnCount
  sense := .minimize
  offset := 0
  costs := Array.replicate columnCount 0
  columnLower := Array.replicate columnCount (.finite 0)
  columnUpper := Array.replicate columnCount .posInf
  rowLower := Array.replicate rowCount .negInf
  rowUpper := Array.replicate rowCount .posInf
  matrix := {
    start := Array.replicate (columnCount + 1) 0
    index := #[]
    value := #[]
    width := rowCount }
  infinity := 1e30

/-- Set the matrix by its compressed columns. -/
def withMatrix (d : Draft α) (start index : Array Nat) (value : Array α) : Draft α :=
  { d with matrix := { start := start, index := index, value := value, width := d.rowCount } }

/-- Set the matrix by dense rows, whose zeros are left out.  Rows that do not
fit the draft give a matrix that does not either. -/
def withDense (d : Draft α) (rows : List (List α)) : Draft α :=
  let a := Matrix.ofDense rows d.columnCount
  let fits := rows.length == d.rowCount && rows.all fun row => row.length == d.columnCount
  d.withMatrix (if fits then a.start else a.start.push a.index.size) a.index a.value

/-- What the checks of a draft find. -/
abbrev Check (α : Type) := Except (InputError α)

def expectLength (part : DraftPart) (expected found : Nat) : Check α Unit :=
  if expected = found then pure () else throw (.dimensionMismatch part expected found)

/-- Every part has its length. -/
def checkShape (d : Draft α) : Check α Unit := do
  expectLength .costs d.columnCount d.costs.size
  expectLength .columnLower d.columnCount d.columnLower.size
  expectLength .columnUpper d.columnCount d.columnUpper.size
  expectLength .rowLower d.rowCount d.rowLower.size
  expectLength .rowUpper d.rowCount d.rowUpper.size
  expectLength .starts (d.columnCount + 1) d.matrix.start.size
  expectLength .values d.matrix.index.size d.matrix.value.size
  if d.matrix.start.getD 0 0 != 0 then throw (.nonMonotoneStarts 0)
  expectLength .indices (d.matrix.start.getD d.columnCount 0) d.matrix.index.size

def checkOffset (d : Draft α) : Check α Unit :=
  if isFinite d.offset then pure () else throw (.nonFiniteOffset d.offset)

/-- No column starts before its predecessor. -/
def checkStarts (d : Draft α) : Check α Unit :=
  let start := fun j => d.matrix.start.getD j 0
  match (List.range d.columnCount).find? fun j => start (j + 1) < start j with
  | some j => throw (.nonMonotoneStarts (j + 1))
  | none => pure ()

/-- The entries of a column lie in different rows of the matrix and are
finite.  `seen` are the rows of the entries before these. -/
def checkEntries (rowCount column : Nat) : List Nat → List (Nat × α) → Check α Unit
  | _, [] => pure ()
  | seen, (row, x) :: rest =>
    if rowCount ≤ row then throw (.indexOutOfRange column row rowCount)
    else if seen.contains row then throw (.duplicateEntry column row)
    else if isFinite x then checkEntries rowCount column (row :: seen) rest
    else throw (.nonFiniteValue row column x)

def checkMatrix (d : Draft α) : Check α Unit :=
  (List.range d.columnCount).forM fun j => checkEntries d.rowCount j [] (d.matrix.line j)

def checkCosts (d : Draft α) : Check α Unit :=
  d.costs.toList.zipIdx.forM fun (c, j) =>
    if isFinite c then pure () else throw (.nonFiniteCost j c)

/-- The bounds of one variable, with large magnitudes made infinite. -/
def bounds (infinity : α) (kind : VariableKind) (index : Nat) (b : Interval α) :
    Check α (Interval α) :=
  if b.lower.isNaN || b.upper.isNaN then throw (.invalidBound kind index b)
  else
    let b : Interval α :=
      { lower := b.lower.normalize infinity, upper := b.upper.normalize infinity }
    match b.lower, b.upper with
    | .posInf, _ | _, .negInf => throw (.invalidBound kind index b)
    | l, u => if l.above u then throw (.nonMonotoneBounds kind index b) else pure b

def allBounds (infinity : α) (kind : VariableKind) (lower upper : Array (Bound α)) :
    Check α (Array (Interval α)) := do
  let pairs := (List.zipWith Interval.mk lower.toList upper.toList).zipIdx
  let checked ← pairs.mapM fun (b, k) => bounds infinity kind k b
  return checked.toArray

/-- The entries of a column by increasing row, without explicit zeros. -/
def tidy (column : List (Nat × α)) : List (Nat × α) :=
  (column.filter fun t => !(t.2 == 0)).mergeSort fun s t => s.1 ≤ t.1

/-- The program that a draft describes, or the first fault found in it. -/
def build (d : Draft α) : Check α (LinearProgram α) := do
  d.checkShape
  d.checkOffset
  d.checkStarts
  d.checkMatrix
  d.checkCosts
  let columnBounds ← allBounds d.infinity .column d.columnLower d.columnUpper
  let rowBounds ← allBounds d.infinity .row d.rowLower d.rowUpper
  let columns := Matrix.ofLines d.rowCount
    ((List.range d.columnCount).map fun j => tidy (d.matrix.line j))
  return {
    sense := d.sense
    offset := d.offset
    costs := d.costs
    columnBounds := columnBounds
    rowBounds := rowBounds
    columns := columns
    rows := columns.transpose }

end Draft
end DualSimplex
