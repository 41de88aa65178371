import DualSimplex.Program

/-!
# Bases

A basis says of every column and every row where it stands.  As many of them
are basic as there are rows.  The status of a row is that of its activity.
-/

namespace DualSimplex

/-- Where the columns and the rows stand. -/
structure Basis where
  columns : Array VariableStatus
  rows : Array VariableStatus
  deriving DecidableEq, Inhabited

namespace Basis

variable {α : Type} [Scalar α]

/-- All rows are basic, and every column rests. -/
def slack (lp : LinearProgram α) : Basis where
  columns := lp.columnBounds.map Interval.restingStatus
  rows := Array.replicate lp.rowCount .basic

def basicCount (b : Basis) : Nat :=
  (b.columns.toList ++ b.rows.toList).countP VariableStatus.isBasic

/-- Whether the basis is one for that many columns and rows. -/
def fits (b : Basis) (columnCount rowCount : Nat) : Bool :=
  b.columns.size == columnCount && b.rows.size == rowCount

/-- The bounds allow the statuses. -/
def checkStatuses (kind : VariableKind) (statuses : Array VariableStatus)
    (bounds : Array (Interval α)) : Except (InputError α) Unit :=
  (List.zip statuses.toList bounds.toList).zipIdx.forM fun ((s, b), k) =>
    if b.allows s then pure () else throw (.basisStatus kind k s b)

/-- Whether a solve can start from the basis, or why not. -/
def validate (b : Basis) (lp : LinearProgram α) : Except (InputError α) Unit := do
  if b.columns.size ≠ lp.columnCount then
    throw (.basisSize lp.columnCount b.columns.size)
  if b.rows.size ≠ lp.rowCount then
    throw (.basisSize lp.rowCount b.rows.size)
  if b.basicCount ≠ lp.rowCount then
    throw (.basisCount lp.rowCount b.basicCount)
  checkStatuses .column b.columns lp.columnBounds
  checkStatuses .row b.rows lp.rowBounds

/-- The basis after columns with these bounds were added, which rest. -/
def appendColumns (b : Basis) (bounds : List (Interval α)) : Basis :=
  { b with columns := b.columns ++ (bounds.map Interval.restingStatus).toArray }

/-- The basis after rows were added, which are basic. -/
def appendRows (b : Basis) (count : Nat) : Basis :=
  { b with rows := b.rows ++ Array.replicate count .basic }

/-- A basis stays square if rows are added. -/
theorem basicCount_appendRows (b : Basis) (count : Nat) :
    (b.appendRows count).basicCount = b.basicCount + count := by
  simp [basicCount, appendRows, List.countP_replicate, VariableStatus.isBasic, Nat.add_assoc]

end Basis
end DualSimplex
