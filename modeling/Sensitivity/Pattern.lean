/-!
# Sparsity patterns

A pattern lists the coordinates of the entries of a block that may be nonzero, rows
and columns in two lists of the same length. A coordinate may occur several times.
-/

namespace Sensitivity

/-- The coordinates `(rows[k], cols[k])`. -/
structure Pattern where
  rows : List Nat
  cols : List Nat
deriving DecidableEq

namespace Pattern

/-- The coordinates, in order. -/
def coordinates (p : Pattern) : List (Nat × Nat) := p.rows.zip p.cols

/-- The number of listed coordinates. -/
def count (p : Pattern) : Nat := p.rows.length

/-- Whether a coordinate is listed. -/
def contains (p : Pattern) (row col : Nat) : Bool := p.coordinates.contains (row, col)

/-- The rows listed with a column, in order. -/
def rowsInCol (p : Pattern) (col : Nat) : List Nat :=
  (p.coordinates.filter fun rc => rc.2 == col).map Prod.fst

/-- A coordinate for each row and each column, all of them inside the shape. -/
def fits (p : Pattern) (rows cols : Nat) : Bool :=
  p.rows.length == p.cols.length && p.rows.all (· < rows) && p.cols.all (· < cols)

end Pattern

end Sensitivity
