import Sensitivity.Scalar

/-!
# Dense matrices

A matrix is a shape and its entries row by row. `DenseMatrix.entry` reads an entry of
any coordinate, zero outside the shape, and `DenseMatrix.tabulate` builds a matrix
from its entries, so that every operation is an equation between entries.
-/

namespace Sensitivity

/-- `rows * cols` entries, row by row. -/
structure DenseMatrix (R : Type) where
  rows : Nat
  cols : Nat
  entries : Array R
  size_eq : entries.size = rows * cols

namespace DenseMatrix

variable {R : Type}

/-- The matrix with the entry `f r c` at row `r` and column `c`. -/
def tabulate (rows cols : Nat) (f : Nat → Nat → R) : DenseMatrix R where
  rows := rows
  cols := cols
  entries := Array.ofFn fun i : Fin (rows * cols) => f (i / cols) (i % cols)
  size_eq := Array.size_ofFn

/-- The matrix with these entries row by row, if there are as many as it takes. -/
def ofRows? (rows cols : Nat) (values : Array R) : Option (DenseMatrix R) :=
  if h : values.size = rows * cols then some ⟨rows, cols, values, h⟩ else none

/-- The entry at a coordinate inside the shape. -/
def get? (m : DenseMatrix R) (r c : Nat) : Option R :=
  if r < m.rows ∧ c < m.cols then m.entries[r * m.cols + c]? else none

variable [Scalar R]

/-- The entry at a coordinate; zero outside the shape. -/
def entry (m : DenseMatrix R) (r c : Nat) : R := (m.get? r c).getD 0

/-- The matrix of zeros. -/
def zeros (rows cols : Nat) : DenseMatrix R := tabulate rows cols fun _ _ => 0

/-- A matrix of one column. -/
def ofColumn (values : List R) : DenseMatrix R :=
  tabulate values.length 1 fun r _ => values.getD r 0

/-- The identity matrix. -/
def identity (n : Nat) : DenseMatrix R := tabulate n n fun r c => if r = c then 1 else 0

/-- The matrix with one entry replaced. -/
def set (m : DenseMatrix R) (r c : Nat) (v : R) : DenseMatrix R :=
  if r < m.rows ∧ c < m.cols then
    ⟨m.rows, m.cols, m.entries.setIfInBounds (r * m.cols + c) v, by simp [m.size_eq]⟩
  else m

/-- Applies a function to every entry. -/
def map (f : R → R) (m : DenseMatrix R) : DenseMatrix R :=
  ⟨m.rows, m.cols, m.entries.map f, by simp [m.size_eq]⟩

/-- Combines two matrices of one shape entry by entry. -/
def combine? (f : R → R → R) (m n : DenseMatrix R) : Option (DenseMatrix R) :=
  if m.rows = n.rows ∧ m.cols = n.cols then
    some (tabulate m.rows m.cols fun r c => f (m.entry r c) (n.entry r c))
  else none

/-- Whether a window of this shape with its corner at `(row, col)` lies inside. -/
def holdsWindow (m : DenseMatrix R) (row col rows cols : Nat) : Bool :=
  row + rows ≤ m.rows && col + cols ≤ m.cols

/-- Combines a smaller matrix into the window with its corner at `(row, col)`. -/
def combineAt (f : R → R → R) (m : DenseMatrix R) (row col : Nat) (n : DenseMatrix R) :
    DenseMatrix R :=
  tabulate m.rows m.cols fun r c =>
    if row ≤ r ∧ r < row + n.rows ∧ col ≤ c ∧ c < col + n.cols then
      f (m.entry r c) (n.entry (r - row) (c - col))
    else m.entry r c

/-- The entries of a column. -/
def column (m : DenseMatrix R) (c : Nat) : List R := (List.range m.rows).map fun r => m.entry r c

/-- The squares of a column, summed as eight interleaved running sums over full
groups of eight, their pairs four apart, and the rest one by one. -/
def sumSquares (xs : List R) : R :=
  let groups := xs.length / 8
  let lane (k : Nat) : R :=
    (List.range groups).foldl (fun acc g =>
      let x := xs.getD (8 * g + k) 0
      acc + x * x) 0
  let paired := (List.range 4).foldl (fun acc k => acc + (lane k + lane (k + 4))) 0
  (xs.drop (8 * groups)).foldl (fun acc x => acc + x * x) paired

/-- The Frobenius norm, column by column. -/
def norm (m : DenseMatrix R) : R :=
  Scalar.sqrt <| (List.range m.cols).foldl (fun acc c => acc + sumSquares (m.column c)) 0

end DenseMatrix

end Sensitivity
