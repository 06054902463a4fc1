import Sensitivity.DenseMatrix
import Sensitivity.Pattern
import Sensitivity.Action

/-!
# Derivative blocks

The derivative of one variable by another, dense or with values at the coordinates
of a pattern. A coordinate that a pattern lists several times stands for the sum of
its values; `Block.toDense?` is the matrix that a block means.
-/

namespace Sensitivity

/-- A block of partial derivatives. -/
inductive Block (R : Type) where
  | dense (m : DenseMatrix R)
  /-- `values[k]` at the `k`-th coordinate of the pattern. -/
  | sparse (pattern : Pattern) (values : List R) (rows cols : Nat)

/-- A number of values that differs from what a name takes. -/
structure ShapeMismatch where
  name : String
  expected : Nat
  actual : Nat

namespace Block

variable {R : Type}

/-- The number of rows. -/
def rows : Block R → Nat
  | dense m => m.rows
  | sparse _ _ rows _ => rows

/-- The number of columns. -/
def cols : Block R → Nat
  | dense m => m.cols
  | sparse _ _ _ cols => cols

/-- Whether only the entries of a pattern are stored. -/
def isSparse : Block R → Bool
  | dense _ => false
  | sparse .. => true

variable [Scalar R]

/-- The block of zeros, sparse when there is a pattern. -/
def zeros (rows cols : Nat) : Option Pattern → Block R
  | none => dense (.zeros rows cols)
  | some p => sparse p (List.replicate p.count 0) rows cols

/-- Replaces all values: row by row in a dense block, in the order of the pattern in
a sparse one. -/
def setValues (b : Block R) (flat : Array R) : Except ShapeMismatch (Block R) :=
  match b with
  | dense m =>
    match DenseMatrix.ofRows? m.rows m.cols flat with
    | some m' => .ok (dense m')
    | none => .error ⟨"partials block", m.rows * m.cols, flat.size⟩
  | sparse p values rows cols =>
    if flat.size = values.length then .ok (sparse p flat.toList rows cols)
    else .error ⟨"sparse partials block", values.length, flat.size⟩

/-- The coordinates of a sparse block with their values. -/
def terms (p : Pattern) (values : List R) : List ((Nat × Nat) × R) := p.coordinates.zip values

/-- The entry at a coordinate: in a dense block it has to lie in the shape, in a
sparse one it is the sum of what is listed there. -/
def get? : Block R → Nat → Nat → Option R
  | dense m, row, col => m.get? row col
  | sparse p values _ _, row, col =>
    some <| Scalar.sum <| ((terms p values).filter fun t => t.1 == (row, col)).map Prod.snd

/-- Adds `f v` at every listed coordinate, moved by `(row0, col0)`. Every one has to
lie in the matrix. -/
def addTerms? (f : R → R) (row0 col0 : Nat) :
    List ((Nat × Nat) × R) → DenseMatrix R → Option (DenseMatrix R)
  | [], m => some m
  | ((r, c), v) :: rest, m =>
    match m.get? (row0 + r) (col0 + c) with
    | some old => addTerms? f row0 col0 rest (m.set (row0 + r) (col0 + c) (old + f v))
    | none => none

/-- The matrix that the block means; a pattern must lie in the shape. -/
def toDense? : Block R → Option (DenseMatrix R)
  | dense m => some m
  | sparse p values rows cols => addTerms? id 0 0 (terms p values) (.zeros rows cols)

/-- Every value times the quotient of the references. -/
def scaled (refOf refWrt : R) : Block R → Block R
  | dense m => dense (m.map fun v => v * (refWrt / refOf))
  | sparse p values rows cols =>
    sparse p (values.map fun v => v * (refWrt / refOf)) rows cols

/-- Adds the block times a factor into the window of `target` with its corner at
`(row0, col0)`, which must hold it. -/
def addInto? (b : Block R) (target : DenseMatrix R) (row0 col0 : Nat) (factor : R) :
    Option (DenseMatrix R) :=
  match b with
  | dense m =>
    if target.holdsWindow row0 col0 m.rows m.cols then
      some (target.combineAt (fun old v => old + v * factor) row0 col0 m)
    else none
  | sparse p values _ _ => addTerms? (fun v => factor * v) row0 col0 (terms p values) target

end Block

end Sensitivity
