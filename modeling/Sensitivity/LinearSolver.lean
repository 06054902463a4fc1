import Sensitivity.DenseMatrix
import Sensitivity.Scalar.Double

/-!
# Direct solution of linear systems

`Elimination.factor` is Gaussian elimination with row pivoting in place: the pivot of
a column is the first entry of largest magnitude on or below the diagonal, the upper
triangle becomes the factor `U`, and below the diagonal stand the multipliers of `L`.
Substitution then solves one right-hand side at a time. A zero on the diagonal of
`U` makes the system singular.

Derivatives take whatever `DirectSolver` their scalars come with; doubles come with
elimination.
-/

namespace Sensitivity

/-- A method that solves `A X = B` for a square `A`; no answer when `A` is singular. -/
class DirectSolver (R : Type) where
  solve : DenseMatrix R → DenseMatrix R → Option (DenseMatrix R)

/-- Why a linear system has no solution. -/
inductive SystemError where
  | singular
  | dimensions (expected actual : Nat)
deriving DecidableEq

namespace SystemError

/-- The message of an error. -/
def message : SystemError → String
  | singular => "singular matrix"
  | dimensions expected actual => s!"dimension mismatch: expected {expected}, got {actual}"

end SystemError

/-- Solves `A X = B`. The matrix has to be square and as high as the right-hand side. -/
def solveSystem {R : Type} [DirectSolver R] (a b : DenseMatrix R) :
    Except SystemError (DenseMatrix R) :=
  if a.rows ≠ a.cols then .error (.dimensions a.rows a.cols)
  else if a.rows ≠ b.rows then .error (.dimensions a.rows b.rows)
  else
    match DirectSolver.solve a b with
    | some x => .ok x
    | none => .error .singular

/-- Solves `A x = b` for one right-hand side. -/
def solveColumn {R : Type} [Scalar R] [DirectSolver R] (a : DenseMatrix R) (b : List R) :
    Except SystemError (List R) :=
  (solveSystem a (.ofColumn b)).map fun x => x.column 0

namespace Elimination

variable {R : Type} [Scalar R]

/-- A matrix being eliminated and the row exchanges made so far. -/
structure Factored (R : Type) where
  lu : DenseMatrix R
  /-- Exchanges `(i, p)`, the first one first. -/
  swaps : List (Nat × Nat)

/-- The row a row exchange takes an entry from. -/
def exchange (i p r : Nat) : Nat := if r = i then p else if r = p then i else r

/-- Exchanges two rows. -/
def swapRows (m : DenseMatrix R) (i p : Nat) : DenseMatrix R :=
  .tabulate m.rows m.cols fun r c => m.entry (exchange i p r) c

/-- The first row from `i` on whose entry in column `i` is largest in magnitude. -/
def pivotRow (m : DenseMatrix R) (i : Nat) : Nat :=
  (List.range' (i + 1) (m.rows - (i + 1))).foldl
    (fun best r => if Scalar.abs (m.entry best i) < Scalar.abs (m.entry r i) then r else best) i

/-- Eliminates column `i` below the diagonal; the multipliers take its place. -/
def eliminate (m : DenseMatrix R) (i : Nat) : DenseMatrix R :=
  let inverse := 1 / m.entry i i
  .tabulate m.rows m.cols fun r c =>
    if i < r ∧ i ≤ c then
      let multiplier := m.entry r i * inverse
      if c = i then multiplier else (-(m.entry i c)) * multiplier + m.entry r c
    else m.entry r c

/-- One column of the elimination. A column without a nonzero pivot is left as it is. -/
def step (f : Factored R) (i : Nat) : Factored R :=
  let p := pivotRow f.lu i
  if f.lu.entry p i == 0 then f
  else ⟨eliminate (if p = i then f.lu else swapRows f.lu i p) i,
    if p = i then f.swaps else f.swaps ++ [(i, p)]⟩

/-- Eliminates all columns. -/
def factor (m : DenseMatrix R) : Factored R := (List.range m.rows).foldl step ⟨m, []⟩

/-- A right-hand side after the row exchanges. -/
def permute (swaps : List (Nat × Nat)) (b : List R) : List R :=
  swaps.foldl (fun b s => (List.range b.length).map fun r => b.getD (exchange s.1 s.2 r) 0) b

/-- Adds the multiple `-x` of column `i` to the rows chosen by `rows`. -/
def subtract (lu : DenseMatrix R) (i : Nat) (x : R) (rows : Nat → Bool) (b : List R) : List R :=
  b.mapIdx fun r v => if rows r then (-x) * lu.entry r i + v else v

/-- Solves with the unit lower triangle, from the first row on. -/
def forward (lu : DenseMatrix R) (b : List R) : List R :=
  (List.range (lu.rows - 1)).foldl (fun b i => subtract lu i (b.getD i 0) (i < ·) b) b

/-- Solves with the upper triangle, from row `k - 1` up. -/
def backward (lu : DenseMatrix R) : Nat → List R → Option (List R)
  | 0, b => some b
  | i + 1, b =>
    let d := lu.entry i i
    if d == 0 then none
    else
      let x := b.getD i 0 / d
      backward lu i (subtract lu i x (· < i) (b.set i x))

/-- Solves for one right-hand side. -/
def solveColumn (f : Factored R) (b : List R) : Option (List R) :=
  backward f.lu f.lu.rows (forward f.lu (permute f.swaps b))

/-- Solves for every column of `b`, one after another. -/
def solve (a b : DenseMatrix R) : Option (DenseMatrix R) :=
  let f := factor a
  ((List.range b.cols).mapM fun c => solveColumn f (b.column c)).map fun xs =>
    .tabulate b.rows b.cols fun r c => (xs.getD c []).getD r 0

end Elimination

/-- Doubles are solved by elimination. -/
instance DirectSolver.double : DirectSolver Float := ⟨Elimination.solve⟩

end Sensitivity
