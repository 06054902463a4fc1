import Sensitivity.Scalar

/-!
# Variables

What a component says about one of its variables: its shape, the values it starts
from and the reference that derivatives are scaled with.
-/

namespace Sensitivity

/-- Whether a component reads a variable or computes it. -/
inductive VariableKind where
  | input
  | output
deriving DecidableEq, Inhabited

/-- Shape, starting values and scaling reference of a variable. -/
structure VariableSpec (R : Type) where
  shape : List Nat
  value : List R
  /-- Scaled derivatives are `J * reference wrt / reference of`. -/
  reference : R

namespace VariableSpec

variable {R : Type}

/-- The number of entries that the shape stands for. -/
def size (v : VariableSpec R) : Nat := v.shape.foldl (· * ·) 1

variable [Scalar R]

/-- A flat vector. -/
def vector (values : List R) : VariableSpec R := ⟨[values.length], values, 1⟩

/-- One number. -/
def scalar (value : R) : VariableSpec R := vector [value]

/-- A flat vector of zeros. -/
def zeros (n : Nat) : VariableSpec R := vector (List.replicate n 0)

end VariableSpec

end Sensitivity
