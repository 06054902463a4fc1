import Sensitivity.Approximation.Assembler

/-!
# Reports of checked derivatives

A report compares computed blocks with blocks approximated afresh, scope by scope.
Its two summary errors are the largest over all blocks; a block whose fresh
approximation is zero has no relative error and is passed over.
-/

namespace Sensitivity

/-- A computed block compared with a fresh one, in Frobenius norms. -/
structure Comparison (R : Type) where
  of : String
  wrt : String
  computedNorm : R
  freshNorm : R
  /-- The norm of the difference. -/
  absoluteError : R
  /-- The norm of the difference over that of the fresh block; undefined when it is zero. -/
  relativeError : R
  /-- Entries outside the declared pattern that the fresh block found not to be zero. -/
  excess : Option (Mismatch R)

namespace Comparison

variable {R : Type} [Scalar R]

/-- Compares two blocks of one shape. -/
def ofBlocks? (of wrt : String) (computed fresh : DenseMatrix R) (excess : Option (Mismatch R)) :
    Option (Comparison R) := do
  let error := (← computed.combine? (· - ·) fresh).norm
  let size := fresh.norm
  return ⟨of, wrt, computed.norm, size, error,
    if size == 0 then Scalar.undefined else error / size, excess⟩

end Comparison

/-- The comparisons for one component, or for the whole model. -/
structure ScopeReport (R : Type) where
  scope : String
  method : Method
  step : R
  comparisons : List (Comparison R)

/-- The outcome of a check. -/
structure Report (R : Type) where
  scopes : List (ScopeReport R)
  /-- The magnitude above which an entry outside a pattern counts. -/
  tolerance : R

namespace Report

variable {R : Type} (r : Report R)

/-- The comparison of a pair in the first scope of a name. -/
def find? (scope of wrt : String) : Option (Comparison R) := do
  let s ← r.scopes.find? fun s => s.scope == scope
  s.comparisons.find? fun c => c.of == of && c.wrt == wrt

/-- All comparisons. -/
def comparisons : List (Comparison R) := r.scopes.flatMap ScopeReport.comparisons

/-- The comparisons with entries outside their patterns, with their scopes. -/
def withExcess : List (String × Comparison R) :=
  r.scopes.flatMap fun s => (s.comparisons.filter (·.excess.isSome)).map fun c => (s.scope, c)

variable [Scalar R]

/-- The largest absolute error. -/
def maxAbsoluteError : R := Scalar.maximum (r.comparisons.map (·.absoluteError))

/-- The largest relative error that is defined. -/
def maxRelativeError : R :=
  Scalar.maximum ((r.comparisons.map (·.relativeError)).filter fun e => !Scalar.isUndefined e)

end Report

end Sensitivity
