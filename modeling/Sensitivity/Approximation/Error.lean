import Sensitivity.Declaration.Error

/-!
# Errors of approximations

What can go wrong between asking for approximated blocks and having them.
-/

namespace Sensitivity

/-- An error of an approximation. -/
inductive ApproximationError (R : Type) where
  /-- No stencil of this order exists for this form. -/
  | stencil (order : Nat) (form : Form)
  /-- A selected entry that the variable does not have. -/
  | index (bad : Nat) (name : String) (size : Nat)
  /-- A pattern that does not fit the block. -/
  | pattern (of wrt : String) (rows cols : Nat)
  /-- Partial results of different plans cannot be merged. -/
  | mergePlans
  /-- A dense and a sparse block cannot be merged. -/
  | mergeKinds
  /-- The evaluated scope refuses an operation, in its own words. -/
  | refused (message : String)
  /-- The evaluated scope fails, in its own words. -/
  | evaluation (scope message : String)
  /-- Entries outside a pattern are not zero. -/
  | excess (scope of wrt : String) (count : Nat)
  | unknownVariable (name : String)
  /-- Directions are missing. -/
  | incomplete (done total : Nat)
  | declaration (e : DeclarationError R)

namespace ApproximationError

variable {R : Type} [Scalar R]

/-- The message of an error. -/
def message : ApproximationError R → String
  | stencil order form =>
    let name := Named.name form
    s!"order {order} is not available for '{name}' differences"
  | index bad name size => s!"index {bad} out of range for '{name}' of size {size}"
  | pattern of wrt rows cols =>
    s!"sparsity of '{of}' wrt '{wrt}' does not fit a ({rows}, {cols}) block"
  | mergePlans => "cannot merge assemblers built from different plans"
  | mergeKinds => "cannot merge dense and sparse blocks"
  | refused message => message
  | evaluation scope message => s!"{scope}: evaluation failed: {message}"
  | excess scope of wrt count =>
    s!"{scope}: sparsity of '{of}' wrt '{wrt}' excludes {count} entries which appear to be non-zero"
  | unknownVariable name => s!"variable not found: {name}"
  | incomplete done total => s!"incomplete assembly: {done} of {total} directions deposited"
  | declaration e => e.message

end ApproximationError

end Sensitivity
