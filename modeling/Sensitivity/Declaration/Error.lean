import Sensitivity.Settings
import Sensitivity.Block

/-!
# Errors of declarations and components

What can be wrong with the variables and partial derivatives that a component
declares, and what a component can report when it computes.
-/

namespace Sensitivity

/-- An error of a declaration or of a component's own computation. -/
inductive DeclarationError (R : Type) where
  | unknownVariable (name : String)
  | duplicateVariable (name : String)
  | shapeMismatch (mismatch : ShapeMismatch)
  | setting (issue : SettingIssue R)
  /-- A scaling reference that is zero or not finite. -/
  | reference (name : String) (value : R)
  /-- A pattern with different numbers of rows and columns. -/
  | patternLengths (of wrt : String) (rows cols : Nat)
  | patternRow (row : Nat) (of : String) (size : Nat)
  | patternCol (col : Nat) (wrt : String) (size : Nat)
  /-- A name that is empty or has a point. -/
  | variableName (name : String)
  /-- A variable without entries. -/
  | emptyVariable (name : String)
  /-- Reported by a component, in its own words. -/
  | compute (message : String)

namespace DeclarationError

/-- The partial derivatives of a pair of variables, as messages call them. -/
def partialsName (of wrt : String) : String := s!"partials of '{of}' wrt '{wrt}'"

variable {R : Type} [Scalar R]

/-- The message of an error. -/
def message : DeclarationError R → String
  | unknownVariable name => s!"variable not found: {name}"
  | duplicateVariable name => s!"duplicate variable: {name}"
  | shapeMismatch ⟨name, expected, actual⟩ =>
    s!"shape mismatch for '{name}': expected {expected} values, got {actual}"
  | setting issue => issue.message
  | reference name value =>
    let text := Scalar.plainText value
    s!"ref of '{name}' must be finite and non-zero, got {text}"
  | patternLengths of wrt rows cols =>
    s!"sparsity of '{of}' wrt '{wrt}' has {rows} rows but {cols} cols"
  | patternRow row of size => s!"sparsity row {row} out of range for '{of}' of size {size}"
  | patternCol col wrt size => s!"sparsity col {col} out of range for '{wrt}' of size {size}"
  | variableName name => s!"invalid model: '{name}' is not a valid variable name"
  | emptyVariable name => s!"invalid model: variable '{name}' has zero size"
  | compute message => message

end DeclarationError

end Sensitivity
