import Sensitivity.Approximation.Error
import Sensitivity.LinearSolver

/-!
# Errors of models

What can go wrong while a model is built, run or differentiated.
-/

namespace Sensitivity

/-- Why a connection is refused. -/
inductive ConnectionIssue where
  | missingSource (source target : String)
  | missingTarget (source target : String)
  | notOutput (source : String)
  | notInput (target : String)
  | sizes (source : String) (sourceSize : Nat) (target : String) (targetSize : Nat)
  /-- An input can read one output only. -/
  | twoSources (target first second : String)

namespace ConnectionIssue

/-- The message of a refused connection. -/
def message : ConnectionIssue → String
  | missingSource s t => s!"source '{s}' of the connection to '{t}' does not exist"
  | missingTarget s t => s!"target '{t}' of the connection from '{s}' does not exist"
  | notOutput s => s!"'{s}' is not an output"
  | notInput t => s!"'{t}' is not an input"
  | sizes s m t n => s!"cannot connect '{s}' of size {m} to '{t}' of size {n}"
  | twoSources t first second => s!"input '{t}' is connected to both '{first}' and '{second}'"

end ConnectionIssue

/-- Why a model cannot be set up. -/
inductive SetupIssue where
  | subsystemName (name : String)
  | duplicateSubsystem (path : String)
  | duplicateVariable (name : String)
  | alreadySetUp

namespace SetupIssue

/-- The message of a refused setup. -/
def message : SetupIssue → String
  | subsystemName name => s!"'{name}' is not a valid subsystem name"
  | duplicateSubsystem path => s!"duplicate subsystem '{path}'"
  | duplicateVariable name => s!"duplicate variable '{name}'"
  | alreadySetUp => "problem is already set up"

end SetupIssue

/-- An error of a model. -/
inductive ModelError (R : Type) where
  | setup (issue : SetupIssue)
  | unknownVariable (name : String)
  | connection (issue : ConnectionIssue)
  /-- Derivatives of nothing, or by nothing. -/
  | noTotals
  /-- A selected entry that the variable does not have. -/
  | index (bad : Nat) (name : String) (size : Nat)
  /-- A check that would repeat the computation it is to check. -/
  | sameMethod (scope wrt : String)
  /-- The error of a component. -/
  | component (path : String) (e : DeclarationError R)
  | system (e : SystemError)
  | notConverged (scope : String) (iterations : Nat)
  | notSetUp
  | approximation (e : ApproximationError R)
  | declaration (e : DeclarationError R)

namespace ModelError

variable {R : Type} [Scalar R]

/-- The message of an error. -/
def message : ModelError R → String
  | setup issue => "setup error: " ++ issue.message
  | unknownVariable name => s!"variable not found: {name}"
  | connection issue => "connection error: " ++ issue.message
  | noTotals => "totals need at least one response and one design variable"
  | index bad name size => s!"index {bad} out of range for '{name}' of size {size}"
  | sameMethod scope wrt =>
    s!"{scope}: Checking partials with respect to variable '{wrt}' using the same method and " ++
      "options as are used to compute the partials will not provide any relevant information " ++
      "on the accuracy."
  | component path e => path ++ ": " ++ e.message
  | system e => e.message
  | notConverged scope iterations =>
    s!"{scope}: Newton failed to converge in {iterations} iterations"
  | notSetUp => "problem is not set up"
  | approximation e => e.message
  | declaration e => e.message

end ModelError

end Sensitivity
