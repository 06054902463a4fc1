import Sensitivity.Approximation.Error
import Sensitivity.Action
import Sensitivity.Graph.Relevance

/-!
# Evaluated scopes

A target is anything whose derivatives can be approximated: variables that can be read
and perturbed, an evaluation, and a way back. It is given by its operations on a state
`σ`; saving is keeping the state, and `Target.restore` returns the values of a saved
state to a later one.
-/

namespace Sensitivity

/-- Which part of a value to read. -/
inductive Part where
  | real
  | imag
deriving DecidableEq

/-- The arithmetic of an evaluation. -/
inductive Mode where
  | real
  | complex
deriving DecidableEq

/-- What is added to an entry. -/
inductive Delta (R : Type) where
  | real (h : R)
  | imag (h : R)

/-- An entry of a variable and the step it is perturbed by. -/
structure Perturbation (R : Type) where
  name : String
  index : Nat
  step : R

/-- The operations of an evaluated scope on its state. -/
structure Target (R σ : Type) where
  /-- The number of entries of a variable. -/
  size : σ → String → Outcome (ApproximationError R) Nat
  /-- The current values of a variable. -/
  values : σ → String → Part → Outcome (ApproximationError R) (List R)
  /-- Adds to an entry of a variable. -/
  perturb : String → Nat → Delta R → Action σ (ApproximationError R) Unit
  /-- Runs the active components, or whatever the scope consists of. -/
  evaluate : ActiveSet → Mode → Action σ (ApproximationError R) Unit
  /-- Returns the values of a saved state. -/
  restore : σ → σ → σ
  /-- Whether complex evaluations carry derivatives. -/
  complexCapable : σ → Bool
  /-- Whether a complex step is under way around the scope. -/
  complexStepActive : σ → Bool
  /-- Notes that a complex step begins. -/
  enter : String → R → σ → σ
  /-- Notes that the innermost complex step ends. -/
  leave : σ → σ
  /-- The dependencies that tell which components matter; without any, all run. -/
  graph : σ → Option DependencyGraph

namespace Target

variable {R σ : Type} (T : Target R σ)

/-- Reads several variables. -/
def readAll (names : List String) (part : Part) :
    Action σ (ApproximationError R) (List (String × List R)) :=
  .read fun s => names.mapM fun n => do return (n, ← T.values s n part)

/-- Performs an action and returns to the saved values, whether or not it succeeds. -/
def thenRestore {α : Type} (saved : σ) (a : Action σ (ApproximationError R) α) :
    Action σ (ApproximationError R) α :=
  .of fun s =>
    let r := a.perform s
    (r.1, T.restore saved r.2)

end Target

end Sensitivity
