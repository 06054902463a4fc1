import Sensitivity.Layout
import Sensitivity.StateVector
import Sensitivity.Action

/-!
# Components

A component computes outputs from inputs, in real and in complex arithmetic, and fills
in the partial derivatives that it declares analytically. It sees its variables flat,
in the order of its declarations, and its outputs as they were before. What it keeps
between calls is a memory of type `M`.
-/

namespace Sensitivity

/-- A unit of computation. -/
structure Component (R M : Type) where
  /-- What it declares, or why it cannot be set up. -/
  declarations : Outcome (DeclarationError R) (Declarations R)
  /-- The memory it starts with. -/
  memory : M
  /-- From inputs and previous outputs to outputs. -/
  computeReal : Array R → Array R → Action M (DeclarationError R) (Array R)
  /-- The same in complex arithmetic. -/
  computeComplex : Array (ComplexNumber R) → Array (ComplexNumber R) →
    Action M (DeclarationError R) (Array (ComplexNumber R))
  /-- Fills in partial derivatives at real inputs. -/
  computePartials : Array R → Action (M × Partials R) (DeclarationError R) Unit
  /-- Whether complex evaluations carry derivatives. -/
  complexSafe : Bool

namespace Component

variable {R M : Type} [Scalar R]

/-- Evaluates a component from a span of the inputs into a span of the outputs. The
outputs change only when the evaluation succeeds. -/
def evaluate (c : Component R M) (inputs : StateVector R) (source target : Span)
    (complex : Bool) : Action (M × StateVector R) (DeclarationError R) Unit :=
  .of fun (m, outputs) =>
    if complex then
      match (c.computeComplex (inputs.readComplex source)
          (outputs.readComplex target)).perform m with
      | (.ok y, m) => (.ok (), m, outputs.storeComplex target y)
      | (.error e, m) => (.error e, m, outputs)
    else
      match (c.computeReal (inputs.readReal source) (outputs.readReal target)).perform m with
      | (.ok y, m) => (.ok (), m, outputs.storeReal target y)
      | (.error e, m) => (.error e, m, outputs)

/-- Independent variables: outputs that keep whatever value was set. -/
def independent (memory : M) (outputs : List (String × VariableSpec R)) : Component R M where
  declarations := .ofExcept <|
    outputs.foldlM (fun d v => d.addVariable .output v.1 v.2) (∅ : Declarations R)
  memory := memory
  computeReal _ y := pure y
  computeComplex _ y := pure y
  computePartials _ := pure ()
  complexSafe := true

end Component

end Sensitivity
