import Sensitivity.Model.State

/-!
# Approximating inside a component

The target of a component's own partials: the component by itself, on copies of the
real parts of its variables, so that approximating its partials never changes the
vectors of the model.
-/

namespace Sensitivity

/-- A component on copies of its variables. -/
structure ComponentScope (R M : Type) where
  memory : M
  runs : Nat
  inputs : StateVector R
  outputs : StateVector R
  /-- The complex steps under way on these copies. -/
  stack : ActivationStack R

namespace ComponentScope

variable {R M : Type}

/-- The variables of a kind. -/
def vector (s : ComponentScope R M) : VariableKind → StateVector R
  | .input => s.inputs
  | .output => s.outputs

/-- The scope with the variables of a kind replaced. -/
def setVector (s : ComponentScope R M) (kind : VariableKind) (v : StateVector R) :
    ComponentScope R M :=
  match kind with
  | .input => { s with inputs := v }
  | .output => { s with outputs := v }

/-- The scope of a component with these values. -/
def start [Scalar R] (kept : ComponentState R M) (x y : Array R) (complex : Bool) :
    ComponentScope R M where
  memory := kept.memory
  runs := kept.runs
  inputs := .ofReal x complex
  outputs := .ofReal y complex
  stack := .empty

end ComponentScope

/-- A part of some values. -/
def StateVector.readPart {R : Type} [Scalar R] (v : StateVector R) (s : Span) : Part → List R
  | .real => (v.readReal s).toList
  | .imag => (v.readImag s).toList

/-- Adds to an entry. Only a vector with a shadow takes an imaginary part; without one
`refusal` is the error. -/
def StateVector.perturb {R : Type} [Scalar R] (v : StateVector R) (refusal : String) (i : Nat) :
    Delta R → Outcome (ApproximationError R) (StateVector R)
  | .real h => .ofOption (v.addReal? i h)
  | .imag h => if v.isComplex then .ofOption (v.addImag? i h) else Outcome.fail (.refused refusal)

/-- The refusal of an imaginary perturbation. -/
def shadowMissing (scope : String) : String := scope ++ ": complex step requires complex storage"

namespace ModelComponent

variable {R M : Type} [Scalar R] (c : ModelComponent R M)

/-- Where a variable stands among the inputs or the outputs of a component. -/
def locate (name : String) : Outcome (ApproximationError R) (VariableKind × Span) :=
  .expect (.unknownVariable (joinPath c.path name)) (c.layout.locate? name)

/-- Adds to an entry of a variable. -/
def perturb (name : String) (index : Nat) (delta : Delta R) :
    Action (ComponentScope R M) (ApproximationError R) Unit := do
  let s ← get
  let (kind, span) ← Action.ofOutcome (c.locate name)
  let v ← Action.ofOutcome
    ((s.vector kind).perturb (shadowMissing c.path) (span.start + index) delta)
  set (s.setVector kind v)

/-- Runs the component once. -/
def evaluate (mode : Mode) : Action (ComponentScope R M) (ApproximationError R) Unit :=
  .of fun s =>
    let all (v : StateVector R) : Span := ⟨0, v.size⟩
    let complex := mode = .complex && s.inputs.isComplex
    let (outcome, memory, outputs) :=
      (c.component.evaluate s.inputs (all s.inputs) (all s.outputs) complex).perform
        (s.memory, s.outputs)
    (outcome.mapError fun e => .evaluation c.path e.message,
      { s with memory := memory, runs := s.runs + 1, outputs := outputs })

/-- A component as a target. `enclosed` says that a complex step is under way around
it. -/
def target (enclosed : Bool) : Target R (ComponentScope R M) where
  size _ name := do return (← c.locate name).2.size
  values s name part := do
    let (kind, span) ← c.locate name
    return (s.vector kind).readPart span part
  perturb := c.perturb
  evaluate _ := c.evaluate
  restore saved s :=
    { s with
      inputs := saved.inputs.restore s.inputs
      outputs := saved.outputs.restore s.outputs }
  complexCapable s := s.inputs.isComplex
  complexStepActive s := enclosed || s.stack.isActive
  enter owner step s := { s with stack := s.stack.push owner step }
  leave s := { s with stack := s.stack.pop }
  graph _ := none

end ModelComponent

end Sensitivity
