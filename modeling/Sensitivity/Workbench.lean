import Sensitivity.Approximation.Target
import Sensitivity.Approximation.ComplexStep
import Sensitivity.Component

/-!
# A component on the bench

One component as an evaluated scope of its own, outside any model. The bench holds its
variables, counts evaluations, can be told to fail from some evaluation on, and keeps a
record of the calls made on it.
-/

namespace Sensitivity

/-- A call made on a bench. -/
inductive BenchCall (R : Type) where
  | perturbReal (name : String) (index : Nat) (h : R)
  | perturbImag (name : String) (index : Nat) (h : R)
  | evaluate (mode : Mode) (active : ActiveSet)
  | restore
  | enter (owner : String) (step : R)
  | leave

/-- A component with its variables. -/
structure Bench (R M : Type) where
  component : Component R M
  scope : String
  layout : Layout
  inputs : StateVector R
  outputs : StateVector R
  memory : M
  /-- The number of evaluations, failed ones included. -/
  evaluations : Nat
  /-- The number of evaluations after which every further one fails. -/
  failAfter : Option Nat
  stack : ActivationStack R
  graph : Option DependencyGraph
  /-- The calls made so far. -/
  calls : List (BenchCall R)

namespace Bench

variable {R M : Type} [Scalar R]

/-- The starting values of declared variables, flat. -/
def startValues (specs : Table String (VariableSpec R)) : Array R :=
  (specs.values.flatMap VariableSpec.value).toArray

/-- Runs the component. -/
def compute (complex : Bool) : Action (Bench R M) (DeclarationError R) Unit :=
  .of fun b =>
    let all (v : StateVector R) : Span := ⟨0, v.size⟩
    let (outcome, memory, outputs) :=
      (b.component.evaluate b.inputs (all b.inputs) (all b.outputs) complex).perform
        (b.memory, b.outputs)
    (outcome, { b with memory := memory, outputs := outputs })

/-- Puts a component on the bench and runs it once. -/
def setUp (component : Component R M) (scope : String) (complex : Bool)
    (graph : Option DependencyGraph) (failAfter : Option Nat) :
    Outcome (DeclarationError R) (Bench R M) := do
  let d ← component.declarations
  let b : Bench R M := {
    component := component
    scope := scope
    layout := .ofDeclarations d
    inputs := .ofReal (startValues d.inputs) complex
    outputs := .ofReal (startValues d.outputs) complex
    memory := component.memory
    evaluations := 0
    failAfter := failAfter
    stack := .empty
    graph := graph
    calls := [] }
  let (outcome, b) := (compute false).perform b
  outcome
  return b

/-- Where a variable stands. -/
def locate (b : Bench R M) (name : String) :
    Outcome (ApproximationError R) (VariableKind × Span) :=
  .expect (.unknownVariable name) (b.layout.locate? name)

/-- The variables of a kind. -/
def vector (b : Bench R M) : VariableKind → StateVector R
  | .input => b.inputs
  | .output => b.outputs

/-- The bench with the variables of a kind replaced. -/
def setVector (b : Bench R M) (kind : VariableKind) (v : StateVector R) : Bench R M :=
  match kind with
  | .input => { b with inputs := v }
  | .output => { b with outputs := v }

/-- Records a call. -/
def note (call : BenchCall R) (b : Bench R M) : Bench R M := { b with calls := b.calls ++ [call] }

/-- The current values of a variable. -/
def values (b : Bench R M) (name : String) (part : Part) :
    Outcome (ApproximationError R) (List R) := do
  let (kind, span) ← b.locate name
  match part with
  | .real => return ((b.vector kind).readReal span).toList
  | .imag => return ((b.vector kind).readImag span).toList

/-- Adds to an entry. -/
def perturb (name : String) (index : Nat) (delta : Delta R) :
    Action (Bench R M) (ApproximationError R) Unit := do
  let b ← get
  let (kind, span) ← Action.ofOutcome (b.locate name)
  let v := b.vector kind
  let i := span.start + index
  match delta with
  | .real h =>
    let moved ← Action.ofOutcome (.ofOption (v.addReal? i h))
    set ((b.setVector kind moved).note (.perturbReal name index h))
  | .imag h =>
    if !v.isComplex then
      let scope := b.scope
      Action.fail (.refused s!"{scope}: no complex storage")
    let moved ← Action.ofOutcome (.ofOption (v.addImag? i h))
    set ((b.setVector kind moved).note (.perturbImag name index h))

/-- Runs the component unless the bench was told to fail. -/
def evaluate (active : ActiveSet) (mode : Mode) :
    Action (Bench R M) (ApproximationError R) Unit := do
  modify fun b => { b.note (.evaluate mode active) with evaluations := b.evaluations + 1 }
  let b ← get
  if b.failAfter.any (· < b.evaluations) then
    Action.fail (.evaluation b.scope "evaluation limit reached")
  (compute (mode = .complex && b.inputs.isComplex)).mapError
    fun e => .evaluation b.scope e.message

/-- Writes the real values of a variable, and runs the component unless told not to. -/
def assign (name : String) (values : List R) (run : Bool) :
    Action (Bench R M) (ApproximationError R) Unit := do
  let b ← get
  let (kind, span) ← Action.ofOutcome (b.locate name)
  if values.length ≠ span.size then throw .breach
  set (b.setVector kind ((b.vector kind).writeReal span values.toArray))
  if run then (compute false).mapError .declaration

/-- A bench as a target. -/
def target : Target R (Bench R M) where
  size b name := do return (← b.locate name).2.size
  values := values
  perturb := perturb
  evaluate := evaluate
  restore saved b :=
    { b with
      inputs := saved.inputs.restore b.inputs
      outputs := saved.outputs.restore b.outputs }.note .restore
  complexCapable b := b.inputs.isComplex && b.component.complexSafe
  complexStepActive b := b.stack.isActive
  enter owner step b := { b with stack := b.stack.push owner step }.note (.enter owner step)
  leave b := { b with stack := b.stack.pop }.note .leave
  graph b := b.graph

end Bench

end Sensitivity
