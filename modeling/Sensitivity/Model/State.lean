import Sensitivity.Approximation.Scheme
import Sensitivity.Model.Flattening

/-!
# The state of a model

Everything about a model that changes: the values of its variables, the complex steps
under way, notices, and what its components and its approximation schemes keep from
one computation to the next.
-/

namespace Sensitivity

/-- The scheme of the approximated partials of a component that use one method. -/
structure MethodState (R : Type) where
  scheme : Scheme R
  /-- For each of these partials, whether the scheme has it; nothing before the first
  selection. -/
  selected : Option (List Bool)

/-- What a component keeps. -/
structure ComponentState (R M : Type) where
  memory : M
  /-- The number of times it was run, approximations included. -/
  runs : Nat
  partials : Partials R
  methods : List (MethodState R)

/-- The state of a model. -/
structure ModelState (R M : Type) where
  inputs : StateVector R
  outputs : StateVector R
  /-- The residuals of the last Newton iterations. -/
  residuals : StateVector R
  /-- The complex steps under way across a group or the model. -/
  stack : ActivationStack R
  diagnostics : Diagnostics
  components : List (ComponentState R M)
  /-- For each group, the scheme of its derivatives if it approximates them. -/
  schemes : List (Option (Scheme R))
  /-- The blocks that the scheme of the root has. -/
  rootRequests : Option (List (Request R))

namespace ModelState

variable {R M : Type}

/-- The values of the variables of a kind. -/
def vector (s : ModelState R M) : VariableKind → StateVector R
  | .input => s.inputs
  | .output => s.outputs

/-- The state with the values of the variables of a kind replaced. -/
def setVector (s : ModelState R M) (kind : VariableKind) (v : StateVector R) : ModelState R M :=
  match kind with
  | .input => { s with inputs := v }
  | .output => { s with outputs := v }

/-- The state with what a component keeps changed. -/
def modifyComponent (s : ModelState R M) (c : Nat)
    (f : ComponentState R M → ComponentState R M) : ModelState R M :=
  { s with components := s.components.modify c f }

/-- Returns the values of all vectors to a saved state. -/
def restore [Scalar R] (saved s : ModelState R M) : ModelState R M :=
  { s with
    inputs := saved.inputs.restore s.inputs
    outputs := saved.outputs.restore s.outputs
    residuals := saved.residuals.restore s.residuals }

/-- The largest absolute imaginary part of any value. -/
def imaginaryNorm [Scalar R] (s : ModelState R M) : R :=
  Scalar.max (Scalar.max s.inputs.imagMaxAbs s.outputs.imagMaxAbs) s.residuals.imagMaxAbs

end ModelState

/-- Work on the state of a model. -/
abbrev ModelWork (R M α : Type) := Action (ModelState R M) (ModelError R) α

namespace Model

variable {R M : Type} (m : Model R M)

/-- A component by its number. -/
def component (c : Nat) : ModelWork R M (ModelComponent R M) :=
  .ofOutcome (.ofOption m.components[c]?)

/-- What a component keeps. -/
def kept (c : Nat) : ModelWork R M (ComponentState R M) :=
  .read fun s => .ofOption s.components[c]?

/-- The number of a variable. -/
def variableId (name : String) : Except (ModelError R) Nat :=
  match m.variableTable.indexOf? name with
  | some id => .ok id
  | none => .error (.unknownVariable name)

/-- A variable by its name. -/
def lookup (name : String) : Except (ModelError R) (ModelVariable R) :=
  match m.variableTable.get? name with
  | some v => .ok v
  | none => .error (.unknownVariable name)

/-- The real values of a variable. -/
def value (name : String) (s : ModelState R M) : Except (ModelError R) (List R) := do
  let v ← m.lookup name
  return ((s.vector v.kind).readReal v.span).toList

/-- Replaces the real values of a variable. -/
def setValue (name : String) (values : List R) : ModelWork R M Unit := do
  let v ← Action.ofOutcome (.ofExcept (m.lookup name))
  if values.length ≠ v.size then
    Action.fail (.system (.dimensions v.size values.length))
  modify fun s => s.setVector v.kind ((s.vector v.kind).writeReal v.span values.toArray)

/-- The number of runs of the component at a path. -/
def runs? (path : String) (s : ModelState R M) : Option Nat := do
  return (← s.components[← m.components.findIdx? fun c => c.path == path]?).runs

section Starting

variable [Scalar R]

/-- The values that the variables of a kind start with, in the order of their numbers. -/
def startValues (kind : VariableKind) : List R :=
  (m.variableTable.values.filter fun v => v.kind = kind).flatMap fun v => v.spec.value

/-- What a component keeps at the start. -/
def startComponent (c : ModelComponent R M) : ComponentState R M where
  memory := c.component.memory
  runs := 0
  partials := .zeros c.partials c.layout
  methods := c.methods.map fun _ => ⟨.empty c.path .component m.policy, none⟩

/-- The scheme of a group at the start, if it approximates its derivatives. Blocks of
the root are asked for later. -/
def startScheme (g : ModelGroup R) : Except (ApproximationError R) (Option (Scheme R)) :=
  match g.approximation with
  | none => .ok none
  | some settings => do
    let scheme : Scheme R := .empty g.label .group m.policy
    if g.path.isEmpty then return some scheme
    let pairs := m.groupPairs g
    return some (← scheme.addRequests (pairs.map fun p => .whole p.1 p.2 settings))

/-- The state of a model after its setup. -/
def start : Outcome (ModelError R) (ModelState R M) := do
  let schemes ← Outcome.mapError .approximation <| .ofExcept <|
    m.groups.mapM fun g => m.startScheme g.1
  return {
    inputs := .ofReal (m.startValues .input).toArray m.complex
    outputs := .ofReal (m.startValues .output).toArray m.complex
    residuals := .zeros m.outputLength m.complex
    stack := .empty
    diagnostics := .empty
    components := m.components.map m.startComponent
    schemes := schemes
    rootRequests := none }

end Starting

end Model

end Sensitivity
