import Sensitivity.Graph.Search
import Sensitivity.System

/-!
# Models

A model is a system laid out flat. Its components are numbered in the order in which
they run, so that the members of every group are a run of consecutive numbers and
their outputs one span of the output vector; variables are numbered in the order of
their declaration, and their numbers are the nodes of the dependency graph.

What is left of the tree is the `Schedule`: the order of the components with the
groups around them.
-/

namespace Sensitivity

/-- A variable with its place in a model. -/
structure ModelVariable (R : Type) where
  /-- The path of its component and its own name, joined by points. -/
  name : String
  localName : String
  kind : VariableKind
  /-- The number of its component. -/
  owner : Nat
  spec : VariableSpec R
  /-- Where it starts in the vector of its kind. -/
  start : Nat

namespace ModelVariable

/-- The number of entries. -/
def size {R : Type} (v : ModelVariable R) : Nat := v.spec.size

/-- Where it stands in the vector of its kind. -/
def span {R : Type} (v : ModelVariable R) : Span := ⟨v.start, v.size⟩

end ModelVariable

/-- A component with its place in a model. -/
structure ModelComponent (R M : Type) where
  path : String
  component : Component R M
  layout : Layout
  /-- Where its inputs stand among all inputs. -/
  inputs : Span
  /-- Where its outputs stand among all outputs. -/
  outputs : Span
  /-- The numbers of its inputs, in their own order. -/
  inputIds : List Nat
  /-- The numbers of its outputs, in their own order. -/
  outputIds : List Nat
  partials : List (DeclaredPartial R)
  checkSettings : Option (Settings R)
  /-- The methods of its approximated partials, with the places of these in the list. -/
  methods : List (Method × List Nat)

namespace ModelComponent

variable {R M : Type} (c : ModelComponent R M)

/-- The number of an input. -/
def inputId? (name : String) : Option Nat := do c.inputIds[← c.layout.inputs.indexOf? name]?

/-- The number of an output. -/
def outputId? (name : String) : Option Nat := do c.outputIds[← c.layout.outputs.indexOf? name]?

/-- The numbers of the two variables of a declared partial. -/
def ends? (p : DeclaredPartial R) : Option (Nat × Nat) := do
  return (← c.inputId? p.wrt, ← c.outputId? p.of)

end ModelComponent

/-- A group with its place in a model. -/
structure ModelGroup (R : Type) where
  number : Nat
  /-- The path from the root; empty for the root itself. -/
  path : String
  /-- The numbers of the components in it. -/
  components : Span
  solver : Solver R
  approximation : Option (Settings R)

namespace ModelGroup

variable {R : Type}

/-- What the whole model is called. -/
def rootLabel : String := "model"

/-- The name of the group in messages. -/
def label (g : ModelGroup R) : String := if g.path.isEmpty then rootLabel else g.path

/-- The numbers of the components in it, in order. -/
def members (g : ModelGroup R) : List Nat := g.components.positions

end ModelGroup

/-- The order in which components run, with the groups around them. -/
inductive Schedule (R : Type) where
  | done
  | component (c : Nat) (rest : Schedule R)
  | group (g : ModelGroup R) (body rest : Schedule R)

namespace Schedule

/-- The groups in a schedule, each before those inside it. -/
def groups {R : Type} : Schedule R → List (ModelGroup R × Schedule R)
  | done => []
  | component _ rest => rest.groups
  | group g body rest => (g, body) :: body.groups ++ rest.groups

end Schedule

/-- A system laid out flat. -/
structure Model (R M : Type) where
  components : List (ModelComponent R M)
  root : ModelGroup R
  /-- The schedule of the root. -/
  schedule : Schedule R
  /-- All variables by their full names. -/
  variableTable : Table String (ModelVariable R)
  /-- For each variable, the output that it reads, if it is a connected input. -/
  sources : List (Option Nat)
  graph : DependencyGraph
  /-- The number of entries of all inputs. -/
  inputLength : Nat
  /-- The number of entries of all outputs. -/
  outputLength : Nat
  /-- Whether imaginary parts are stored. -/
  complex : Bool
  /-- What to do about entries outside declared patterns. -/
  policy : PatternPolicy

namespace Model

variable {R M : Type} (m : Model R M)

/-- All groups in the order of their numbers. -/
def groups : List (ModelGroup R × Schedule R) := (m.root, m.schedule) :: m.schedule.groups

/-- A variable by its number. -/
def variableAt? (id : Nat) : Option (ModelVariable R) := m.variableTable.values[id]?

/-- The output that a connected input reads. -/
def source? (id : Nat) : Option Nat := m.sources[id]?.join

/-- The variable that stands for another one: a connected input stands for its source. -/
def effective (id : Nat) : Nat := (m.source? id).getD id

/-- The inputs of a group that are not connected, or read an output from outside. -/
def externalInputs (g : ModelGroup R) : List Nat :=
  let inputs := g.members.flatMap fun c => (m.components[c]?.map (·.inputIds)).getD []
  inputs.filter fun id =>
    match (m.source? id).bind m.variableAt? with
    | some source => !g.components.contains source.owner
    | none => true

/-- The outputs of the components of a group. -/
def groupOutputs (g : ModelGroup R) : List Nat :=
  g.members.flatMap fun c => (m.components[c]?.map (·.outputIds)).getD []

/-- The names of some variables. -/
def namesOf (ids : List Nat) : List String :=
  ids.filterMap fun id => (m.variableAt? id).map (·.name)

/-- The pairs of variables that a group approximates as a whole: each of its outputs
by each of its external inputs. -/
def groupPairs (g : ModelGroup R) : List (String × String) :=
  (m.namesOf (m.groupOutputs g)).flatMap fun of =>
    (m.namesOf (m.externalInputs g)).map fun wrt => (of, wrt)

end Model

end Sensitivity
