import Sensitivity.Model
import Sensitivity.Model.Error

/-!
# Laying a system out flat

`Flattening.addMembers` walks the tree depth first and numbers components, groups and
variables as it meets them; `Model.ofGroup` then joins inputs to their sources. The
first thing that is wrong ends it: names and declarations in the order of the walk,
then connections, those of inner groups first.
-/

namespace Sensitivity

/-- How a model is set up. -/
structure SetupSettings where
  /-- Store imaginary parts even if no complex step is declared. -/
  forceComplex : Bool
  /-- What to do about entries outside declared patterns. -/
  policy : PatternPolicy

namespace SetupSettings

/-- Imaginary parts where they are needed, and notices about patterns. -/
def standard : SetupSettings := ⟨false, .warn⟩

end SetupSettings

/-- A path with a name behind it. -/
def joinPath (path name : String) : String :=
  if path.isEmpty then name else path ++ "." ++ name

/-- A system partly laid out. -/
structure Flattening (R M : Type) where
  components : List (ModelComponent R M)
  /-- The number of groups so far. -/
  groups : Nat
  variableTable : Table String (ModelVariable R)
  graph : DependencyGraph
  /-- The connections so far, by full names. -/
  connections : List (String × String)
  inputLength : Nat
  outputLength : Nat

namespace Flattening

variable {R M : Type}

/-- Nothing laid out. -/
def empty : Flattening R M := ⟨[], 0, ∅, ∅, [], 0, 0⟩

/-- The number of entries of a kind so far. -/
def lengthOf (f : Flattening R M) : VariableKind → Nat
  | .input => f.inputLength
  | .output => f.outputLength

/-- Counts the entries of a new variable. -/
def grow (f : Flattening R M) (kind : VariableKind) (n : Nat) : Flattening R M :=
  match kind with
  | .input => { f with inputLength := f.inputLength + n }
  | .output => { f with outputLength := f.outputLength + n }

/-- Adds a variable of a component and gives its number. -/
def addVariable (f : Flattening R M) (path : String) (kind : VariableKind) (owner : Nat)
    (localName : String) (spec : VariableSpec R) :
    Outcome (ModelError R) (Flattening R M × Nat) := do
  let name := joinPath path localName
  if f.variableTable.contains name then Outcome.fail (.setup (.duplicateVariable name))
  let (graph, id) ← Outcome.ofOption (f.graph.addVariable? name kind owner)
  let added : ModelVariable R := ⟨name, localName, kind, owner, spec, f.lengthOf kind⟩
  return ({ f.grow kind spec.size with
    variableTable := f.variableTable.insert name added, graph := graph }, id)

/-- Adds the variables of one kind and gives their numbers. -/
def addVariables (path : String) (kind : VariableKind) (owner : Nat) :
    List (String × VariableSpec R) → Flattening R M →
      Outcome (ModelError R) (Flattening R M × List Nat)
  | [], f => return (f, [])
  | (name, spec) :: rest, f => do
    let (f, id) ← f.addVariable path kind owner name spec
    let (f, ids) ← addVariables path kind owner rest f
    return (f, id :: ids)

/-- The places of the partials that use a method. -/
def placesOf (partials : List (DeclaredPartial R)) (method : Method) : List Nat :=
  (partials.zipIdx.filter fun p =>
    p.1.provision.approximation.any fun s => s.method = method).map Prod.snd

/-- Notes the dependency that a declared partial stands for. -/
def addDependency (c : ModelComponent R M) (number : Nat) (graph : DependencyGraph)
    (p : DeclaredPartial R) : Option DependencyGraph :=
  match c.ends? p with
  | none => some graph
  | some (input, output) => do
    let graph ← graph.addDependency? input output
    if p.everything then graph.setAllToAll? number else return graph

/-- Adds a component. Its number is the number of components before. -/
def addComponent (f : Flattening R M) (path : String) (component : Component R M) :
    Outcome (ModelError R) (Flattening R M) := do
  let d ← component.declarations.mapError (.component path)
  let partials ← (Outcome.ofExcept d.resolve).mapError (.component path)
  let number := f.components.length
  let inputStart := f.inputLength
  let outputStart := f.outputLength
  let f := { f with graph := f.graph.addComponent path }
  let (f, inputIds) ← addVariables path .input number d.inputs.entries f
  let (f, outputIds) ← addVariables path .output number d.outputs.entries f
  let c : ModelComponent R M := {
    path := path
    component := component
    layout := .ofDeclarations d
    inputs := ⟨inputStart, f.inputLength - inputStart⟩
    outputs := ⟨outputStart, f.outputLength - outputStart⟩
    inputIds := inputIds
    outputIds := outputIds
    partials := partials
    checkSettings := d.checkSettings
    methods := d.methods.map fun method => (method, placesOf partials method) }
  let graph ← Outcome.ofOption (partials.foldlM (addDependency c number) f.graph)
  return { f with components := f.components ++ [c], graph := graph }

/-- Refuses a name that cannot stand in a path, or that was seen in the same group. -/
def checkName (path : String) (seen : List String) (name : String) :
    Outcome (ModelError R) Unit := do
  if !Declarations.isLocalName name then Outcome.fail (.setup (.subsystemName name))
  if seen.contains name then Outcome.fail (.setup (.duplicateSubsystem (joinPath path name)))

/-- Notes the connections of a group, by full names. -/
def addConnections (f : Flattening R M) (path : String) (connections : List (String × String)) :
    Flattening R M :=
  { f with connections := f.connections ++
      connections.map fun c => (joinPath path c.1, joinPath path c.2) }

/-- Adds the members of the group at a path. -/
def addMembers (path : String) :
    List String → Members R M → Flattening R M →
      Outcome (ModelError R) (Schedule R × Flattening R M)
  | _, .empty, f => return (.done, f)
  | seen, .component name component rest, f => do
    checkName path seen name
    let number := f.components.length
    let f ← f.addComponent (joinPath path name) component
    let (schedule, f) ← addMembers path (name :: seen) rest f
    return (.component number schedule, f)
  | seen, .group name settings members rest, f => do
    checkName path seen name
    let inner := joinPath path name
    let number := f.groups
    let start := f.components.length
    let (body, f) ← addMembers inner [] members { f with groups := f.groups + 1 }
    let g : ModelGroup R := ⟨number, inner, ⟨start, f.components.length - start⟩,
      settings.solver, settings.approximation⟩
    let f := f.addConnections inner settings.connections
    let (schedule, f) ← addMembers path (name :: seen) rest f
    return (.group g body schedule, f)

/-- Joins an input to its source. -/
def connect (known : Table String (ModelVariable R))
    (joined : List (Option Nat) × DependencyGraph) (names : String × String) :
    Except ConnectionIssue (List (Option Nat) × DependencyGraph) := do
  let (sources, graph) := joined
  let (source, target) := names
  match known.indexOf? source, known.get? source,
      known.indexOf? target, known.get? target with
  | some s, some output, some t, some input =>
    if output.kind ≠ .output then throw (.notOutput source)
    if input.kind ≠ .input then throw (.notInput target)
    if output.size ≠ input.size then throw (.sizes source output.size target input.size)
    match sources[t]?.join.bind fun k => known.keys[k]? with
    | some first => throw (.twoSources target first source)
    | none => return (sources.set t (some s), graph.addConnection s t)
  | some _, some _, _, _ => throw (.missingTarget source target)
  | _, _, _, _ => throw (.missingSource source target)

end Flattening

namespace Model

variable {R M : Type}

/-- Whether some approximation asks for a complex step. -/
def usesComplexStep (components : List (ModelComponent R M))
    (groups : List (ModelGroup R × Schedule R)) : Bool :=
  components.any (fun c => c.methods.any fun s => s.1 = .complexStep) ||
    groups.any fun g => g.1.approximation.any fun s => s.method = .complexStep

variable [Scalar R]

/-- The model of a system. -/
def ofGroup (g : Group R M) (s : SetupSettings) : Outcome (ModelError R) (Model R M) := do
  let (schedule, f) ← Flattening.addMembers "" [] g.members { Flattening.empty with groups := 1 }
  let f := f.addConnections "" g.settings.connections
  let unconnected := List.replicate f.variableTable.size none
  let (sources, graph) ← (Outcome.ofExcept <|
    f.connections.foldlM (Flattening.connect f.variableTable) (unconnected, f.graph)).mapError
      .connection
  let graph ← Outcome.ofOption graph.finish?
  let root : ModelGroup R :=
    ⟨0, "", ⟨0, f.components.length⟩, g.settings.solver, g.settings.approximation⟩
  let groups := (root, schedule) :: schedule.groups
  for (group, _) in groups do
    match group.approximation.map Settings.validate with
    | some (.error issue) => Outcome.fail (.declaration (.setting issue))
    | _ => pure ()
  return {
    components := f.components
    root := root
    schedule := schedule
    variableTable := f.variableTable
    sources := sources
    graph := graph
    inputLength := f.inputLength
    outputLength := f.outputLength
    complex := s.forceComplex || usesComplexStep f.components groups
    policy := s.policy }

end Model

end Sensitivity
