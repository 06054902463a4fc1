import Sensitivity.Table
import Sensitivity.Variable

/-!
# Dependency graphs

The nodes are variables. An edge leads from the source of a connection to its target,
and from an input of a component to each output that depends on it: the pairs that
were declared, or all pairs of the component when it declares none or is marked as
depending on everything (`DependencyGraph.componentEdges?`).

Searches follow the edges that were there when the graph was last finished.
-/

namespace Sensitivity

/-- A variable in the graph. -/
structure VariableNode where
  kind : VariableKind
  /-- The number of the component that the variable belongs to. -/
  owner : Nat

/-- A component in the graph. -/
structure ComponentNode where
  name : String
  inputs : List Nat
  outputs : List Nat
  /-- Declared pairs of an input and an output that depends on it. -/
  declared : List (Nat × Nat)
  /-- Marked as depending on everything. -/
  marked : Bool

namespace ComponentNode

/-- Whether every output counts as depending on every input. -/
def isAllToAll (c : ComponentNode) : Bool := c.marked || c.declared.isEmpty

/-- The pairs of an input and an output that depends on it. -/
def edges (c : ComponentNode) : List (Nat × Nat) :=
  if c.isAllToAll then c.inputs.flatMap fun i => c.outputs.map fun o => (i, o)
  else c.declared

end ComponentNode

/-- Variables, components and the dependencies between them. -/
structure DependencyGraph where
  nodes : Table String VariableNode
  components : List ComponentNode
  /-- Pairs of a source and its target. -/
  connections : List (Nat × Nat)
  /-- The edges of the last finished graph. -/
  edges : List (Nat × Nat)
  /-- Whether nothing was added since. -/
  finished : Bool

namespace DependencyGraph

/-- The graph without variables. -/
def empty : DependencyGraph := ⟨∅, [], [], [], false⟩

instance : EmptyCollection DependencyGraph := ⟨empty⟩

/-- The number of variables. -/
def size (g : DependencyGraph) : Nat := g.nodes.size

/-- The number of a variable. -/
def node? (g : DependencyGraph) (name : String) : Option Nat := g.nodes.indexOf? name

/-- The name of a variable; empty when there is none with this number. -/
def nodeName (g : DependencyGraph) (node : Nat) : String := g.nodes.keys.getD node ""

/-- The dependencies inside a component. -/
def componentEdges? (g : DependencyGraph) (component : Nat) : Option (List (Nat × Nat)) :=
  g.components[component]?.map ComponentNode.edges

/-- Adds a component. Its number is the number of components before. -/
def addComponent (g : DependencyGraph) (name : String) : DependencyGraph :=
  { g with components := g.components ++ [⟨name, [], [], [], false⟩], finished := false }

/-- Adds a variable of a component, and gives the number of its node. -/
def addVariable? (g : DependencyGraph) (name : String) (kind : VariableKind) (owner : Nat) :
    Option (DependencyGraph × Nat) :=
  if owner < g.components.length then
    let nodes := g.nodes.insert name ⟨kind, owner⟩
    let index := (nodes.indexOf? name).getD 0
    let attach (c : ComponentNode) : ComponentNode := match kind with
      | .input => { c with inputs := c.inputs ++ [index] }
      | .output => { c with outputs := c.outputs ++ [index] }
    some ({ g with
      nodes := nodes, components := g.components.modify owner attach, finished := false }, index)
  else none

/-- Connects a source to a target. -/
def addConnection (g : DependencyGraph) (source target : Nat) : DependencyGraph :=
  { g with connections := g.connections ++ [(source, target)], finished := false }

/-- Declares that an output depends on an input. -/
def addDependency? (g : DependencyGraph) (input output : Nat) : Option DependencyGraph :=
  g.nodes.values[output]?.map fun node =>
    let declare (c : ComponentNode) : ComponentNode :=
      { c with declared := c.declared ++ [(input, output)] }
    { g with components := g.components.modify node.owner declare, finished := false }

/-- Marks a component as depending on everything. -/
def setAllToAll? (g : DependencyGraph) (component : Nat) : Option DependencyGraph :=
  if component < g.components.length then
    let mark (c : ComponentNode) : ComponentNode := { c with marked := true }
    some { g with components := g.components.modify component mark, finished := false }
  else none

/-- All dependencies: the connections, then the edges of each component. -/
def allEdges (g : DependencyGraph) : List (Nat × Nat) :=
  g.connections ++ g.components.flatMap ComponentNode.edges

/-- Takes all dependencies as the edges to search. They must join nodes that exist. -/
def finish? (g : DependencyGraph) : Option DependencyGraph :=
  if g.allEdges.all fun e => e.1 < g.size && e.2 < g.size then
    some { g with edges := g.allEdges, finished := true }
  else none

end DependencyGraph

end Sensitivity
