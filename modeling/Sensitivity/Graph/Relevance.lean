import Sensitivity.Graph.Search

/-!
# Relevance

Which components have to run for a perturbation of some variables to show in others:
those with a dependency whose input is reached from a perturbed variable and from
whose output a requested one is reached. When a name is unknown, or the graph has
changed since it was finished, nothing is left out.
-/

namespace Sensitivity

/-- The components to run. -/
inductive ActiveSet where
  | all
  /-- These components, in order. -/
  | only (components : List Nat)
deriving DecidableEq

namespace ActiveSet

/-- Whether a component is to run. -/
def contains : ActiveSet → Nat → Bool
  | all, _ => true
  | only cs, c => cs.contains c

end ActiveSet

namespace DependencyGraph

/-- Whether some dependency leads from an input that is reached to an output that reaches
a requested variable. Both ends have to be nodes. -/
def bridges? (reached reaching : List Bool) : List (Nat × Nat) → Option Bool
  | [] => some false
  | (i, o) :: rest => do
    let below ← reached[i]?
    let onPath ← if below then reaching[o]? else some false
    if onPath then some true else bridges? reached reaching rest

/-- The numbers of the components with such a dependency, the first one numbered
`first`. -/
def bridging? (reached reaching : List Bool) : Nat → List ComponentNode → Option (List Nat)
  | _, [] => some []
  | first, c :: rest => do
    let on ← bridges? reached reaching c.edges
    let others ← bridging? reached reaching (first + 1) rest
    return if on then first :: others else others

/-- The components to run when `perturbed` variables change and `requested` ones are
read. -/
def activeComponents? (g : DependencyGraph) (perturbed requested : List String) :
    Option ActiveSet :=
  match perturbed.mapM g.node?, requested.mapM g.node? with
  | some seeds, some targets =>
    if g.finished then do
      let reached ← g.reachableFrom? seeds
      let reaching ← g.reaching? targets
      return .only (← bridging? reached reaching 0 g.components)
    else some .all
  | _, _ => some .all

end DependencyGraph

end Sensitivity
