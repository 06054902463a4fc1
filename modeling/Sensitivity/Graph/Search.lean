import Sensitivity.Graph

/-!
# Reachability

`search` collects the nodes that are joined to some seed by a path of edges. Every
round takes a node off the stack; a node that was not seen yet is marked, and its
neighbours go on the stack. The nodes not yet seen and their neighbours bound the
rounds (`DependencyGraph.rounds`).
-/

namespace Sensitivity

namespace DependencyGraph

/-- The nodes below `n` that were not seen. -/
def unseen (n : Nat) (seen : List Nat) : List Nat :=
  (List.range n).filter fun v => !seen.contains v

/-- The rounds that a search can take at most: one for each node on the stack, and for each unseen
node one for it and for each of its neighbours. -/
def rounds (next : Nat → List Nat) (n : Nat) (stack seen : List Nat) : Nat :=
  stack.length + ((unseen n seen).flatMap fun v => v :: next v).length

/-- Leaving out an element of a list leaves out the elements that it gives. -/
theorem length_flatMap_filter_ne_add_le (f : Nat → List Nat) {v : Nat} {us : List Nat}
    (h : v ∈ us) :
    ((us.filter (· != v)).flatMap f).length + (f v).length ≤ (us.flatMap f).length := by
  induction us with
  | nil => cases h
  | cons u rest ih =>
    by_cases hu : u = v
    · subst hu
      by_cases hrest : u ∈ rest
      · have := ih hrest
        simp only [List.filter_cons, bne_self_eq_false, Bool.false_eq_true, if_false,
          List.flatMap_cons, List.length_append]
        omega
      · have hkept : rest.filter (· != u) = rest :=
          List.filter_eq_self.2 fun w hw => bne_iff_ne.2 fun he => hrest (he ▸ hw)
        simp only [List.filter_cons, bne_self_eq_false, Bool.false_eq_true, if_false, hkept,
          List.flatMap_cons, List.length_append]
        omega
    · have := ih ((List.mem_cons.1 h).resolve_left (Ne.symm hu))
      simp only [List.filter_cons, bne_iff_ne, ne_eq, hu, not_false_eq_true, if_true,
        List.flatMap_cons, List.length_append]
      omega

/-- Marking a node takes at least one round, whatever neighbours go on the stack. -/
theorem rounds_cons_lt {next : Nat → List Nat} {n v : Nat} {rest seen : List Nat} (hv : v < n)
    (hs : seen.contains v = false) :
    rounds next n (next v ++ rest) (v :: seen) < rounds next n (v :: rest) seen := by
  have hunseen : unseen n (v :: seen) = (unseen n seen).filter (· != v) := by
    simp only [unseen, List.filter_filter]
    apply List.filter_congr
    intro u _
    simp only [List.contains_cons, Bool.not_or, bne]
  have hmem : v ∈ unseen n seen :=
    List.mem_filter.2 ⟨List.mem_range.2 hv, by rw [hs]; rfl⟩
  have hle := length_flatMap_filter_ne_add_le (fun v => v :: next v) hmem
  rw [List.length_cons] at hle
  simp only [rounds, hunseen, List.length_append, List.length_cons]
  omega

/-- The nodes below `n` found from the stack by `next`, with those seen before. -/
def search (next : Nat → List Nat) (n : Nat) (stack seen : List Nat) : List Nat :=
  match stack with
  | [] => seen
  | v :: rest =>
    if _h : v < n ∧ seen.contains v = false then search next n (next v ++ rest) (v :: seen)
    else search next n rest seen
termination_by rounds next n stack seen
decreasing_by
  · exact rounds_cons_lt _h.1 _h.2
  · simp [rounds]

/-- For each node, whether a search from the seeds finds it. The seeds have to be
nodes. -/
def flood? (g : DependencyGraph) (next : Nat → List Nat) (seeds : List Nat) :
    Option (List Bool) :=
  if seeds.all (· < g.size) then
    let found := search next g.size seeds []
    some ((List.range g.size).map found.contains)
  else none

/-- The targets of the edges out of a node. -/
def successors (g : DependencyGraph) (v : Nat) : List Nat :=
  g.edges.filterMap fun e => if e.1 = v then some e.2 else none

/-- The sources of the edges into a node. -/
def predecessors (g : DependencyGraph) (v : Nat) : List Nat :=
  g.edges.filterMap fun e => if e.2 = v then some e.1 else none

/-- For each node, whether a path leads to it from some seed. -/
def reachableFrom? (g : DependencyGraph) (seeds : List Nat) : Option (List Bool) :=
  g.flood? g.successors seeds

/-- For each node, whether a path leads from it to some seed. -/
def reaching? (g : DependencyGraph) (seeds : List Nat) : Option (List Bool) :=
  g.flood? g.predecessors seeds

end DependencyGraph

end Sensitivity
