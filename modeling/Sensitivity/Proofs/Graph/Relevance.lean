import Sensitivity.Graph.Relevance
import Sensitivity.Proofs.Graph.Search

/-!
# Which components are active

In a finished graph the active components for some perturbed and some requested variables are those
with a dependency that lies on a path from a perturbed variable to a requested one
(`DependencyGraph.activeComponents?_spec`).
-/

namespace Sensitivity

namespace DependencyGraph

/-- A graph that was finished, and to which nothing was added since. -/
structure Complete (g : DependencyGraph) : Prop where
  finished : g.finished = true
  edges_eq : g.edges = g.allEdges
  bounded : g.Bounded

/-- Finishing completes a graph, and changes nothing but its edges. -/
theorem complete_of_finish? {g g' : DependencyGraph} (h : g.finish? = some g') :
    g'.Complete ∧ g'.nodes = g.nodes ∧ g'.components = g.components ∧
      g'.connections = g.connections := by
  unfold finish? at h
  split at h
  · rename_i hall
    cases h
    refine ⟨⟨rfl, rfl, fun e he => ?_⟩, rfl, rfl, rfl⟩
    have hbound := List.all_eq_true.1 hall e he
    simp only [Bool.and_eq_true, decide_eq_true_eq] at hbound
    exact hbound
  · cases h

variable {g : DependencyGraph}

theorem Complete.mem_edges_of_component (hg : g.Complete) {c : Nat} {n : ComponentNode}
    (hn : g.components[c]? = some n) {e : Nat × Nat} (he : e ∈ n.edges) : e ∈ g.edges := by
  rw [hg.edges_eq, allEdges]
  exact List.mem_append_right _ (List.mem_flatMap.2 ⟨n, List.mem_of_getElem? hn, he⟩)

theorem Complete.mem_edges_of_connection (hg : g.Complete) {e : Nat × Nat}
    (he : e ∈ g.connections) : e ∈ g.edges := by
  rw [hg.edges_eq, allEdges]
  exact List.mem_append_left _ he

theorem lt_of_node? {name : String} {v : Nat} (h : g.node? name = some v) : v < g.size := by
  have := (List.findIdx?_eq_some_iff_findIdx_eq.1 h).1
  simpa [Table.keys, DependencyGraph.size, Table.size] using this

theorem lt_of_nodes? {names : List String} {ids : List Nat} (h : names.mapM g.node? = some ids) :
    ∀ u ∈ ids, u < g.size := by
  intro u hu
  obtain ⟨name, -, hname⟩ := (Option.mem_mapM h).1 hu
  exact lt_of_node? hname

section Bridges

variable {n : Nat} {reached reaching : List Bool} {P Q : Nat → Prop}

/-- Whether some edge leads from a node with one mark to a node with the other. -/
theorem bridges?_spec (hP : Marks n reached P) (hQ : Marks n reaching Q) {es : List (Nat × Nat)}
    (hes : ∀ e ∈ es, e.1 < n ∧ e.2 < n) :
    ∃ b, bridges? reached reaching es = some b ∧ (b = true ↔ ∃ e ∈ es, P e.1 ∧ Q e.2) := by
  induction es with
  | nil => exact ⟨false, rfl, by simp⟩
  | cons e rest ih =>
    obtain ⟨i, o⟩ := e
    obtain ⟨hi, ho⟩ := hes (i, o) List.mem_cons_self
    obtain ⟨b, hb, hrest⟩ := ih fun e he => hes e (List.mem_cons_of_mem _ he)
    obtain ⟨below, hbelow, hPi⟩ := hP i hi
    obtain ⟨above, habove, hQo⟩ := hQ o ho
    refine ⟨(below && above) || b, ?_, ?_⟩
    · rw [bridges?, hbelow, habove, hb]
      cases below <;> cases above <;> rfl
    · simp [hPi, hQo, hrest]

/-- The components with such an edge. -/
theorem bridging?_spec (hP : Marks n reached P) (hQ : Marks n reaching Q)
    {cs : List ComponentNode} (hcs : ∀ c ∈ cs, ∀ e ∈ c.edges, e.1 < n ∧ e.2 < n) (first : Nat) :
    ∃ found, bridging? reached reaching first cs = some found ∧
      ∀ c, c ∈ found ↔ ∃ k node, cs[k]? = some node ∧ c = first + k ∧
        ∃ e ∈ node.edges, P e.1 ∧ Q e.2 := by
  induction cs generalizing first with
  | nil => exact ⟨[], rfl, by simp⟩
  | cons node rest ih =>
    obtain ⟨b, hb, hnode⟩ := bridges?_spec hP hQ (hcs node List.mem_cons_self)
    obtain ⟨found, hfound, hrest⟩ := ih (fun c hc => hcs c (List.mem_cons_of_mem _ hc)) (first + 1)
    refine ⟨if b then first :: found else found, ?_, fun c => ?_⟩
    · rw [bridging?, hb, hfound]
      rfl
    · have hlater : (∃ k node', (node :: rest)[k]? = some node' ∧ c = first + k ∧
          ∃ e ∈ node'.edges, P e.1 ∧ Q e.2) ↔ (c = first ∧ b = true) ∨ c ∈ found := by
        rw [hrest]
        constructor
        · rintro ⟨k | k, node', hk, rfl, he⟩
          · cases hk
            exact .inl ⟨rfl, hnode.2 he⟩
          · exact .inr ⟨k, node', hk, by omega, he⟩
        · rintro (⟨rfl, hb⟩ | ⟨k, node', hk, rfl, he⟩)
          · exact ⟨0, node, rfl, rfl, hnode.1 hb⟩
          · exact ⟨k + 1, node', hk, by omega, he⟩
      rw [hlater]
      cases b <;> simp

end Bridges

/-- An unknown name makes every component active. -/
theorem activeComponents?_of_unknown {perturbed requested : List String}
    (h : perturbed.mapM g.node? = none ∨ requested.mapM g.node? = none) :
    g.activeComponents? perturbed requested = some .all := by
  unfold activeComponents?
  split
  · rename_i hseeds htargets
    simp [hseeds, htargets] at h
  · rfl

/-- A graph that refers to nodes that exist: the edges that are searched join nodes, and so do all
dependencies. -/
structure Grounded (g : DependencyGraph) : Prop where
  bounded : g.Bounded
  all : ∀ e ∈ g.allEdges, e.1 < g.size ∧ e.2 < g.size

/-- **There is always something to run**, whether or not the graph is finished and knows the
variables. -/
theorem Grounded.exists_activeComponents (hg : g.Grounded) (perturbed requested : List String) :
    ∃ active, g.activeComponents? perturbed requested = some active := by
  cases hseeds : perturbed.mapM g.node? with
  | none => exact ⟨.all, activeComponents?_of_unknown (.inl hseeds)⟩
  | some seeds =>
    cases htargets : requested.mapM g.node? with
    | none => exact ⟨.all, activeComponents?_of_unknown (.inr htargets)⟩
    | some targets =>
      obtain ⟨reached, hreached, hP⟩ := reachableFrom?_spec hg.bounded (lt_of_nodes? hseeds)
      obtain ⟨reaching, hreaching, hQ⟩ := reaching?_spec hg.bounded (lt_of_nodes? htargets)
      have hedges (c) (hc : c ∈ g.components) (e) (he : e ∈ c.edges) : e.1 < g.size ∧ e.2 < g.size :=
        hg.all e (List.mem_append_right _ (List.mem_flatMap.2 ⟨c, hc, he⟩))
      obtain ⟨found, hfound, -⟩ := bridging?_spec hP hQ hedges 0
      simp only [activeComponents?, hseeds, htargets]
      split
      · simp only [hreached, hreaching, hfound, Option.bind_eq_bind, Option.bind_some]
        exact ⟨.only found, rfl⟩
      · exact ⟨.all, rfl⟩

/-- **The active components** for known variables: those with a dependency whose input a perturbed
variable reaches, and whose output reaches a requested one. -/
theorem activeComponents?_spec (hg : g.Complete) {perturbed requested : List String}
    {seeds targets : List Nat} (hseeds : perturbed.mapM g.node? = some seeds)
    (htargets : requested.mapM g.node? = some targets) :
    ∃ found, g.activeComponents? perturbed requested = some (.only found) ∧
      ∀ c, c ∈ found ↔ ∃ node, g.components[c]? = some node ∧ ∃ e ∈ node.edges,
        (∃ u ∈ seeds, g.Path u e.1) ∧ ∃ u ∈ targets, g.Path e.2 u := by
  obtain ⟨reached, hreached, hP⟩ := reachableFrom?_spec hg.bounded (lt_of_nodes? hseeds)
  obtain ⟨reaching, hreaching, hQ⟩ := reaching?_spec hg.bounded (lt_of_nodes? htargets)
  have hedges (n : ComponentNode) (hn : n ∈ g.components) (e : Nat × Nat) (he : e ∈ n.edges) :
      e.1 < g.size ∧ e.2 < g.size := by
    obtain ⟨c, hc⟩ := List.mem_iff_getElem?.1 hn
    exact hg.bounded e (hg.mem_edges_of_component hc he)
  obtain ⟨found, hfound, hspec⟩ := bridging?_spec hP hQ hedges 0
  refine ⟨found, ?_, fun c => ?_⟩
  · simp only [activeComponents?, hseeds, htargets, hg.finished, if_true, hreached, hreaching,
      hfound, Option.bind_eq_bind, Option.bind_some]
    rfl
  · rw [hspec]
    constructor
    · rintro ⟨k, node, hk, rfl, he⟩
      exact ⟨node, by rwa [Nat.zero_add], he⟩
    · rintro ⟨node, hk, he⟩
      exact ⟨c, node, hk, by rw [Nat.zero_add], he⟩

end DependencyGraph

end Sensitivity
