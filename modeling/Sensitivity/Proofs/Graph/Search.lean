import Mathlib.Logic.Relation
import Sensitivity.Graph.Search
import Sensitivity.Proofs.Action

/-!
# What a search finds

A path of a graph follows its edges (`DependencyGraph.Path`). A search keeps what it has seen, takes
up its whole stack, and leaves no neighbour of a seen node behind (`DependencyGraph.Frontier`), so
that it finds exactly the nodes that its stack leads to (`DependencyGraph.mem_search_iff`).

In a graph whose edges join nodes, a node is marked by the forward search exactly when some seed has
a path to it (`DependencyGraph.reachableFrom?_spec`), and by the backward search exactly when it has
a path to some seed (`DependencyGraph.reaching?_spec`).
-/

namespace Sensitivity

namespace DependencyGraph

section Search

variable {next : Nat → List Nat} {n : Nat}

/-- One step of a search among the nodes below `n`. -/
def Step (next : Nat → List Nat) (n u v : Nat) : Prop := v ∈ next u ∧ v < n

/-- Every neighbour of a node that was seen was seen as well, or waits on the stack. -/
def Frontier (next : Nat → List Nat) (n : Nat) (stack seen : List Nat) : Prop :=
  ∀ u ∈ seen, ∀ v, Step next n u v → v ∈ seen ∨ v ∈ stack

/-- A search loses nothing that was seen or that it was given. -/
theorem mem_search_of_mem (stack seen : List Nat) {v : Nat}
    (hv : v ∈ seen ∨ v ∈ stack ∧ v < n) : v ∈ search next n stack seen := by
  induction stack, seen using search.induct next n with
  | case1 seen =>
    rw [search]
    simpa using hv
  | case2 seen u rest hu ih =>
    rw [search, dif_pos hu]
    refine ih ?_
    rcases hv with hv | ⟨hv, hlt⟩
    · exact .inl (List.mem_cons_of_mem _ hv)
    · rcases List.mem_cons.1 hv with rfl | hv
      · exact .inl List.mem_cons_self
      · exact .inr ⟨List.mem_append_right _ hv, hlt⟩
  | case3 seen u rest hu ih =>
    rw [search, dif_neg hu]
    refine ih ?_
    rcases hv with hv | ⟨hv, hlt⟩
    · exact .inl hv
    · rcases List.mem_cons.1 hv with rfl | hv
      · exact .inl (by simpa [hlt] using hu)
      · exact .inr ⟨hv, hlt⟩

/-- **What a search finds is closed** under its steps. -/
theorem search_closed (stack seen : List Nat) (h : Frontier next n stack seen) {u v : Nat}
    (hu : u ∈ search next n stack seen) (hv : Step next n u v) :
    v ∈ search next n stack seen := by
  induction stack, seen using search.induct next n with
  | case1 seen =>
    rw [search] at hu ⊢
    simpa using h u hu v hv
  | case2 seen w rest hw ih =>
    rw [search, dif_pos hw] at hu ⊢
    refine ih (fun x hx y hy => ?_) hu
    rcases List.mem_cons.1 hx with rfl | hx
    · exact .inr (List.mem_append_left _ hy.1)
    · rcases h x hx y hy with hseen | hstack
      · exact .inl (List.mem_cons_of_mem _ hseen)
      · rcases List.mem_cons.1 hstack with rfl | hstack
        · exact .inl List.mem_cons_self
        · exact .inr (List.mem_append_right _ hstack)
  | case3 seen w rest hw ih =>
    rw [search, dif_neg hw] at hu ⊢
    refine ih (fun x hx y hy => ?_) hu
    rcases h x hx y hy with hseen | hstack
    · exact .inl hseen
    · rcases List.mem_cons.1 hstack with rfl | hstack
      · exact .inl (by simpa [hy.2] using hw)
      · exact .inr hstack

/-- A search finds nothing but what its steps lead to. -/
theorem search_sound {P : Nat → Prop} (hstep : ∀ u v, P u → Step next n u v → P v)
    (stack seen : List Nat) (hseen : ∀ v ∈ seen, P v) (hstack : ∀ v ∈ stack, v < n → P v) {v : Nat}
    (hv : v ∈ search next n stack seen) : P v := by
  induction stack, seen using search.induct next n with
  | case1 seen =>
    rw [search] at hv
    exact hseen v hv
  | case2 seen u rest hu ih =>
    rw [search, dif_pos hu] at hv
    have hP := hstack u List.mem_cons_self hu.1
    refine ih (fun w hw => ?_) (fun w hw hlt => ?_) hv
    · rcases List.mem_cons.1 hw with rfl | hw
      · exact hP
      · exact hseen w hw
    · rcases List.mem_append.1 hw with hw | hw
      · exact hstep u w hP ⟨hw, hlt⟩
      · exact hstack w (List.mem_cons_of_mem _ hw) hlt
  | case3 seen u rest hu ih =>
    rw [search, dif_neg hu] at hv
    exact ih hseen (fun w hw => hstack w (List.mem_cons_of_mem _ hw)) hv

/-- **A search finds exactly what its steps lead to from the stack.** -/
theorem mem_search_iff {stack : List Nat} {v : Nat} :
    v ∈ search next n stack [] ↔
      ∃ u ∈ stack, u < n ∧ Relation.ReflTransGen (Step next n) u v := by
  constructor
  · refine search_sound (P := fun v => ∃ u ∈ stack, u < n ∧
      Relation.ReflTransGen (Step next n) u v) ?_ stack [] (by simp) fun w hw hlt =>
        ⟨w, hw, hlt, .refl⟩
    rintro u v ⟨w, hw, hlt, hpath⟩ hstep
    exact ⟨w, hw, hlt, hpath.tail hstep⟩
  · rintro ⟨u, hu, hlt, hpath⟩
    induction hpath with
    | refl => exact mem_search_of_mem stack [] (.inr ⟨hu, hlt⟩)
    | tail _ hstep ih => exact search_closed stack [] (by simp [Frontier]) ih hstep

end Search

section Paths

variable {g : DependencyGraph}

/-- A path along the edges of a graph, of any length. -/
def Path (g : DependencyGraph) : Nat → Nat → Prop :=
  Relation.ReflTransGen fun u v => (u, v) ∈ g.edges

/-- Every edge joins two nodes. -/
def Bounded (g : DependencyGraph) : Prop := ∀ e ∈ g.edges, e.1 < g.size ∧ e.2 < g.size

theorem mem_successors {u v : Nat} : v ∈ g.successors u ↔ (u, v) ∈ g.edges := by
  simp [successors]

theorem mem_predecessors {u v : Nat} : v ∈ g.predecessors u ↔ (v, u) ∈ g.edges := by
  simp [predecessors]

/-- Marks of the nodes below `n` with a property. -/
def Marks (n : Nat) (marks : List Bool) (P : Nat → Prop) : Prop :=
  ∀ v < n, ∃ b, marks[v]? = some b ∧ (b = true ↔ P v)

/-- What a flood marks, for seeds that are nodes. -/
theorem flood?_spec (next : Nat → List Nat) {seeds : List Nat} (h : ∀ u ∈ seeds, u < g.size) :
    ∃ marks, g.flood? next seeds = some marks ∧ Marks g.size marks fun v =>
      ∃ u ∈ seeds, Relation.ReflTransGen (Step next g.size) u v := by
  have hall : seeds.all (· < g.size) = true := by simpa using h
  refine ⟨_, if_pos hall, fun v hv =>
    ⟨(search next g.size seeds []).contains v, ?_, ?_⟩⟩
  · rw [List.getElem?_map, List.getElem?_range hv, Option.map_some]
  · rw [List.contains_iff_mem, mem_search_iff]
    constructor
    · rintro ⟨u, hu, -, hpath⟩
      exact ⟨u, hu, hpath⟩
    · rintro ⟨u, hu, hpath⟩
      exact ⟨u, hu, h u hu, hpath⟩

/-- **The forward search marks what the seeds reach.** -/
theorem reachableFrom?_spec (hg : g.Bounded) {seeds : List Nat} (h : ∀ u ∈ seeds, u < g.size) :
    ∃ marks, g.reachableFrom? seeds = some marks ∧
      Marks g.size marks fun v => ∃ u ∈ seeds, g.Path u v := by
  have hsteps : Step g.successors g.size = fun u v => (u, v) ∈ g.edges := by
    funext u v
    simp only [Step, mem_successors, eq_iff_iff]
    exact ⟨And.left, fun he => ⟨he, (hg _ he).2⟩⟩
  have hspec := flood?_spec g.successors h
  rwa [hsteps] at hspec

/-- **The backward search marks what reaches a seed.** -/
theorem reaching?_spec (hg : g.Bounded) {seeds : List Nat} (h : ∀ u ∈ seeds, u < g.size) :
    ∃ marks, g.reaching? seeds = some marks ∧
      Marks g.size marks fun v => ∃ u ∈ seeds, g.Path v u := by
  have hsteps : Step g.predecessors g.size = Function.swap fun u v => (u, v) ∈ g.edges := by
    funext u v
    simp only [Step, mem_predecessors, Function.swap, eq_iff_iff]
    exact ⟨And.left, fun he => ⟨he, (hg _ he).1⟩⟩
  obtain ⟨marks, hmarks, hspec⟩ := flood?_spec g.predecessors h
  refine ⟨marks, hmarks, fun v hv => ?_⟩
  obtain ⟨b, hb, hmark⟩ := hspec v hv
  refine ⟨b, hb, hmark.trans ?_⟩
  rw [hsteps]
  exact exists_congr fun u => and_congr_right fun _ => Relation.reflTransGen_swap

end Paths

end DependencyGraph

end Sensitivity
