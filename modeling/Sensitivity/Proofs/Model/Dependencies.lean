import Sensitivity.Proofs.Model.Layout

/-!
# What outputs depend on

An output of a component depends on the inputs that partials were declared for, and on every input
when the component declares none or declares everything (`DeclaredPartial.DependsOn`). Declared
partials join variables of the component (`Declarations.mem_keys_of_resolve`), so that each of these
dependencies is an edge (`Flattening.ComponentLaid.mem_edges_of_dependsOn`), and an edge into an
output comes from the component that it belongs to (`Model.Laid.mem_edges_of_output`).

A component may hold the outputs that it has (`Component.Holds`), or compute each from the inputs
that it depends on, whatever it keeps between calls (`Component.Functional`).
-/

namespace Sensitivity

variable {R M : Type}

namespace Declarations

/-- The covered pairs join outputs and inputs. -/
def Joins (d : Declarations R) (found : Resolution R) : Prop :=
  ∀ pair p, found.get? pair = some p → p.of ∈ d.outputs.keys ∧ p.wrt ∈ d.inputs.keys

/-- What is selected is available. -/
theorem mem_of_resolve {available names : List String} {selection : Selection}
    (h : selection.resolve available = (.ok names : Except (DeclarationError R) _)) {n : String}
    (hn : n ∈ names) : n ∈ available := by
  cases selection with
  | all =>
    cases h
    exact hn
  | names ns =>
    rw [Selection.resolve] at h
    split at h
    · cases h
    · rename_i hfind
      cases h
      simpa using List.find?_eq_none.1 hfind n hn

theorem Joins.cover {d : Declarations R} {declaration : PartialDeclaration R}
    {found found' : Resolution R} {pair : String × String} (h : d.Joins found)
    (hof : pair.1 ∈ d.outputs.keys) (hwrt : pair.2 ∈ d.inputs.keys)
    (hcover : d.cover declaration found pair = .ok found') : d.Joins found' := by
  have hinsert (everything : Bool) : d.Joins
      (found.insert pair ⟨pair.1, pair.2, declaration.provision, everything⟩) := by
    intro key p hp
    rw [Table.get?_insert] at hp
    split at hp
    · cases hp
      exact ⟨hof, hwrt⟩
    · exact h key p hp
  unfold Declarations.cover at hcover
  dsimp only at hcover
  split at hcover
  · obtain ⟨_, -, hresult⟩ := Except.bind_eq_ok.1 hcover
    cases hresult
    exact hinsert _
  · cases hcover
    exact hinsert _

theorem Joins.coverPairs {d : Declarations R} {declaration : PartialDeclaration R}
    {found found' : Resolution R} {pairs : List (String × String)} (h : d.Joins found)
    (hpairs : ∀ pair ∈ pairs, pair.1 ∈ d.outputs.keys ∧ pair.2 ∈ d.inputs.keys)
    (hcover : pairs.foldlM (d.cover declaration) found = .ok found') : d.Joins found' := by
  induction pairs generalizing found with
  | nil =>
    cases hcover
    exact h
  | cons pair rest ih =>
    obtain ⟨next, hnext, hrest⟩ := Except.bind_eq_ok.1 hcover
    obtain ⟨hof, hwrt⟩ := hpairs pair List.mem_cons_self
    exact ih (h.cover hof hwrt hnext) (fun p hp => hpairs p (List.mem_cons_of_mem _ hp)) hrest

theorem Joins.coverAll {d : Declarations R} {declarations : List (PartialDeclaration R)}
    {found found' : Resolution R} (h : d.Joins found)
    (hcover : declarations.foldlM d.coverAll found = .ok found') : d.Joins found' := by
  induction declarations generalizing found with
  | nil =>
    cases hcover
    exact h
  | cons declaration rest ih =>
    obtain ⟨next, hnext, hrest⟩ := Except.bind_eq_ok.1 hcover
    obtain ⟨ofs, hofs, hnext⟩ := Except.bind_eq_ok.1 hnext
    obtain ⟨wrts, hwrts, hnext⟩ := Except.bind_eq_ok.1 hnext
    refine ih (h.coverPairs (fun pair hpair => ?_) hnext) hrest
    obtain ⟨of, hof, hpair⟩ := List.mem_flatMap.1 hpair
    obtain ⟨wrt, hwrt, rfl⟩ := List.mem_map.1 hpair
    exact ⟨mem_of_resolve hofs hof, mem_of_resolve hwrts hwrt⟩

/-- **A declared partial joins variables of its component.** -/
theorem mem_keys_of_resolve {d : Declarations R} {partials : List (DeclaredPartial R)}
    (h : d.resolve = .ok partials) {p : DeclaredPartial R} (hp : p ∈ partials) :
    p.of ∈ d.outputs.keys ∧ p.wrt ∈ d.inputs.keys := by
  obtain ⟨found, hfound, hvalues⟩ := Except.bind_eq_ok.1 h
  cases hvalues
  have hempty : d.Joins ∅ := fun pair p hp => by simp at hp
  obtain ⟨⟨pair, p⟩, he, rfl⟩ := List.mem_map.1 hp
  exact hempty.coverAll hfound pair p ((Table.get?_eq_some_iff _ _ _).2 he)

end Declarations

namespace DeclaredPartial

/-- The dependencies that some declared partials stand for: the pairs that were covered, and all
pairs when there is none, or when one was covered by selecting everything. -/
def DependsOn (partials : List (DeclaredPartial R)) (of wrt : String) : Prop :=
  partials = [] ∨ (∃ p ∈ partials, p.everything = true) ∨
    ∃ p ∈ partials, p.of = of ∧ p.wrt = wrt

end DeclaredPartial

namespace Component

/-- A component that keeps the outputs that were set, as independent variables do. -/
def Holds (c : Component R M) : Prop :=
  ∀ x y memory, (c.computeReal x y).perform memory = (.ok y, memory)

theorem holds_independent [Scalar R] (memory : M) (outputs : List (String × VariableSpec R)) :
    (independent memory outputs).Holds := fun _ _ _ => rfl

/-- A component with declarations `d` whose outputs are functions of the inputs that they depend on:
where two evaluations both have a result, an output is the same as soon as these inputs are,
whatever the component kept between calls and whatever its outputs were before. -/
structure Computes (c : Component R M) (d : Declarations R) (partials : List (DeclaredPartial R)) :
    Prop where
  size_eq : ∀ {x y z : Array R} {k l : M}, x.size = Flattening.extent d.inputs.entries →
    y.size = Flattening.extent d.outputs.entries →
    (c.computeReal x y).perform k = (.ok z, l) → z.size = Flattening.extent d.outputs.entries
  determined : ∀ {x x' y y' z z' : Array R} {k k' l l' : M},
    x.size = Flattening.extent d.inputs.entries → x'.size = Flattening.extent d.inputs.entries →
    y.size = Flattening.extent d.outputs.entries → y'.size = Flattening.extent d.outputs.entries →
    (c.computeReal x y).perform k = (.ok z, l) → (c.computeReal x' y').perform k' = (.ok z', l') →
    ∀ of own, (Layout.spans d.outputs).get? of = some own →
      (∀ wrt other, (Layout.spans d.inputs).get? wrt = some other →
        DeclaredPartial.DependsOn partials of wrt → other.slice x = other.slice x') →
      own.slice z = own.slice z'

/-- A component that computes as it declares. -/
def Functional (c : Component R M) : Prop :=
  ∀ d partials, c.declarations = .ok d → d.resolve = .ok partials → c.Computes d partials

end Component

namespace Flattening

section Edges

variable {vars : List (ModelVariable R)} {number : Nat} {c : ModelComponent R M}
  {n : ComponentNode} {d : Declarations R}

/-- The variables of a component have numbers. -/
theorem Placed.exists_id {kind : VariableKind} {path : String} {outer : Span}
    {specs : Table String (VariableSpec R)} {ids : List Nat}
    (h : Placed vars path kind number outer specs ids) {name : String} (hname : name ∈ specs.keys) :
    ∃ j id, (Layout.spans specs).indexOf? name = some j ∧ ids[j]? = some id := by
  rw [← Layout.keys_spans] at hname
  obtain ⟨⟨_, own⟩, he, rfl⟩ := List.mem_map.1 hname
  obtain ⟨j, hj⟩ := List.mem_iff_getElem?.1 he
  obtain ⟨id, -, hid, -⟩ := h.getElem? hj
  exact ⟨j, id, Table.indexOf?_eq_some_iff.2 ⟨own, hj⟩, hid⟩

variable (h : ComponentLaid vars number c n d)

include h

/-- A declared partial joins an output and an input. -/
theorem ComponentLaid.mem_keys {p : DeclaredPartial R} (hp : p ∈ c.partials) :
    p.of ∈ c.layout.outputs.keys ∧ p.wrt ∈ c.layout.inputs.keys := by
  simp only [h.layout, Layout.ofDeclarations, Layout.keys_spans]
  exact Declarations.mem_keys_of_resolve h.partials hp

/-- A declared partial joins numbered variables. -/
theorem ComponentLaid.exists_ends {p : DeclaredPartial R} (hp : p ∈ c.partials) :
    ∃ ends, c.ends? p = some ends := by
  obtain ⟨hof, hwrt⟩ := Declarations.mem_keys_of_resolve h.partials hp
  obtain ⟨i, input, hi, hinput⟩ := h.inputs.exists_id hwrt
  obtain ⟨o, output, ho, houtput⟩ := h.outputs.exists_id hof
  refine ⟨(input, output), ?_⟩
  simp only [ModelComponent.ends?, ModelComponent.inputId?, ModelComponent.outputId?, h.layout,
    Layout.ofDeclarations, hi, ho, hinput, houtput, Option.bind_eq_bind, Option.bind_some]
  rfl

/-- **Every dependency of an output is an edge.** -/
theorem ComponentLaid.mem_edges_of_dependsOn {of wrt : String} {input output : Nat}
    (hinput : c.inputId? wrt = some input) (houtput : c.outputId? of = some output)
    (hdep : DeclaredPartial.DependsOn c.partials of wrt) : (input, output) ∈ n.edges := by
  have hi : input ∈ n.inputs := by
    obtain ⟨j, -, hj⟩ := Option.bind_eq_some_iff.1 hinput
    exact h.inputs_eq ▸ List.mem_of_getElem? hj
  have ho : output ∈ n.outputs := by
    obtain ⟨j, -, hj⟩ := Option.bind_eq_some_iff.1 houtput
    exact h.outputs_eq ▸ List.mem_of_getElem? hj
  unfold ComponentNode.edges
  split
  · exact List.mem_flatMap.2 ⟨input, hi, List.mem_map.2 ⟨output, ho, rfl⟩⟩
  rename_i hpartial
  rw [ComponentNode.isAllToAll, Bool.or_eq_true, not_or] at hpartial
  obtain ⟨hmarked, hdeclared⟩ := hpartial
  rcases hdep with hnone | ⟨p, hp, heverything⟩ | ⟨p, hp, rfl, rfl⟩
  · rw [h.declared_eq, hnone] at hdeclared
    exact absurd rfl hdeclared
  · obtain ⟨ends, hends⟩ := h.exists_ends hp
    rw [h.marked_eq] at hmarked
    exact absurd (List.any_eq_true.2 ⟨p, hp, by rw [heverything, hends]; rfl⟩) hmarked
  · rw [h.declared_eq]
    refine List.mem_filterMap.2 ⟨p, hp, ?_⟩
    simp only [ModelComponent.ends?, hinput, houtput, Option.bind_eq_bind, Option.bind_some]
    rfl

/-- The edges of a component lead from its inputs to its outputs. -/
theorem ComponentLaid.mem_of_mem_edges {e : Nat × Nat} (he : e ∈ n.edges) :
    e.1 ∈ c.inputIds ∧ e.2 ∈ c.outputIds := by
  unfold ComponentNode.edges at he
  split at he
  · obtain ⟨i, hi, he⟩ := List.mem_flatMap.1 he
    obtain ⟨o, ho, rfl⟩ := List.mem_map.1 he
    exact ⟨h.inputs_eq ▸ hi, h.outputs_eq ▸ ho⟩
  · rw [h.declared_eq] at he
    obtain ⟨p, -, hends⟩ := List.mem_filterMap.1 he
    obtain ⟨i, hi, hends⟩ := Option.bind_eq_some_iff.1 hends
    obtain ⟨o, ho, hends⟩ := Option.bind_eq_some_iff.1 hends
    cases hends
    obtain ⟨j, -, hj⟩ := Option.bind_eq_some_iff.1 hi
    obtain ⟨l, -, hl⟩ := Option.bind_eq_some_iff.1 ho
    exact ⟨List.mem_of_getElem? hj, List.mem_of_getElem? hl⟩

end Edges

end Flattening

namespace Model

variable {m : Model R M}

/-- Every component has a node. -/
theorem Laid.exists_node (hm : m.Laid) {k : Nat} {c : ModelComponent R M}
    (hc : m.components[k]? = some c) : ∃ n d, m.graph.components[k]? = some n ∧
      Flattening.ComponentLaid m.variableTable.values k c n d := by
  have hlt : k < m.graph.components.length := by
    rw [hm.length_eq]
    exact (List.getElem?_eq_some_iff.1 hc).1
  obtain ⟨d, hlaid⟩ := hm.component k c _ hc (List.getElem?_eq_getElem hlt)
  exact ⟨_, d, List.getElem?_eq_getElem hlt, hlaid⟩

/-- The variables of a component are those that belong to it. -/
theorem Laid.mem_idsOf_iff (hm : m.Laid) {k : Nat} {c : ModelComponent R M}
    (hc : m.components[k]? = some c) {id : Nat} {v : ModelVariable R}
    (hv : m.variableAt? id = some v) : id ∈ Flattening.idsOf c v.kind ↔ v.owner = k := by
  obtain ⟨n, d, -, hlaid⟩ := hm.exists_node hc
  constructor
  · intro hid
    cases hkind : v.kind with
    | input =>
      rw [hkind] at hid
      obtain ⟨w, hw, -, howner⟩ := hlaid.inputs.of_mem hid
      obtain rfl := Option.some.inj (hv.symm.trans hw)
      exact howner
    | output =>
      rw [hkind] at hid
      obtain ⟨w, hw, -, howner⟩ := hlaid.outputs.of_mem hid
      obtain rfl := Option.some.inj (hv.symm.trans hw)
      exact howner
  · rintro rfl
    obtain ⟨c', hc', hid⟩ := hm.owned id v hv
    obtain rfl := Option.some.inj (hc.symm.trans hc')
    exact hid

/-- Names number the nodes of the graph as they number the variables. -/
theorem Laid.node?_eq (hm : m.Laid) (name : String) :
    m.graph.node? name = m.variableTable.indexOf? name := by
  simp only [DependencyGraph.node?, Table.indexOf?, hm.keys_eq]

/-- **The edges of a model** are its connections and the dependencies of its components, between an
input and an output of one component. -/
theorem Laid.mem_edges_iff (hm : m.Laid) {e : Nat × Nat} : e ∈ m.graph.edges ↔
    m.source? e.2 = some e.1 ∨ ∃ (k : Nat) (n : ComponentNode) (i o : ModelVariable R),
      m.graph.components[k]? = some n ∧ e ∈ n.edges ∧
      m.variableAt? e.1 = some i ∧ i.kind = .input ∧ i.owner = k ∧
      m.variableAt? e.2 = some o ∧ o.kind = .output ∧ o.owner = k := by
  rw [hm.source_iff]
  constructor
  · intro he
    rw [hm.complete.edges_eq, DependencyGraph.allEdges, List.mem_append] at he
    refine he.imp_right fun he => ?_
    obtain ⟨n, hn, he⟩ := List.mem_flatMap.1 he
    obtain ⟨k, hk⟩ := List.mem_iff_getElem?.1 hn
    have hlt : k < m.components.length := by
      rw [← hm.length_eq]
      exact (List.getElem?_eq_some_iff.1 hk).1
    obtain ⟨d, hlaid⟩ := hm.component k _ n (List.getElem?_eq_getElem hlt) hk
    obtain ⟨hinput, houtput⟩ := hlaid.mem_of_mem_edges he
    obtain ⟨i, hi, hikind, hiowner⟩ := hlaid.inputs.of_mem hinput
    obtain ⟨o, ho, hokind, hoowner⟩ := hlaid.outputs.of_mem houtput
    exact ⟨k, n, i, o, hk, he, hi, hikind, hiowner, ho, hokind, hoowner⟩
  · rintro (he | ⟨k, n, i, o, hn, he, -⟩)
    · exact hm.complete.mem_edges_of_connection he
    · exact hm.complete.mem_edges_of_component hn he

/-- An edge into an output comes from the component that the output belongs to. -/
theorem Laid.mem_edges_of_output (hm : m.Laid) {e : Nat × Nat} (he : e ∈ m.graph.edges)
    {o : ModelVariable R} (ho : m.variableAt? e.2 = some o) (hkind : o.kind = .output) :
    ∃ n, m.graph.components[o.owner]? = some n ∧ e ∈ n.edges := by
  rcases hm.mem_edges_iff.1 he with hsource | ⟨k, n, i, o', hn, he, -, -, -, ho', -, rfl⟩
  · obtain ⟨_, w, -, -, hw, hwkind, -⟩ := hm.matching _ _ hsource
    obtain rfl := Option.some.inj (ho.symm.trans hw)
    rw [hkind] at hwkind
    cases hwkind
  · obtain rfl := Option.some.inj (ho.symm.trans ho')
    exact ⟨n, hn, he⟩

/-- An edge out of an input goes into the component that the input belongs to. -/
theorem Laid.mem_edges_of_input (hm : m.Laid) {e : Nat × Nat} (he : e ∈ m.graph.edges)
    {i : ModelVariable R} (hi : m.variableAt? e.1 = some i) (hkind : i.kind = .input) :
    ∃ n, m.graph.components[i.owner]? = some n ∧ e ∈ n.edges := by
  rcases hm.mem_edges_iff.1 he with hsource | ⟨k, n, i', o, hn, he, hi', -, rfl, -⟩
  · obtain ⟨v, _, hv, hvkind, -⟩ := hm.matching _ _ hsource
    obtain rfl := Option.some.inj (hi.symm.trans hv)
    rw [hkind] at hvkind
    cases hvkind
  · obtain rfl := Option.some.inj (hi.symm.trans hi')
    exact ⟨n, hn, he⟩

end Model

end Sensitivity
