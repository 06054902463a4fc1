import Sensitivity.Model.Flattening
import Sensitivity.Proofs.Graph.Relevance
import Sensitivity.Proofs.Span
import Sensitivity.Proofs.Table

/-!
# The layout of a model

Laying a system out keeps an invariant (`Flattening.Laid`): every variable has a node of the same
number, the variables of one kind stand one behind the other, those of a component fill its spans
in the order of its declarations (`Flattening.Placed`), and its node in the graph has the pairs that
it declared (`Flattening.ComponentLaid`). Adding a component keeps it
(`Flattening.ComponentAdded.laid_of_laid`), and so does walking through a tree of groups
(`Flattening.Laid.addMembers`). Joining inputs to their sources then makes the sources the
connections of the graph (`Flattening.Joined`).

So every model that can be set up is laid out (`Model.laid_of_ofGroup`): two variables of a kind
stand apart (`Model.Laid.apart`), inside the vector of their kind (`Model.Laid.stop_le`).
-/

namespace Sensitivity

variable {R M : Type}

namespace Layout

theorem map_fst_stack (start : Nat) (es : List (String × Nat)) :
    (stack start es).map Prod.fst = es.map Prod.fst := by
  induction es generalizing start with
  | nil => rfl
  | cons e rest ih => simp [stack, ih]

/-- The spans of a table of variables, in order. -/
theorem entries_spans (specs : Table String (VariableSpec R)) :
    (spans specs).entries = stack 0 (specs.entries.map fun e => (e.1, e.2.size)) := by
  refine Table.entries_ofList ?_
  rw [map_fst_stack, List.map_map]
  exact specs.nodup

theorem keys_spans (specs : Table String (VariableSpec R)) : (spans specs).keys = specs.keys := by
  rw [Table.keys, entries_spans, map_fst_stack, List.map_map]
  rfl

end Layout

namespace Members

/-- The components of some members and of the groups among them, in the order in which they run. -/
def components : Members R M → List (Component R M)
  | empty => []
  | component _ c rest => c :: rest.components
  | group _ _ members rest => members.components ++ rest.components

end Members

namespace Flattening

/-- The variables of one kind of a component, laid out from `start` on. -/
def laidOut (path : String) (kind : VariableKind) (owner start : Nat) :
    List (String × VariableSpec R) → List (ModelVariable R)
  | [] => []
  | (name, spec) :: rest =>
    ⟨joinPath path name, name, kind, owner, spec, start⟩ ::
      laidOut path kind owner (start + spec.size) rest

/-- The number of entries of some variables. -/
def extent : List (String × VariableSpec R) → Nat
  | [] => 0
  | (_, spec) :: rest => spec.size + extent rest

section LaidOut

variable {path : String} {kind : VariableKind} {owner start : Nat}
  {specs : List (String × VariableSpec R)}

theorem length_laidOut : (laidOut path kind owner start specs).length = specs.length := by
  induction specs generalizing start with
  | nil => rfl
  | cons e rest ih => simp [laidOut, ih]

theorem of_mem_laidOut {v : ModelVariable R} (h : v ∈ laidOut path kind owner start specs) :
    v.kind = kind ∧ v.owner = owner := by
  induction specs generalizing start with
  | nil => cases h
  | cons e rest ih =>
    rcases List.mem_cons.1 h with rfl | h
    · exact ⟨rfl, rfl⟩
    · exact ih h

theorem filter_laidOut (k : VariableKind) :
    (laidOut path kind owner start specs).filter (fun v => v.kind = k) =
      if kind = k then laidOut path kind owner start specs else [] := by
  split
  · rename_i h
    exact List.filter_eq_self.2 fun v hv => by simp [(of_mem_laidOut hv).1, h]
  · rename_i h
    exact List.filter_eq_nil_iff.2 fun v hv => by simp [(of_mem_laidOut hv).1, h]

/-- Variables laid out stand one behind the other. -/
theorem consecutive_laidOut :
    Consecutive start (start + extent specs)
      ((laidOut path kind owner start specs).map (·.span)) := by
  induction specs generalizing start with
  | nil => rfl
  | cons e rest ih =>
    refine ⟨rfl, ?_⟩
    have := @ih (start + e.2.size)
    simpa [extent, laidOut, Span.stop, ModelVariable.span, ModelVariable.size,
      Nat.add_assoc] using this

/-- Variables laid out keep the distances that they have in the layout of their component. -/
theorem map_laidOut (offset : Nat) :
    (laidOut path kind owner (start + offset) specs).map (fun v => (v.localName, v.span)) =
      (Layout.stack offset (specs.map fun e => (e.1, e.2.size))).map fun e =>
        (e.1, ⟨start + e.2.start, e.2.size⟩) := by
  induction specs generalizing offset with
  | nil => rfl
  | cons e rest ih =>
    have := ih (offset + e.2.size)
    rw [← Nat.add_assoc] at this
    simp only [laidOut, Layout.stack, List.map_cons, this]
    rfl

end LaidOut

/-- The graph has a node for each variable, with the same number. -/
def Tracked (f : Flattening R M) : Prop :=
  f.graph.nodes.entries = f.variableTable.entries.map fun e => (e.1, ⟨e.2.kind, e.2.owner⟩)

theorem Tracked.keys_eq {f : Flattening R M} (h : f.Tracked) :
    f.graph.nodes.keys = f.variableTable.keys := by
  have := congrArg (List.map Prod.fst) h
  rwa [List.map_map] at this

/-- Changing the last entry of a list. -/
theorem modify_last {α : Type} (xs : List α) (x : α) (f : α → α) :
    (xs ++ [x]).modify xs.length f = xs ++ [f x] := by
  induction xs with
  | nil => rfl
  | cons y rest ih => simp [ih]

theorem Tracked.getElem?_values {f : Flattening R M} (h : f.Tracked) (id : Nat) :
    f.graph.nodes.values[id]? =
      f.variableTable.values[id]?.map fun v => ⟨v.kind, v.owner⟩ := by
  have := congrArg (List.map Prod.snd) h
  rw [List.map_map] at this
  simp only [Table.values, this, List.getElem?_map, Option.map_map]
  rfl

/-- A component with more variables of a kind. -/
def attach (kind : VariableKind) (ids : List Nat) (n : ComponentNode) : ComponentNode :=
  match kind with
  | .input => { n with inputs := n.inputs ++ ids }
  | .output => { n with outputs := n.outputs ++ ids }

/-- What adding the variables `vs` of one kind of the last component does. -/
structure Added (f : Flattening R M) (kind : VariableKind) (old : List ComponentNode)
    (n : ComponentNode) (vs : List (ModelVariable R)) (entries : Nat) (f' : Flattening R M)
    (ids : List Nat) : Prop where
  ids_eq : ids = List.range' f.variableTable.size vs.length
  table : f'.variableTable.entries = f.variableTable.entries ++ vs.map fun v => (v.name, v)
  tracked : f'.Tracked
  nodes : f'.graph.components = old ++ [attach kind ids n]
  graphConnections : f'.graph.connections = f.graph.connections
  components : f'.components = f.components
  groups : f'.groups = f.groups
  connections : f'.connections = f.connections
  length_self : f'.lengthOf kind = f.lengthOf kind + entries
  length_other : ∀ k, k ≠ kind → f'.lengthOf k = f.lengthOf k

theorem lengthOf_grow (f : Flattening R M) (kind k : VariableKind) (n : Nat) :
    (f.grow kind n).lengthOf k = if k = kind then f.lengthOf k + n else f.lengthOf k := by
  cases kind <;> cases k <;> rfl

/-- One more variable. -/
theorem addVariable_eq_ok {f f' : Flattening R M} {path localName : String} {kind : VariableKind}
    {spec : VariableSpec R} {id : Nat} {old : List ComponentNode} {n : ComponentNode}
    (hf : f.Tracked) (hold : f.graph.components = old ++ [n])
    (h : f.addVariable path kind old.length localName spec = .ok (f', id)) :
    Added f kind old n
      [⟨joinPath path localName, localName, kind, old.length, spec, f.lengthOf kind⟩] spec.size f' [id] := by
  unfold addVariable at h
  dsimp only at h
  split at h
  · obtain ⟨_, hfail, -⟩ := Except.bind_eq_ok.1 h
    cases hfail
  rename_i hnew
  obtain ⟨⟨graph, i⟩, hgraph, hresult⟩ := Except.bind_eq_ok.1 h
  cases hresult
  have hnot : joinPath path localName ∉ f.variableTable.keys := by
    simpa [Table.contains] using hnew
  rw [Outcome.ofOption_eq_ok] at hgraph
  simp only [DependencyGraph.addVariable?, hold, List.length_append, List.length_singleton,
    Nat.lt_succ_self, if_true, Option.some.injEq, Prod.mk.injEq] at hgraph
  obtain ⟨rfl, hid⟩ := hgraph
  have hnodes := Table.entries_insert (hf.keys_eq ▸ hnot) (⟨kind, old.length⟩ : VariableNode)
  have hindex : (f.graph.nodes.insert (joinPath path localName)
      ⟨kind, old.length⟩).indexOf? (joinPath path localName) = some f.variableTable.size := by
    refine Table.indexOf?_eq_some_iff.2 ⟨⟨kind, old.length⟩, ?_⟩
    rw [hnodes, hf, List.getElem?_append_right (by simp [Table.size])]
    simp [Table.size]
  rw [hindex, Option.getD_some] at hid
  subst hid
  refine ⟨rfl, ?_, ?_, ?_, rfl, ?_, ?_, ?_, ?_, fun k hk => ?_⟩
  · exact Table.entries_insert hnot _
  · simp only [Tracked, Table.entries_insert hnot, hnodes, List.map_append]
    rw [hf]
    rfl
  · dsimp only
    rw [hindex, Option.getD_some, modify_last]
    cases kind <;> rfl
  · cases kind <;> rfl
  · cases kind <;> rfl
  · cases kind <;> rfl
  · have := lengthOf_grow f kind kind spec.size
    rw [if_pos rfl] at this
    exact this
  · have := lengthOf_grow f kind k spec.size
    rw [if_neg hk] at this
    exact this

/-- **Adding variables** lays them out behind those that are there. -/
theorem addVariables_eq_ok {f f' : Flattening R M} {path : String} {kind : VariableKind}
    {specs : List (String × VariableSpec R)} {ids : List Nat} {old : List ComponentNode}
    {n : ComponentNode} (hf : f.Tracked) (hold : f.graph.components = old ++ [n])
    (h : addVariables path kind old.length specs f = .ok (f', ids)) :
    Added f kind old n (laidOut path kind old.length (f.lengthOf kind) specs) (extent specs) f'
      ids := by
  induction specs generalizing f n ids with
  | nil =>
    cases h
    refine ⟨rfl, by simp [laidOut], hf, ?_, rfl, rfl, rfl, rfl, rfl, fun _ _ => rfl⟩
    rw [hold]
    cases kind <;> simp [attach]
  | cons e rest ih =>
    obtain ⟨name, spec⟩ := e
    obtain ⟨⟨f₁, id⟩, hfirst, h⟩ := Except.bind_eq_ok.1 h
    obtain ⟨⟨f₂, others⟩, hrest, h⟩ := Except.bind_eq_ok.1 h
    cases h
    have hone := addVariable_eq_ok hf hold hfirst
    have hmore := ih hone.tracked hone.nodes hrest
    have hid : id = f.variableTable.size := List.head_eq_of_cons_eq hone.ids_eq
    have hsize : f₁.variableTable.size = f.variableTable.size + 1 := by
      simp [Table.size, hone.table]
    rw [hone.length_self] at hmore
    refine ⟨?_, ?_, hmore.tracked, ?_, hmore.graphConnections.trans hone.graphConnections,
      hmore.components.trans hone.components, hmore.groups.trans hone.groups,
      hmore.connections.trans hone.connections, ?_,
      fun k hk => (hmore.length_other k hk).trans (hone.length_other k hk)⟩
    · rw [hmore.ids_eq, hid, hsize]
      rfl
    · rw [hmore.table, hone.table]
      simp [laidOut]
    · rw [hmore.nodes]
      cases kind <;> simp [attach]
    · rw [hmore.length_self, hone.length_self]
      simp [extent, Nat.add_assoc]

section Components

/-- The variables of one kind of a component stand one behind the other in `outer`. -/
structure Placed (vars : List (ModelVariable R)) (path : String) (kind : VariableKind)
    (owner : Nat) (outer : Span) (specs : Table String (VariableSpec R)) (ids : List Nat) :
    Prop where
  found : List.Forall₂ (fun id v => vars[id]? = some v) ids
    (laidOut path kind owner outer.start specs.entries)
  size_eq : outer.size = extent specs.entries

/-- A component as it is laid out, with its node in the graph. -/
structure ComponentLaid (vars : List (ModelVariable R)) (number : Nat) (c : ModelComponent R M)
    (n : ComponentNode) (d : Declarations R) : Prop where
  declarations : c.component.declarations = .ok d
  partials : d.resolve = .ok c.partials
  layout : c.layout = .ofDeclarations d
  inputs : Placed vars c.path .input number c.inputs d.inputs c.inputIds
  outputs : Placed vars c.path .output number c.outputs d.outputs c.outputIds
  inputs_eq : n.inputs = c.inputIds
  outputs_eq : n.outputs = c.outputIds
  declared_eq : n.declared = c.partials.filterMap c.ends?
  marked_eq : n.marked = c.partials.any fun p => p.everything && (c.ends? p).isSome
  methods_eq : c.methods = d.methods.map fun method => (method, placesOf c.partials method)

/-- The numbers of the variables of one kind of a component. -/
def idsOf (c : ModelComponent R M) : VariableKind → List Nat
  | .input => c.inputIds
  | .output => c.outputIds

/-- Where the variables of one kind of a component stand. -/
def spanOf (c : ModelComponent R M) : VariableKind → Span
  | .input => c.inputs
  | .output => c.outputs

/-- What laying out maintains. -/
structure Laid (f : Flattening R M) : Prop where
  tracked : f.Tracked
  length_eq : f.graph.components.length = f.components.length
  component : ∀ (k : Nat) c n, f.components[k]? = some c → f.graph.components[k]? = some n →
    ∃ d, ComponentLaid f.variableTable.values k c n d
  owned : ∀ (id : Nat) v, f.variableTable.values[id]? = some v →
    ∃ c, f.components[v.owner]? = some c ∧ id ∈ idsOf c v.kind
  consecutive : ∀ kind, Consecutive 0 (f.lengthOf kind)
    ((f.variableTable.values.filter fun v => v.kind = kind).map (·.span))
  inside : ∀ c ∈ f.components, ∀ kind, (spanOf c kind).stop ≤ f.lengthOf kind
  unconnected : f.graph.connections = []

/-- The variables of a component are of their kind and belong to it. -/
theorem Placed.of_mem {vars : List (ModelVariable R)} {path : String} {kind : VariableKind}
    {owner : Nat} {outer : Span} {specs : Table String (VariableSpec R)} {ids : List Nat}
    (h : Placed vars path kind owner outer specs ids) {id : Nat} (hid : id ∈ ids) :
    ∃ v, vars[id]? = some v ∧ v.kind = kind ∧ v.owner = owner := by
  obtain ⟨i, hi, rfl⟩ := List.getElem_of_mem hid
  have hi' : i < (laidOut path kind owner outer.start specs.entries).length :=
    h.found.length_eq ▸ hi
  exact ⟨_, h.found.get hi hi', of_mem_laidOut (List.getElem_mem hi')⟩

/-- The variable with the number at a place is the one at the same place of the layout. -/
theorem Placed.getElem? {vars : List (ModelVariable R)} {path : String} {kind : VariableKind}
    {owner : Nat} {outer : Span} {specs : Table String (VariableSpec R)} {ids : List Nat}
    (h : Placed vars path kind owner outer specs ids) {j : Nat} {name : String} {own : Span}
    (hj : (Layout.spans specs).entries[j]? = some (name, own)) :
    ∃ id v, ids[j]? = some id ∧ vars[id]? = some v ∧ v.kind = kind ∧ v.owner = owner ∧
      v.span = ⟨outer.start + own.start, own.size⟩ ∧ own.stop ≤ outer.size := by
  have hshift : (laidOut path kind owner outer.start specs.entries).map
      (fun v => (v.localName, v.span)) = (Layout.spans specs).entries.map fun e =>
        (e.1, ⟨outer.start + e.2.start, e.2.size⟩) := by
    rw [Layout.entries_spans]
    exact map_laidOut 0
  have hget := congrArg (·[j]?) hshift
  simp only [List.getElem?_map, hj, Option.map_some, Option.map_eq_some_iff] at hget
  obtain ⟨v, hv, hspan⟩ := hget
  obtain ⟨hlt, rfl⟩ := List.getElem?_eq_some_iff.1 hv
  have hlt' : j < ids.length := h.found.length_eq ▸ hlt
  obtain ⟨hkind, howner⟩ := of_mem_laidOut (List.getElem_mem hlt)
  obtain ⟨-, hspan⟩ := Prod.mk.inj hspan
  refine ⟨_, _, List.getElem?_eq_getElem hlt', h.found.get hlt' hlt, hkind, howner, hspan, ?_⟩
  have hbound := consecutive_laidOut.bounds.2 _ (List.mem_map_of_mem (List.getElem_mem hlt))
  rw [hspan, ← h.size_eq] at hbound
  have hstop := hbound.2
  simp only [Span.stop] at hstop ⊢
  omega

/-- The variables of a component fill their span. -/
theorem Placed.exists_contains {vars : List (ModelVariable R)} {path : String} {kind : VariableKind}
    {owner : Nat} {outer : Span} {specs : Table String (VariableSpec R)} {ids : List Nat}
    (h : Placed vars path kind owner outer specs ids) {i : Nat} (hi : outer.contains i = true) :
    ∃ id ∈ ids, ∃ v, vars[id]? = some v ∧ v.span.contains i = true := by
  rw [Span.contains_iff, Span.stop, h.size_eq] at hi
  have hfill : Consecutive outer.start (outer.start + extent specs.entries)
    ((laidOut path kind owner outer.start specs.entries).map (·.span)) := consecutive_laidOut
  obtain ⟨s, hs, hcontains⟩ := hfill.exists_contains hi.1 hi.2
  obtain ⟨v, hv, rfl⟩ := List.mem_map.1 hs
  obtain ⟨j, hj, rfl⟩ := List.getElem_of_mem hv
  have hj' : j < ids.length := h.found.length_eq ▸ hj
  exact ⟨_, List.getElem_mem hj', _, h.found.get hj' hj, hcontains⟩

theorem Placed.length_eq {vars : List (ModelVariable R)} {path : String} {kind : VariableKind}
    {owner : Nat} {outer : Span} {specs : Table String (VariableSpec R)} {ids : List Nat}
    (h : Placed vars path kind owner outer specs ids) :
    ids.length = (Layout.spans specs).entries.length := by
  rw [h.found.length_eq, length_laidOut, Layout.entries_spans]
  have := congrArg List.length
    (Layout.map_fst_stack 0 (specs.entries.map fun e => (e.1, e.2.size)))
  simpa using this.symm

theorem Placed.mono {vars more : List (ModelVariable R)} {path : String} {kind : VariableKind}
    {owner : Nat} {outer : Span} {specs : Table String (VariableSpec R)} {ids : List Nat}
    (h : Placed vars path kind owner outer specs ids) :
    Placed (vars ++ more) path kind owner outer specs ids := by
  refine ⟨h.found.imp fun id v hv => ?_, h.size_eq⟩
  rw [List.getElem?_append_left (List.getElem?_eq_some_iff.1 hv).1]
  exact hv

theorem ComponentLaid.mono {vars more : List (ModelVariable R)} {number : Nat}
    {c : ModelComponent R M} {n : ComponentNode} {d : Declarations R}
    (h : ComponentLaid vars number c n d) : ComponentLaid (vars ++ more) number c n d :=
  { h with inputs := h.inputs.mono, outputs := h.outputs.mono }

section Local

variable {vars : List (ModelVariable R)} {number : Nat} {c : ModelComponent R M} {n : ComponentNode}
  {d : Declarations R} (h : ComponentLaid vars number c n d)

include h

/-- A declared input has a number, and stands where the layout of the component puts it. -/
theorem ComponentLaid.input {wrt : String} {own : Span} (hw : c.layout.inputs.get? wrt = some own) :
    ∃ id v, c.inputId? wrt = some id ∧ id ∈ c.inputIds ∧ vars[id]? = some v ∧ v.kind = .input ∧
      v.span = ⟨c.inputs.start + own.start, own.size⟩ ∧ own.stop ≤ c.inputs.size := by
  have hlayout : c.layout.inputs = Layout.spans d.inputs := by rw [h.layout]; rfl
  rw [hlayout] at hw
  obtain ⟨j, hj⟩ := List.mem_iff_getElem?.1 ((Table.get?_eq_some_iff _ _ _).1 hw)
  obtain ⟨id, v, hid, hv, hkind, -, hspan, hstop⟩ := h.inputs.getElem? hj
  have hindex := Table.indexOf?_eq_some_iff.2 ⟨own, hj⟩
  refine ⟨id, v, ?_, List.mem_of_getElem? hid, hv, hkind, hspan, hstop⟩
  simp only [ModelComponent.inputId?, hlayout, hindex, Option.bind_eq_bind, Option.bind_some, hid]

/-- Every output is a declared one, and stands where the layout of the component puts it. -/
theorem ComponentLaid.output {id : Nat} (hid : id ∈ c.outputIds) :
    ∃ of own v, c.layout.outputs.get? of = some own ∧ c.outputId? of = some id ∧
      vars[id]? = some v ∧ v.kind = .output ∧
      v.span = ⟨c.outputs.start + own.start, own.size⟩ ∧ own.stop ≤ c.outputs.size := by
  have hlayout : c.layout.outputs = Layout.spans d.outputs := by rw [h.layout]; rfl
  obtain ⟨j, hj, rfl⟩ := List.getElem_of_mem hid
  have hj' : j < (Layout.spans d.outputs).entries.length := h.outputs.length_eq ▸ hj
  obtain ⟨⟨of, own⟩, he⟩ : ∃ e, (Layout.spans d.outputs).entries[j]? = some e :=
    ⟨_, List.getElem?_eq_getElem hj'⟩
  obtain ⟨id, v, hid', hv, hkind, -, hspan, hstop⟩ := h.outputs.getElem? he
  rw [List.getElem?_eq_getElem hj] at hid'
  obtain rfl := Option.some.inj hid'
  have hindex := Table.indexOf?_eq_some_iff.2 ⟨own, he⟩
  refine ⟨of, own, v, ?_, ?_, hv, hkind, hspan, hstop⟩
  · rw [hlayout]
    exact (Table.get?_eq_some_iff _ _ _).2 (List.mem_of_getElem? he)
  · simp only [ModelComponent.outputId?, hlayout, hindex, Option.bind_eq_bind, Option.bind_some,
      List.getElem?_eq_getElem hj]

end Local

/-- The dependencies of a component go to its own node. -/
theorem addDependency_eq_some {c : ModelComponent R M} {old : List ComponentNode}
    {n : ComponentNode} {g g' : DependencyGraph} {p : DeclaredPartial R}
    (hold : g.components = old ++ [n])
    (hout : ∀ o ∈ c.outputIds, ∃ node, g.nodes.values[o]? = some node ∧ node.owner = old.length)
    (h : addDependency c old.length g p = some g') :
    g'.nodes = g.nodes ∧ g'.connections = g.connections ∧ g'.components = old ++
      [{ n with
        declared := n.declared ++ [p].filterMap c.ends?
        marked := n.marked || (p.everything && (c.ends? p).isSome) }] := by
  unfold addDependency at h
  split at h
  · rename_i hends
    cases h
    exact ⟨rfl, rfl, by simp [hends, hold]⟩
  · rename_i input output hends
    obtain ⟨i, hi, o, ho, hio⟩ : ∃ i, c.inputId? p.wrt = some i ∧ ∃ o, c.outputId? p.of = some o ∧
        (i, o) = (input, output) := by
      simpa [ModelComponent.ends?, Option.bind_eq_some_iff] using hends
    cases hio
    have hmem : output ∈ c.outputIds := by
      obtain ⟨j, -, hj⟩ := Option.bind_eq_some_iff.1 ho
      exact List.mem_of_getElem? hj
    obtain ⟨node, hnode, howner⟩ := hout output hmem
    simp only [DependencyGraph.addDependency?, hnode, Option.map_some, Option.bind_eq_bind,
      Option.bind_some, hold, howner, modify_last] at h
    split at h
    · rename_i heverything
      simp only [DependencyGraph.setAllToAll?, List.length_append, List.length_singleton,
        Nat.lt_succ_self, if_true, modify_last, Option.some.injEq] at h
      cases h
      exact ⟨rfl, rfl, by simp [hends, heverything]⟩
    · rename_i heverything
      cases h
      exact ⟨rfl, rfl, by simp [hends, heverything]⟩

theorem foldlM_addDependency_eq_some {c : ModelComponent R M} {old : List ComponentNode}
    {n : ComponentNode} {g g' : DependencyGraph} {partials : List (DeclaredPartial R)}
    (hold : g.components = old ++ [n])
    (hout : ∀ o ∈ c.outputIds, ∃ node, g.nodes.values[o]? = some node ∧ node.owner = old.length)
    (h : partials.foldlM (addDependency c old.length) g = some g') :
    g'.nodes = g.nodes ∧ g'.connections = g.connections ∧ g'.components = old ++
      [{ n with
        declared := n.declared ++ partials.filterMap c.ends?
        marked := n.marked || partials.any fun p => p.everything && (c.ends? p).isSome }] := by
  induction partials generalizing g n with
  | nil =>
    cases h
    exact ⟨rfl, rfl, by simp [hold]⟩
  | cons p rest ih =>
    obtain ⟨g₁, hp, hrest⟩ := Option.bind_eq_some_iff.1 h
    obtain ⟨hnodes₁, hconnections₁, hcomponents₁⟩ := addDependency_eq_some hold hout hp
    obtain ⟨hnodes, hconnections, hcomponents⟩ :=
      ih hcomponents₁ (fun o ho => by rw [hnodes₁]; exact hout o ho) hrest
    refine ⟨hnodes.trans hnodes₁, hconnections.trans hconnections₁, ?_⟩
    rw [hcomponents]
    simp only [List.append_assoc, ← List.filterMap_append, Bool.or_assoc, List.any_cons]
    rfl

/-- The numbers of variables that were just laid out are found under them. -/
theorem forall₂_range' {α : Type} (old xs more : List α) :
    List.Forall₂ (fun id v => (old ++ xs ++ more)[id]? = some v)
      (List.range' old.length xs.length) xs := by
  rw [List.forall₂_iff_get]
  refine ⟨by simp, fun i hi hi' => ?_⟩
  have hlt : i < xs.length := hi'
  simp [List.getElem?_append, hlt]

/-- The values of a table that grew. -/
theorem values_of_entries {α : Type} {t t' : Table String α} {name : α → String} {vs : List α}
    (h : t'.entries = t.entries ++ vs.map fun v => (name v, v)) : t'.values = t.values ++ vs := by
  simp [Table.values, h, Function.comp_def]

/-- Variables that were added stand in the span that they were laid out in. -/
theorem Added.placed {f f' : Flattening R M} {path : String} {kind : VariableKind} {owner : Nat}
    {old : List ComponentNode} {n : ComponentNode} {specs : Table String (VariableSpec R)}
    {ids : List Nat} (h : Added f kind old n
      (laidOut path kind owner (f.lengthOf kind) specs.entries) (extent specs.entries) f' ids) :
    Placed f'.variableTable.values path kind owner
      ⟨f.lengthOf kind, f'.lengthOf kind - f.lengthOf kind⟩ specs ids := by
  refine ⟨?_, ?_⟩
  · rw [values_of_entries h.table, h.ids_eq, Table.size_eq_length_values,
      ← List.append_nil (f.variableTable.values ++ _)]
    exact forall₂_range' _ _ _
  · rw [h.length_self]
    exact Nat.add_sub_cancel_left _ _

/-- What adding a component does: its variables and its node go behind those that are there. -/
structure ComponentAdded (f : Flattening R M) (component : Component R M) (path : String)
    (c : ModelComponent R M) (n : ComponentNode) (d : Declarations R) (f' : Flattening R M) :
    Prop where
  component_eq : c.component = component
  path_eq : c.path = path
  start_eq : ∀ kind, (spanOf c kind).start = f.lengthOf kind
  table : f'.variableTable.entries = f.variableTable.entries ++
    (laidOut path .input f.components.length f.inputLength d.inputs.entries ++
      laidOut path .output f.components.length f.outputLength d.outputs.entries).map
        fun v => (v.name, v)
  values : f'.variableTable.values = f.variableTable.values ++
    laidOut path .input f.components.length f.inputLength d.inputs.entries ++
      laidOut path .output f.components.length f.outputLength d.outputs.entries
  inputIds : c.inputIds = List.range' f.variableTable.values.length d.inputs.entries.length
  outputIds : c.outputIds = List.range'
    (f.variableTable.values.length + d.inputs.entries.length) d.outputs.entries.length
  laid : ComponentLaid f'.variableTable.values f.components.length c n d
  tracked : f'.Tracked
  components : f'.components = f.components ++ [c]
  nodes : f'.graph.components = f.graph.components ++ [n]
  groups : f'.groups = f.groups
  inputLength : f'.inputLength = f.inputLength + extent d.inputs.entries
  outputLength : f'.outputLength = f.outputLength + extent d.outputs.entries
  connections : f'.connections = f.connections
  graphConnections : f'.graph.connections = f.graph.connections

/-- **Adding a component** that can be laid out. -/
theorem addComponent_eq_ok {f f' : Flattening R M} (htracked : f.Tracked)
    (hlength : f.graph.components.length = f.components.length) {path : String}
    {component : Component R M} (h : f.addComponent path component = .ok f') :
    ∃ c n d, ComponentAdded f component path c n d f' := by
  unfold Flattening.addComponent at h
  simp only [Except.bind_eq_ok, Outcome.mapError_eq_ok, Outcome.ofExcept_eq_ok,
    Outcome.ofOption_eq_ok] at h
  obtain ⟨d, hd, partials, hpartials, ⟨f₁, inputIds⟩, hinputs, ⟨f₂, outputIds⟩, houtputs, graph,
    hgraph, hresult⟩ := h
  rw [← hlength] at hinputs houtputs hgraph
  have htracked₀ : Tracked { f with graph := f.graph.addComponent path } := htracked
  have hold : (f.graph.addComponent path).components =
    f.graph.components ++ [⟨path, [], [], [], false⟩] := rfl
  have hin := addVariables_eq_ok htracked₀ hold hinputs
  have hout := addVariables_eq_ok hin.tracked hin.nodes houtputs
  have hstart := hin.length_other .output (by decide)
  have hvaluesin := values_of_entries hin.table
  have hvaluesout := values_of_entries hout.table
  rw [hlength] at hin hout hvaluesin hvaluesout
  rw [hstart] at hvaluesout
  have hsame : f₂.inputLength = f₁.inputLength := hout.length_other .input (by decide)
  have hplacedin : Placed f₂.variableTable.values path .input f.components.length
      ⟨f.inputLength, f₂.inputLength - f.inputLength⟩ d.inputs inputIds := by
    rw [values_of_entries hout.table, hsame]
    exact hin.placed.mono
  have hplacedout : Placed f₂.variableTable.values path .output f.components.length
      ⟨f.outputLength, f₂.outputLength - f.outputLength⟩ d.outputs outputIds := by
    have hplaced := hout.placed
    rw [hstart] at hplaced
    exact hplaced
  obtain ⟨hnodes, hconnections, hcomponents⟩ := foldlM_addDependency_eq_some hout.nodes
    (fun o ho => by
      obtain ⟨v, hv, -, howner⟩ := hplacedout.of_mem ho
      exact ⟨_, by rw [hout.tracked.getElem?_values, hv]; rfl, howner.trans hlength.symm⟩) hgraph
  cases hresult
  refine ⟨_, _, d, rfl, rfl, fun kind => by cases kind <;> rfl, ?_, ?_, ?_, ?_,
    ⟨hd, hpartials, rfl, hplacedin, hplacedout, rfl, rfl, rfl, rfl, rfl⟩, ?_,
    congrArg (· ++ _) (hout.components.trans hin.components), hcomponents,
    hout.groups.trans hin.groups, ?_, ?_, hout.connections.trans hin.connections,
    hconnections.trans (hout.graphConnections.trans hin.graphConnections)⟩
  · have htable := hout.table
    rw [hstart, hin.table] at htable
    rw [List.map_append, ← List.append_assoc]
    exact htable
  · rw [hvaluesout, hvaluesin]
    rfl
  · change inputIds = _
    rw [hin.ids_eq, Table.size_eq_length_values, length_laidOut]
  · change outputIds = _
    rw [hout.ids_eq, Table.size_eq_length_values, hvaluesin, List.length_append, length_laidOut,
      length_laidOut]
  · change graph.nodes.entries = _
    rw [hnodes]
    exact hout.tracked
  · exact (hout.length_other .input (by decide)).trans hin.length_self
  · exact hout.length_self.trans (congrArg (· + _) hstart)

/-- **Laying out goes on** with a further component. -/
theorem ComponentAdded.laid_of_laid {f f' : Flattening R M} {component : Component R M}
    {path : String} {c : ModelComponent R M} {n : ComponentNode} {d : Declarations R} (hf : f.Laid)
    (h : ComponentAdded f component path c n d f') : f'.Laid := by
  refine ⟨h.tracked, ?_, fun k c' n' hc hn => ?_, fun id v hv => ?_, fun kind => ?_,
    fun c' hc' kind => ?_, h.graphConnections.trans hf.unconnected⟩
  · simp [h.nodes, h.components, hf.length_eq]
  · rw [h.components] at hc
    rw [h.nodes] at hn
    by_cases hk : k < f.components.length
    · rw [List.getElem?_append_left hk] at hc
      rw [List.getElem?_append_left (by rwa [hf.length_eq])] at hn
      obtain ⟨d', hlaid⟩ := hf.component k c' n' hc hn
      rw [h.values, List.append_assoc]
      exact ⟨d', hlaid.mono⟩
    · obtain rfl : k = f.components.length := by
        have := (List.getElem?_eq_some_iff.1 hc).1
        rw [List.length_append, List.length_singleton] at this
        omega
      rw [List.getElem?_concat_length, Option.some.injEq] at hc
      rw [← hf.length_eq, List.getElem?_concat_length, Option.some.injEq] at hn
      subst hc hn
      exact ⟨d, h.laid⟩
  · rw [h.components]
    rw [h.values, List.append_assoc] at hv
    by_cases hid : id < f.variableTable.values.length
    · rw [List.getElem?_append_left hid] at hv
      obtain ⟨c', hc, hmem⟩ := hf.owned id v hv
      exact ⟨c', by rwa [List.getElem?_append_left (List.getElem?_eq_some_iff.1 hc).1], hmem⟩
    · have hnew : v.owner = f.components.length ∧ id ∈ idsOf c v.kind := by
        rw [List.getElem?_append_right (by omega), List.getElem?_append, length_laidOut] at hv
        split at hv <;> obtain ⟨hkind, howner⟩ := of_mem_laidOut (List.mem_of_getElem? hv) <;>
          refine ⟨howner, ?_⟩ <;> rw [hkind]
        · rw [idsOf, h.inputIds, List.mem_range'_1]
          omega
        · have hlt := (List.getElem?_eq_some_iff.1 hv).1
          rw [length_laidOut] at hlt
          rw [idsOf, h.outputIds, List.mem_range'_1]
          omega
      exact ⟨c, by rw [hnew.1, List.getElem?_concat_length], hnew.2⟩
  · have hold := hf.consecutive kind
    rw [h.values, List.filter_append, List.filter_append, filter_laidOut, filter_laidOut]
    cases kind with
    | input =>
      have hlength : f'.lengthOf .input = f.inputLength + extent d.inputs.entries := h.inputLength
      rw [hlength]
      simpa [lengthOf] using hold.append consecutive_laidOut
    | output =>
      have hlength : f'.lengthOf .output = f.outputLength + extent d.outputs.entries :=
        h.outputLength
      rw [hlength]
      simpa [lengthOf] using hold.append consecutive_laidOut
  · have hin : f'.inputLength = f.inputLength + extent d.inputs.entries := h.inputLength
    have hout : f'.outputLength = f.outputLength + extent d.outputs.entries := h.outputLength
    rw [h.components] at hc'
    rcases List.mem_append.1 hc' with hc' | hc'
    · have hle := hf.inside c' hc' kind
      cases kind <;> simp only [lengthOf, hin, hout] at hle ⊢ <;> omega
    · obtain rfl := List.mem_singleton.1 hc'
      have hstart := h.start_eq kind
      have hsizein := h.laid.inputs.size_eq
      have hsizeout := h.laid.outputs.size_eq
      cases kind <;> simp only [Span.stop, lengthOf, spanOf, hin, hout] at hstart ⊢ <;> omega

/-- Nothing laid out. -/
theorem laid_empty (groups : Nat) : ({ empty with groups := groups } : Flattening R M).Laid where
  tracked := rfl
  length_eq := rfl
  component _ _ _ h := nomatch h
  owned _ _ h := nomatch h
  consecutive kind := by cases kind <;> rfl
  inside _ h := nomatch h
  unconnected := rfl

theorem Laid.addConnections {f : Flattening R M} (hf : f.Laid) (path : String)
    (connections : List (String × String)) : (f.addConnections path connections).Laid :=
  ⟨hf.tracked, hf.length_eq, hf.component, hf.owned, hf.consecutive, hf.inside,
    hf.unconnected⟩

/-- **Members are laid out** behind what is there, in the order in which they run. -/
theorem Laid.addMembers {path : String} {seen : List String} {members : Members R M}
    {f f' : Flattening R M} {schedule : Schedule R} (hf : f.Laid)
    (h : addMembers path seen members f = .ok (schedule, f')) :
    f'.Laid ∧ f'.components.map (·.component) =
      f.components.map (·.component) ++ members.components := by
  induction members generalizing path seen f f' schedule with
  | empty =>
    cases h
    exact ⟨hf, (List.append_nil _).symm⟩
  | component name component rest ih =>
    obtain ⟨_, -, h⟩ := Except.bind_eq_ok.1 h
    obtain ⟨f₁, hcomponent, h⟩ := Except.bind_eq_ok.1 h
    obtain ⟨⟨schedule', f₂⟩, hrest, h⟩ := Except.bind_eq_ok.1 h
    cases h
    obtain ⟨c, n, d, hadded⟩ := addComponent_eq_ok hf.tracked hf.length_eq hcomponent
    obtain ⟨hlaid, hcomponents⟩ := ih (hadded.laid_of_laid hf) hrest
    refine ⟨hlaid, ?_⟩
    rw [hcomponents, hadded.components, List.map_append, List.append_assoc]
    simp only [List.map_cons, hadded.component_eq, List.map_nil, List.singleton_append,
      Members.components]
  | group name settings members rest ihmembers ihrest =>
    obtain ⟨_, -, h⟩ := Except.bind_eq_ok.1 h
    obtain ⟨⟨body, f₁⟩, hbody, h⟩ := Except.bind_eq_ok.1 h
    obtain ⟨⟨schedule', f₂⟩, hrest, h⟩ := Except.bind_eq_ok.1 h
    cases h
    have hstart : ({ f with groups := f.groups + 1 } : Flattening R M).Laid :=
      ⟨hf.tracked, hf.length_eq, hf.component, hf.owned, hf.consecutive, hf.inside,
        hf.unconnected⟩
    obtain ⟨hinner, hinnercomponents⟩ := ihmembers hstart hbody
    obtain ⟨hlaid, hcomponents⟩ := ihrest (hinner.addConnections _ _) hrest
    refine ⟨hlaid, hcomponents.trans ?_⟩
    have hsame (path : String) (connections : List (String × String)) :
        (f₁.addConnections path connections).components = f₁.components := rfl
    rw [hsame, hinnercomponents, List.append_assoc]
    rfl

end Components

section Connections

/-- What joining inputs to their sources maintains: the sources are the connections of the graph,
each from an output to an input of the same size, and the rest of the graph stays. -/
structure Joined (known : Table String (ModelVariable R)) (graph : DependencyGraph)
    (joined : List (Option Nat) × DependencyGraph) : Prop where
  nodes : joined.2.nodes = graph.nodes
  components : joined.2.components = graph.components
  length_eq : joined.1.length = known.size
  source_iff : ∀ s t, joined.1[t]? = some (some s) ↔ (s, t) ∈ joined.2.connections
  matching : ∀ s t, (s, t) ∈ joined.2.connections → ∃ v w, known.values[s]? = some v ∧
    v.kind = .output ∧ known.values[t]? = some w ∧ w.kind = .input ∧ v.size = w.size

theorem Joined.connect {known : Table String (ModelVariable R)} {graph : DependencyGraph}
    {joined joined' : List (Option Nat) × DependencyGraph} (h : Joined known graph joined)
    {names : String × String} (hc : connect known joined names = .ok joined') :
    Joined known graph joined' := by
  obtain ⟨sources, g⟩ := joined
  obtain ⟨source, target⟩ := names
  unfold Flattening.connect at hc
  dsimp only at hc
  split at hc
  · rename_i s output t input hs houtput ht hinput
    split at hc
    · obtain ⟨_, hthrow, -⟩ := Except.bind_eq_ok.1 hc
      cases hthrow
    rename_i hout
    split at hc
    · obtain ⟨_, hthrow, -⟩ := Except.bind_eq_ok.1 hc
      cases hthrow
    rename_i hin
    split at hc
    · obtain ⟨_, hthrow, -⟩ := Except.bind_eq_ok.1 hc
      cases hthrow
    rename_i hsize
    split at hc
    · cases hc
    rename_i hfree
    cases hc
    have hs := Table.getElem?_values_of_indexOf? hs houtput
    have ht := Table.getElem?_values_of_indexOf? ht hinput
    have htlt : t < sources.length := by
      rw [h.length_eq, Table.size_eq_length_values]
      exact (List.getElem?_eq_some_iff.1 ht).1
    -- the target has no source yet, since a source would be a variable with a name
    have hnone : ∀ k, (k, t) ∉ g.connections := by
      intro k hk
      have hget : sources[t]? = some (some k) := (h.source_iff k t).2 hk
      obtain ⟨v, -, hv, -⟩ := h.matching k t hk
      have hlt : k < known.keys.length := by
        have := (List.getElem?_eq_some_iff.1 hv).1
        simpa [Table.values, Table.keys] using this
      rw [hget] at hfree
      simp [hlt] at hfree
    refine ⟨h.nodes, h.components, by simpa using h.length_eq, fun k u => ?_, fun k u hk => ?_⟩
    · simp only [DependencyGraph.addConnection, List.mem_append, List.mem_singleton,
        Prod.mk.injEq, List.getElem?_set]
      by_cases hu : t = u
      · subst hu
        simp only [if_true, htlt, Option.some.injEq, hnone, false_or, and_true]
        exact eq_comm
      · simp only [hu, if_false, Ne.symm hu, and_false, or_false]
        exact h.source_iff k u
    · simp only [DependencyGraph.addConnection, List.mem_append, List.mem_singleton,
        Prod.mk.injEq] at hk
      rcases hk with hk | ⟨rfl, rfl⟩
      · exact h.matching k u hk
      · exact ⟨output, input, hs, by simpa using hout, ht, by simpa using hin, by simpa using hsize⟩
  · cases hc
  · cases hc

theorem Joined.connectAll {known : Table String (ModelVariable R)} {graph : DependencyGraph}
    {joined joined' : List (Option Nat) × DependencyGraph} (h : Joined known graph joined)
    {names : List (String × String)}
    (hc : names.foldlM (Flattening.connect known) joined = .ok joined') : Joined known graph joined' := by
  induction names generalizing joined with
  | nil =>
    cases hc
    exact h
  | cons n rest ih =>
    obtain ⟨next, hn, hrest⟩ := Except.bind_eq_ok.1 hc
    exact ih (h.connect hn) hrest

end Connections

end Flattening

namespace Model

/-- The number of entries of all variables of a kind. -/
def lengthOf (m : Model R M) : VariableKind → Nat
  | .input => m.inputLength
  | .output => m.outputLength

/-- How a model is laid out. -/
structure Laid (m : Model R M) : Prop where
  root_eq : m.root.components = ⟨0, m.components.length⟩
  complete : m.graph.Complete
  nodes_eq : m.graph.nodes.entries =
    m.variableTable.entries.map fun e => (e.1, ⟨e.2.kind, e.2.owner⟩)
  keys_eq : m.graph.nodes.keys = m.variableTable.keys
  length_eq : m.graph.components.length = m.components.length
  component : ∀ (k : Nat) c n, m.components[k]? = some c → m.graph.components[k]? = some n →
    ∃ d, Flattening.ComponentLaid m.variableTable.values k c n d
  owned : ∀ (id : Nat) v, m.variableAt? id = some v →
    ∃ c, m.components[v.owner]? = some c ∧ id ∈ Flattening.idsOf c v.kind
  consecutive : ∀ kind, Consecutive 0 (m.lengthOf kind)
    ((m.variableTable.values.filter fun v => v.kind = kind).map (·.span))
  inside : ∀ c ∈ m.components, ∀ kind, (Flattening.spanOf c kind).stop ≤ m.lengthOf kind
  source_iff : ∀ s t, m.source? t = some s ↔ (s, t) ∈ m.graph.connections
  matching : ∀ s t, m.source? t = some s → ∃ v w, m.variableAt? s = some v ∧ v.kind = .output ∧
    m.variableAt? t = some w ∧ w.kind = .input ∧ v.size = w.size

/-- **A model that can be set up is laid out.** -/
theorem laid_of_ofGroup [Scalar R] {g : Group R M} {settings : SetupSettings} {m : Model R M}
    (h : ofGroup g settings = .ok m) : m.Laid := by
  simp only [ofGroup, Except.bind_eq_ok, Outcome.mapError_eq_ok, Outcome.ofExcept_eq_ok,
    Outcome.ofOption_eq_ok] at h
  obtain ⟨⟨schedule, f⟩, hmembers, ⟨sources, graph⟩, hjoined, graph', hfinish, _, -, hm⟩ := h
  cases hm
  obtain ⟨hf, -⟩ := (Flattening.laid_empty (R := R) (M := M) 1).addMembers hmembers
  have hstart : Flattening.Joined f.variableTable f.graph
      (List.replicate f.variableTable.size none, f.graph) := by
    refine ⟨rfl, rfl, by simp, fun s t => ?_, fun s t hst => ?_⟩
    · rw [hf.unconnected, List.getElem?_replicate]
      split <;> simp
    · rw [hf.unconnected] at hst
      cases hst
  have hend := hstart.connectAll hjoined
  obtain ⟨hcomplete, hnodes, hcomponents, hconnections⟩ :=
    DependencyGraph.complete_of_finish? hfinish
  have hsource (s t : Nat) : (sources[t]?.join = some s) ↔ (s, t) ∈ graph.connections := by
    rw [← hend.source_iff s t]
    cases sources[t]? <;> simp
  refine ⟨rfl, hcomplete, ?_, ?_, ?_, fun k c n hc hn => ?_, hf.owned, fun kind => ?_,
    fun c hc kind => ?_, fun s t => ?_, fun s t hst => ?_⟩
  · dsimp only
    rw [hnodes, hend.nodes]
    exact hf.tracked
  · dsimp only
    rw [hnodes, hend.nodes]
    exact hf.tracked.keys_eq
  · dsimp only
    rw [hcomponents, hend.components]
    exact hf.length_eq
  · dsimp only at hn
    rw [hcomponents, hend.components] at hn
    exact hf.component k c n hc hn
  · have := hf.consecutive kind
    cases kind <;> exact this
  · have := hf.inside c hc kind
    cases kind <;> exact this
  · dsimp only
    rw [hconnections]
    exact hsource s t
  · exact hend.matching s t ((hsource s t).1 hst)

/-- The components of a model are those of its system. -/
theorem components_of_ofGroup [Scalar R] {g : Group R M} {settings : SetupSettings} {m : Model R M}
    (h : ofGroup g settings = .ok m) :
    m.components.map (·.component) = g.members.components := by
  simp only [ofGroup, Except.bind_eq_ok, Outcome.mapError_eq_ok, Outcome.ofExcept_eq_ok,
    Outcome.ofOption_eq_ok] at h
  obtain ⟨⟨schedule, f⟩, hmembers, _, -, _, -, _, -, hm⟩ := h
  cases hm
  exact ((Flattening.laid_empty (R := R) (M := M) 1).addMembers hmembers).2

section Variables

variable {m : Model R M} (hm : m.Laid)

include hm

/-- Two variables of a kind stand apart. -/
theorem Laid.apart {id id' : Nat} {v v' : ModelVariable R} (hv : m.variableAt? id = some v)
    (hv' : m.variableAt? id' = some v') (hne : id ≠ id') (hkind : v.kind = v'.kind) :
    v.span.Apart v'.span := by
  have hpairwise := (hm.consecutive v.kind).pairwise
  rw [List.pairwise_map, List.pairwise_filter, List.pairwise_iff_getElem] at hpairwise
  obtain ⟨hlt, rfl⟩ := List.getElem?_eq_some_iff.1 hv
  obtain ⟨hlt', rfl⟩ := List.getElem?_eq_some_iff.1 hv'
  rcases Nat.lt_or_gt_of_ne hne with h | h
  · exact Span.apart_of_le (hpairwise id id' hlt hlt' h (by simp) (by simp [hkind]))
  · exact (Span.apart_of_le (hpairwise id' id hlt' hlt h (by simp [hkind]) (by simp))).symm

/-- Every variable lies inside the vector of its kind. -/
theorem Laid.stop_le {id : Nat} {v : ModelVariable R} (hv : m.variableAt? id = some v) :
    v.span.stop ≤ m.lengthOf v.kind := by
  refine ((hm.consecutive v.kind).bounds.2 v.span (List.mem_map_of_mem ?_)).2
  exact List.mem_filter.2 ⟨List.mem_of_getElem? hv, by simp⟩

end Variables

end Model

end Sensitivity
