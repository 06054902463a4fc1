import Sensitivity.Proofs.Model.Pruning

/-!
# How a tree is numbered

A model numbers components, variables, groups and vector entries in one walk through a tree. The
schedule that is left of the tree runs its components in the order of their numbers
(`Schedule.Follows`), so the members of a group are one run of components, whose outputs fill one
span of the output vector (`Model.Consistent.groups`). The walk keeps the spans of the components
one behind the other (`Flattening.Stacked`), and the variables of each of them fill its spans in the
order of its declarations (`Model.Filled`).

All of this holds of every model that can be set up (`Model.consistent_of_ofGroup`). Setting the
value of a variable changes the entries in its span and nothing else, so no other variable sees it
(`Model.Laid.assigned`).
-/

namespace Sensitivity

variable {R M : Type}

namespace Schedule

/-- The numbers of the components in a schedule, in the order in which they run. -/
def components : Schedule R → List Nat
  | done => []
  | component c rest => c :: rest.components
  | group _ body rest => body.components ++ rest.components

/-- A schedule that runs the members of the group at a path: in the order of the tree they are
numbered from one number up to another, the components of each inner group in one run. -/
inductive Follows (cs : List (ModelComponent R M)) :
    String → Members R M → Schedule R → Nat → Nat → Prop
  | empty (path : String) (k : Nat) : Follows cs path .empty .done k k
  | component {path name : String} {c : Component R M} {rest : Members R M}
      {schedule : Schedule R} {k stop : Nat} {own : ModelComponent R M} (hget : cs[k]? = some own)
      (hpath : own.path = joinPath path name) (hown : own.component = c)
      (hrest : Follows cs path rest schedule (k + 1) stop) :
      Follows cs path (.component name c rest) (.component k schedule) k stop
  | group {path name : String} {settings : GroupSettings R} {members rest : Members R M}
      {g : ModelGroup R} {body schedule : Schedule R} {stop : Nat}
      (hpath : g.path = joinPath path name) (hsolver : g.solver = settings.solver)
      (happroximation : g.approximation = settings.approximation)
      (hbody : Follows cs g.path members body g.components.start g.components.stop)
      (hrest : Follows cs path rest schedule g.components.stop stop) :
      Follows cs path (.group name settings members rest) (.group g body schedule)
        g.components.start stop

namespace Follows

variable {cs : List (ModelComponent R M)} {path : String} {members : Members R M}
  {schedule : Schedule R} {first stop : Nat}

/-- Further components do not matter. -/
theorem mono (h : Follows cs path members schedule first stop) (more : List (ModelComponent R M)) :
    Follows (cs ++ more) path members schedule first stop := by
  induction h with
  | empty path k => exact .empty path k
  | component hget hpath hown _ ih =>
    refine .component ?_ hpath hown ih
    rwa [List.getElem?_append_left (List.getElem?_eq_some_iff.1 hget).1]
  | group hpath hsolver happroximation _ _ ihbody ihrest =>
    exact .group hpath hsolver happroximation ihbody ihrest

theorem le (h : Follows cs path members schedule first stop) : first ≤ stop := by
  induction h with
  | empty => exact Nat.le_refl _
  | component _ _ _ _ ih => omega
  | group _ _ _ _ _ ihbody ihrest => exact Nat.le_trans ihbody ihrest

/-- **The components run in the order of their numbers**, none of them left out. -/
theorem components_eq (h : Follows cs path members schedule first stop) :
    schedule.components = List.range' first (stop - first) := by
  induction h with
  | empty => simp [components]
  | @component _ _ _ _ _ k stop _ _ _ _ hrest ih =>
    have hle := hrest.le
    rw [components, ih, ← List.range'_succ]
    congr 1
    omega
  | @group _ _ _ _ _ g _ _ stop _ _ _ hbody hrest ihbody ihrest =>
    have hfirst := hbody.le
    have hsecond := hrest.le
    rw [components, ihbody, ihrest]
    have hmiddle : g.components.stop =
        g.components.start + (g.components.stop - g.components.start) := by omega
    rw [hmiddle, Nat.add_sub_cancel_left, List.range'_append_1]
    congr 1
    omega

/-- What holds of each group in a schedule: its body follows some members between the ends of its
span, which lies inside that of the schedule. -/
theorem of_mem_groups (h : Follows cs path members schedule first stop)
    {e : ModelGroup R × Schedule R} (he : e ∈ schedule.groups) :
    e.1.components.Within ⟨first, stop - first⟩ ∧
      ∃ inner, Follows cs e.1.path inner e.2 e.1.components.start e.1.components.stop := by
  induction h with
  | empty => cases he
  | @component _ _ _ _ _ k stop _ _ _ _ hrest ih =>
    obtain ⟨hwithin, hinner⟩ := ih he
    have hle := hrest.le
    refine ⟨?_, hinner⟩
    simp only [Span.Within, Span.stop] at hwithin ⊢
    omega
  | @group _ _ _ _ _ g _ _ stop _ _ _ hbody hrest ihbody ihrest =>
    have hfirst := hbody.le
    have hsecond := hrest.le
    rcases List.mem_cons.1 he with rfl | he
    · refine ⟨?_, _, hbody⟩
      simp only [Span.Within, Span.stop] at hfirst hsecond ⊢
      omega
    rcases List.mem_append.1 he with he | he
    · obtain ⟨hwithin, hinner⟩ := ihbody he
      refine ⟨?_, hinner⟩
      simp only [Span.Within, Span.stop] at hfirst hsecond hwithin ⊢
      omega
    · obtain ⟨hwithin, hinner⟩ := ihrest he
      refine ⟨?_, hinner⟩
      simp only [Span.Within, Span.stop] at hfirst hsecond hwithin ⊢
      omega

/-- **Ranges nest**: a group that comes after another one lies inside it or behind it. -/
theorem pairwise_groups (h : Follows cs path members schedule first stop) :
    schedule.groups.Pairwise fun e e' =>
      e'.1.components.Within e.1.components ∨ e.1.components.stop ≤ e'.1.components.start := by
  induction h with
  | empty => exact .nil
  | component _ _ _ _ ih => exact ih
  | @group _ _ _ _ _ g body schedule _ _ _ _ hbody hrest ihbody ihrest =>
    have hfirst := hbody.le
    have hinside : ∀ e ∈ body.groups, e.1.components.Within g.components := by
      intro e he
      have hwithin := (hbody.of_mem_groups he).1
      simp only [Span.Within, Span.stop] at hfirst hwithin ⊢
      omega
    have hbehind : ∀ e ∈ schedule.groups, g.components.stop ≤ e.1.components.start := fun e he =>
      (hrest.of_mem_groups he).1.1
    refine List.pairwise_cons.2 ⟨fun e he => ?_, List.pairwise_append.2
      ⟨ihbody, ihrest, fun e he e' he' => .inr ?_⟩⟩
    · rcases List.mem_append.1 he with he | he
      · exact .inl (hinside e he)
      · exact .inr (hbehind e he)
    · exact Nat.le_trans (hinside e he).2 (hbehind e' he')

end Follows

end Schedule

namespace Flattening

/-- What walking the tree maintains beside `Laid`: variables are listed under their names, those of
the components have the numbers in their order, and the components stand one behind the other. -/
structure Stacked (f : Flattening R M) : Prop where
  named : ∀ e ∈ f.variableTable.entries, e.1 = e.2.name
  numbered : f.components.flatMap (fun c => c.inputIds ++ c.outputIds) =
    List.range f.variableTable.size
  stacked : ∀ kind, Consecutive 0 (f.lengthOf kind) (f.components.map (spanOf · kind))

theorem stacked_empty (groups : Nat) :
    ({ empty with groups := groups } : Flattening R M).Stacked where
  named _ h := nomatch h
  numbered := rfl
  stacked kind := by cases kind <;> rfl

theorem ComponentAdded.stacked_of_stacked {f f' : Flattening R M} {component : Component R M}
    {path : String} {c : ModelComponent R M} {n : ComponentNode} {d : Declarations R}
    (hf : f.Stacked) (h : ComponentAdded f component path c n d f') : f'.Stacked := by
  refine ⟨fun e he => ?_, ?_, fun kind => ?_⟩
  · rw [h.table] at he
    rcases List.mem_append.1 he with he | he
    · exact hf.named e he
    · obtain ⟨v, -, rfl⟩ := List.mem_map.1 he
      rfl
  · have hsize : f'.variableTable.size = f.variableTable.size +
        (d.inputs.entries.length + d.outputs.entries.length) := by
      rw [Table.size_eq_length_values, Table.size_eq_length_values, h.values]
      simp only [List.length_append, length_laidOut, Nat.add_assoc]
    rw [h.components, List.flatMap_append, hf.numbered, List.flatMap_singleton, h.inputIds,
      h.outputIds, ← Table.size_eq_length_values, List.range'_append_1, hsize,
      List.range_eq_range', List.range_eq_range']
    have := List.range'_append_1 (s := 0) (m := f.variableTable.size)
      (n := d.inputs.entries.length + d.outputs.entries.length)
    rwa [Nat.zero_add] at this
  · rw [h.components, List.map_append]
    refine (hf.stacked kind).append ⟨h.start_eq kind, ?_⟩
    have hstart := h.start_eq kind
    cases kind with
    | input =>
      change c.inputs.stop = f'.inputLength
      rw [Span.stop, h.laid.inputs.size_eq, h.inputLength]
      exact congrArg (· + _) hstart
    | output =>
      change c.outputs.stop = f'.outputLength
      rw [Span.stop, h.laid.outputs.size_eq, h.outputLength]
      exact congrArg (· + _) hstart

theorem Stacked.addConnections {f : Flattening R M} (hf : f.Stacked) (path : String)
    (connections : List (String × String)) : (f.addConnections path connections).Stacked :=
  ⟨hf.named, hf.numbered, hf.stacked⟩

/-- What walking through the members of the group at a path does. -/
structure Walked (f : Flattening R M) (path : String) (members : Members R M)
    (schedule : Schedule R) (f' : Flattening R M) : Prop where
  laid : f'.Laid
  stacked : f'.Stacked
  components : ∃ more, f'.components = f.components ++ more
  follows : Schedule.Follows f'.components path members schedule f.components.length
    f'.components.length
  groups : f'.groups = f.groups + schedule.groups.length
  numbers : schedule.groups.map (·.1.number) = List.range' f.groups schedule.groups.length

/-- **Walking through members** numbers them as their schedule runs them. -/
theorem Laid.walked {path : String} {seen : List String} {members : Members R M}
    {f f' : Flattening R M} {schedule : Schedule R} (hf : f.Laid) (hs : f.Stacked)
    (h : Flattening.addMembers path seen members f = .ok (schedule, f')) :
    Walked f path members schedule f' := by
  induction members generalizing path seen f f' schedule with
  | empty =>
    cases h
    exact ⟨hf, hs, ⟨[], (List.append_nil _).symm⟩, .empty path _, rfl, rfl⟩
  | component name component rest ih =>
    obtain ⟨_, -, h⟩ := Except.bind_eq_ok.1 h
    obtain ⟨f₁, hcomponent, h⟩ := Except.bind_eq_ok.1 h
    obtain ⟨⟨schedule', f₂⟩, hrest, h⟩ := Except.bind_eq_ok.1 h
    cases h
    obtain ⟨c, n, d, hadded⟩ := addComponent_eq_ok hf.tracked hf.length_eq hcomponent
    have hgroups : f₁.groups = f.groups := hadded.groups
    have hwalked := ih (hadded.laid_of_laid hf) (hadded.stacked_of_stacked hs) hrest
    obtain ⟨more, hmore⟩ := hwalked.components
    have hfollows := hwalked.follows
    rw [hadded.components, List.length_append] at hfollows
    refine ⟨hwalked.laid, hwalked.stacked, ⟨c :: more, ?_⟩,
      .component ?_ hadded.path_eq hadded.component_eq hfollows, ?_, ?_⟩
    · rw [hmore, hadded.components, List.append_assoc]
      rfl
    · rw [hmore, hadded.components, List.append_assoc, List.getElem?_append_right (Nat.le_refl _),
        Nat.sub_self]
      rfl
    · rw [hwalked.groups, hgroups]
      rfl
    · rw [← hgroups]
      exact hwalked.numbers
  | group name settings members rest ihmembers ihrest =>
    obtain ⟨_, -, h⟩ := Except.bind_eq_ok.1 h
    obtain ⟨⟨body, f₁⟩, hbody, h⟩ := Except.bind_eq_ok.1 h
    obtain ⟨⟨schedule', f₂⟩, hrest, h⟩ := Except.bind_eq_ok.1 h
    cases h
    have hstart : ({ f with groups := f.groups + 1 } : Flattening R M).Laid :=
      ⟨hf.tracked, hf.length_eq, hf.component, hf.owned, hf.consecutive, hf.inside,
        hf.unconnected⟩
    have hinner := ihmembers hstart ⟨hs.named, hs.numbered, hs.stacked⟩ hbody
    have houter := ihrest (hinner.laid.addConnections _ _) (hinner.stacked.addConnections _ _)
      hrest
    obtain ⟨more, hmore⟩ := hinner.components
    obtain ⟨further, hfurther⟩ := houter.components
    change _ = f₁.components ++ further at hfurther
    have hstop : f.components.length + (f₁.components.length - f.components.length) =
        f₁.components.length := by
      rw [hmore, List.length_append]
      exact Nat.add_sub_of_le (Nat.le_add_right _ _)
    have hbodyfollows := hinner.follows.mono further
    rw [← hfurther, ← hstop] at hbodyfollows
    have hrestfollows := houter.follows
    refine ⟨houter.laid, houter.stacked, ⟨more ++ further, ?_⟩, ?_, ?_, ?_⟩
    · rw [hfurther, ← List.append_assoc]
      exact congrArg (· ++ further) hmore
    · refine .group (g := ⟨f.groups, joinPath path name, ⟨f.components.length,
        f₁.components.length - f.components.length⟩, settings.solver, settings.approximation⟩)
        rfl rfl rfl hbodyfollows ?_
      rw [Span.stop, hstop]
      exact hrestfollows
    · rw [houter.groups]
      change f₁.groups + _ = _
      rw [hinner.groups]
      simp only [Schedule.groups, List.cons_append, List.length_cons, List.length_append]
      omega
    · have hnumbers := houter.numbers
      change List.map _ _ = List.range' f₁.groups _ at hnumbers
      rw [hinner.groups] at hnumbers
      simp only [Schedule.groups, List.cons_append, List.map_cons, List.map_append,
        List.length_cons, List.length_append, hinner.numbers, hnumbers, List.range'_append_1]
      exact List.range'_succ.symm

end Flattening

namespace Layout

/-- The spans of the variables of a kind. -/
def spansOf (l : Layout) : VariableKind → Table String Span
  | .input => l.inputs
  | .output => l.outputs

end Layout

namespace Declarations

/-- The declared variables of a kind. -/
def variablesOf (d : Declarations R) : VariableKind → Table String (VariableSpec R)
  | .input => d.inputs
  | .output => d.outputs

/-- Every variable comes with as many values as it has entries. -/
def Valued (d : Declarations R) : Prop :=
  ∀ kind, ∀ e ∈ (d.variablesOf kind).entries, e.2.value.length = e.2.size

theorem spansOf_ofDeclarations (d : Declarations R) (kind : VariableKind) :
    (Layout.ofDeclarations d).spansOf kind = Layout.spans (d.variablesOf kind) := by
  cases kind <;> rfl

/-- **Declaring variables keeps them valued**: a variable without the values that its shape stands for
is refused. -/
theorem Valued.addVariable [Scalar R] {d d' : Declarations R} (hd : d.Valued) {kind : VariableKind}
    {name : String} {spec : VariableSpec R} (h : d.addVariable kind name spec = .ok d') :
    d'.Valued := by
  unfold Declarations.addVariable at h
  dsimp only at h
  split at h
  · obtain ⟨_, hthrow, -⟩ := Except.bind_eq_ok.1 h
    cases hthrow
  split at h
  · obtain ⟨_, hthrow, -⟩ := Except.bind_eq_ok.1 h
    cases hthrow
  rename_i hnew
  obtain ⟨_, hvalid, h⟩ := Except.bind_eq_ok.1 h
  have hvalue : spec.value.length = spec.size := by
    unfold validateSpec at hvalid
    split at hvalid
    · cases hvalid
    · rename_i hsize
      exact (not_not.1 hsize).symm
  simp only [Bool.or_eq_true, Table.contains, List.contains_iff_mem, not_or] at hnew
  have hgrown (t : Table String (VariableSpec R)) (hname : name ∉ t.keys)
      (ht : ∀ e ∈ t.entries, e.2.value.length = e.2.size) :
      ∀ e ∈ (t.insert name spec).entries, e.2.value.length = e.2.size := by
    intro e he
    rw [Table.entries_insert hname] at he
    rcases List.mem_append.1 he with he | he
    · exact ht e he
    · cases List.mem_singleton.1 he
      exact hvalue
  cases kind with
  | input =>
    cases h
    intro k
    cases k with
    | input => exact hgrown _ hnew.1 (hd .input)
    | output => exact hd .output
  | output =>
    cases h
    intro k
    cases k with
    | input => exact hd .input
    | output => exact hgrown _ hnew.2 (hd .output)

end Declarations

namespace Flattening

/-- Variables laid out are those that were declared. -/
theorem forall₂_laidOut (path : String) (kind : VariableKind) (owner start : Nat)
    (specs : List (String × VariableSpec R)) :
    List.Forall₂ (fun (v : ModelVariable R) e => v.name = joinPath path e.1 ∧ v.localName = e.1 ∧
      v.kind = kind ∧ v.owner = owner ∧ v.spec = e.2) (laidOut path kind owner start specs)
      specs := by
  induction specs generalizing start with
  | nil => exact .nil
  | cons e rest ih => exact .cons ⟨rfl, rfl, rfl, rfl, rfl⟩ (ih _)

end Flattening

namespace Model

/-- Where some variables stand. -/
def spansOf (m : Model R M) (ids : List Nat) : List Span :=
  ids.filterMap fun id => (m.variableAt? id).map (·.span)

/-- The variables of one kind of a component are those that it declares, in the order of its
declarations. They fill its span, each at the distance from the start that the layout of the
component says. -/
structure Filled (m : Model R M) (number : Nat) (c : ModelComponent R M) (d : Declarations R)
    (kind : VariableKind) : Prop where
  declared : List.Forall₂ (fun id e => ∃ v, m.variableAt? id = some v ∧
    v.name = joinPath c.path e.1 ∧ v.localName = e.1 ∧ v.kind = kind ∧ v.owner = number ∧
      v.spec = e.2) (Flattening.idsOf c kind) (d.variablesOf kind).entries
  consecutive : Consecutive (Flattening.spanOf c kind).start (Flattening.spanOf c kind).stop
    (m.spansOf (Flattening.idsOf c kind))
  keys_eq : (c.layout.spansOf kind).keys = (d.variablesOf kind).keys
  spans_eq : m.spansOf (Flattening.idsOf c kind) = (c.layout.spansOf kind).values.map fun own =>
    ⟨(Flattening.spanOf c kind).start + own.start, own.size⟩

/-- The members of a group are one run of components, those of the groups inside it among them, and
their outputs fill one span of the output vector. -/
structure GroupLaid (m : Model R M) (g : ModelGroup R) (body : Schedule R) : Prop where
  members_eq : body.components = g.members
  follows : ∃ members, Schedule.Follows m.components g.path members body g.components.start
    g.components.stop
  nested : ∀ e ∈ body.groups, e.1.components.Within g.components
  outputs : ∃ outer : Span, outer.stop ≤ m.outputLength ∧
    Consecutive outer.start outer.stop (m.spansOf (m.groupOutputs g)) ∧
      (g.components.size ≠ 0 → m.outputsOf g = some outer)

/-- How the numbers of components, variables, nodes, groups and entries of a model fit together, and
fit the tree that it was laid out from. -/
structure Consistent (m : Model R M) (g : Group R M) : Prop where
  /-- The variables of a kind fill the vector of their kind in the order of their numbers. -/
  consecutive : ∀ kind, Consecutive 0 (m.lengthOf kind)
    ((m.variableTable.values.filter fun v => v.kind = kind).map (·.span))
  /-- Two variables of a kind have no entry in common. -/
  apart : ∀ id id' v v', m.variableAt? id = some v → m.variableAt? id' = some v' → id ≠ id' →
    v.kind = v'.kind → v.span.Apart v'.span
  /-- Variables are listed under their full names. -/
  named : ∀ e ∈ m.variableTable.entries, e.1 = e.2.name
  /-- Variables have the numbers in the order of their components, inputs before outputs. -/
  numbered : m.components.flatMap (fun c => c.inputIds ++ c.outputIds) =
    List.range m.variableTable.size
  /-- The components are those of the tree. They stand one behind the other. -/
  follows : Schedule.Follows m.components "" g.members m.schedule 0 m.components.length
  stacked : ∀ kind,
    Consecutive 0 (m.lengthOf kind) (m.components.map (Flattening.spanOf · kind))
  filled : ∀ (k : Nat) c, m.components[k]? = some c → ∃ d, c.component.declarations = .ok d ∧
    c.layout = .ofDeclarations d ∧ ∀ kind, m.Filled k c d kind
  /-- The root is the group of all components, and every group has the number of its place. -/
  root : m.root.components = ⟨0, m.components.length⟩
  groupNumbers : m.groups.map (·.1.number) = List.range m.groups.length
  groups : ∀ e ∈ m.groups, m.GroupLaid e.1 e.2
  /-- A group that comes after another one lies inside it or behind it. -/
  nested : m.groups.Pairwise fun e e' =>
    e'.1.components.Within e.1.components ∨ e.1.components.stop ≤ e'.1.components.start
  /-- The nodes of the graph are the variables, and its components those of the model. -/
  nodes : m.graph.nodes.entries =
    m.variableTable.entries.map fun e => (e.1, ⟨e.2.kind, e.2.owner⟩)
  graphComponents : m.graph.components.map (fun n => (n.inputs, n.outputs)) =
    m.components.map fun c => (c.inputIds, c.outputIds)
  /-- Every variable is one of those of its component. -/
  owned : ∀ (id : Nat) v, m.variableAt? id = some v →
    ∃ c, m.components[v.owner]? = some c ∧ id ∈ Flattening.idsOf c v.kind
  /-- A source is an output, of the same size as the input that reads it. -/
  matching : ∀ s t, m.source? t = some s → ∃ v w, m.variableAt? s = some v ∧ v.kind = .output ∧
    m.variableAt? t = some w ∧ w.kind = .input ∧ v.size = w.size
  /-- The connections of the graph are the pairs of a source and the one input that reads it. -/
  source_iff : ∀ s t, m.source? t = some s ↔ (s, t) ∈ m.graph.connections

section Filled

variable {m : Model R M}

theorem spansOf_append (ids ids' : List Nat) :
    m.spansOf (ids ++ ids') = m.spansOf ids ++ m.spansOf ids' :=
  List.filterMap_append

theorem spansOf_flatMap {α : Type} (xs : List α) (f : α → List Nat) :
    m.spansOf (xs.flatMap f) = xs.flatMap fun x => m.spansOf (f x) := by
  induction xs with
  | nil => rfl
  | cons x rest ih => rw [List.flatMap_cons, List.flatMap_cons, spansOf_append, ih]

theorem spansOf_eq_of_found {ids : List Nat} {vs : List (ModelVariable R)}
    (h : List.Forall₂ (fun id v => m.variableTable.values[id]? = some v) ids vs) :
    m.spansOf ids = vs.map (·.span) := by
  induction h with
  | nil => rfl
  | @cons id v _ _ hv _ ih =>
    have hspan : (m.variableAt? id).map (·.span) = some v.span := congrArg (Option.map _) hv
    rw [spansOf, List.filterMap_cons, hspan, List.map_cons]
    exact congrArg _ ih

/-- Variables that were placed fill the span of their component. -/
theorem filled_of_placed {k : Nat} {c : ModelComponent R M} {d : Declarations R}
    {kind : VariableKind} (hlayout : c.layout = .ofDeclarations d)
    (h : Flattening.Placed m.variableTable.values c.path kind k (Flattening.spanOf c kind)
      (d.variablesOf kind) (Flattening.idsOf c kind)) : m.Filled k c d kind := by
  have hspans := spansOf_eq_of_found h.found
  have hentries : (c.layout.spansOf kind).entries =
      Layout.stack 0 ((d.variablesOf kind).entries.map fun e => (e.1, e.2.size)) := by
    rw [hlayout, Declarations.spansOf_ofDeclarations, Layout.entries_spans]
  refine ⟨?_, ?_, ?_, ?_⟩
  · have hdeclared := Flattening.forall₂_laidOut c.path kind k (Flattening.spanOf c kind).start
      (d.variablesOf kind).entries
    rw [List.forall₂_iff_get] at hdeclared ⊢
    refine ⟨h.found.length_eq.trans hdeclared.1, fun i hi hi' => ?_⟩
    have hlaid := h.found.length_eq ▸ hi
    exact ⟨_, h.found.get hi hlaid, hdeclared.2 i hlaid hi'⟩
  · rw [hspans, Span.stop, h.size_eq]
    exact Flattening.consecutive_laidOut
  · rw [Table.keys, hentries, Layout.map_fst_stack, List.map_map]
    rfl
  · have hmap : (Flattening.laidOut c.path kind k (Flattening.spanOf c kind).start
        (d.variablesOf kind).entries).map (fun v => (v.localName, v.span)) =
          (c.layout.spansOf kind).entries.map fun e =>
            (e.1, ⟨(Flattening.spanOf c kind).start + e.2.start, e.2.size⟩) := by
      rw [hentries]
      exact Flattening.map_laidOut 0
    have hmap := congrArg (List.map Prod.snd) hmap
    rw [List.map_map, List.map_map] at hmap
    rw [hspans, Table.values, List.map_map]
    exact hmap

/-- A component has a node, and both are laid out. -/
theorem Laid.exists_laid (hm : m.Laid) {k : Nat} {c : ModelComponent R M}
    (hc : m.components[k]? = some c) : ∃ n d, m.graph.components[k]? = some n ∧
      Flattening.ComponentLaid m.variableTable.values k c n d := by
  have hlt := (List.getElem?_eq_some_iff.1 hc).1
  have hn := List.getElem?_eq_getElem (hm.length_eq ▸ hlt)
  obtain ⟨d, hlaid⟩ := hm.component k c _ hc hn
  exact ⟨_, d, hn, hlaid⟩

/-- The variables of a component fill its spans. -/
theorem Laid.exists_filled (hm : m.Laid) {k : Nat} {c : ModelComponent R M}
    (hc : m.components[k]? = some c) : ∃ d, c.component.declarations = .ok d ∧
      c.layout = .ofDeclarations d ∧ ∀ kind, m.Filled k c d kind := by
  obtain ⟨n, d, -, hlaid⟩ := hm.exists_laid hc
  refine ⟨d, hlaid.declarations, hlaid.layout, fun kind => filled_of_placed hlaid.layout ?_⟩
  cases kind with
  | input => exact hlaid.inputs
  | output => exact hlaid.outputs

end Filled

section Groups

/-- What the elements at the positions of a span give. -/
theorem flatMap_positions {α β : Type} (xs : List α) (f : α → List β) (start size : Nat)
    (h : start + size ≤ xs.length) :
    (⟨start, size⟩ : Span).positions.flatMap (fun i => (xs[i]?.map f).getD []) =
      ((xs.drop start).take size).flatMap f := by
  induction size generalizing start with
  | zero => simp [Span.positions]
  | succ size ih =>
    have hlt : start < xs.length := by omega
    have hrest := ih (start + 1) (by omega)
    rw [Span.positions] at hrest ⊢
    rw [List.range'_succ, List.flatMap_cons, hrest, List.drop_eq_getElem_cons hlt,
      List.take_succ_cons, List.flatMap_cons, List.getElem?_eq_getElem hlt]
    rfl

variable {m : Model R M} (hm : m.Laid)
  (hstacked : Consecutive 0 m.outputLength (m.components.map (·.outputs)))

include hm hstacked

/-- **The outputs of a run of components fill one span**, the one that a solver of the group would
take for its unknowns. -/
theorem Laid.exists_outputs {g : ModelGroup R} (hinside : g.components.stop ≤ m.components.length) :
    ∃ outer : Span, outer.stop ≤ m.outputLength ∧
      Consecutive outer.start outer.stop (m.spansOf (m.groupOutputs g)) ∧
        (g.components.size ≠ 0 → m.outputsOf g = some outer) := by
  obtain ⟨number, path, ⟨start, size⟩, solver, approximation⟩ := g
  simp only [Span.stop] at hinside
  have houtputs := flatMap_positions m.components (·.outputIds) start size hinside
  have hcut : m.components = m.components.take start ++
      ((m.components.drop start).take size ++ (m.components.drop start).drop size) := by
    rw [List.take_append_drop, List.take_append_drop]
  rw [hcut, List.map_append, List.map_append] at hstacked
  obtain ⟨first, -, hstacked⟩ := hstacked.of_append
  obtain ⟨last, hmiddle, hrest⟩ := hstacked.of_append
  have hle := hmiddle.bounds.1
  have hstop : (⟨first, last - first⟩ : Span).stop = last := Nat.add_sub_cancel' hle
  refine ⟨⟨first, last - first⟩, ?_, ?_, fun hsize => ?_⟩
  · rw [hstop]
    exact hrest.bounds.1
  · rw [hstop, groupOutputs]
    change Consecutive first last (m.spansOf (List.flatMap _ (Span.positions ⟨start, size⟩)))
    rw [houtputs, spansOf_flatMap]
    refine hmiddle.flatMap fun c hc => ?_
    obtain ⟨k, hk⟩ := List.mem_iff_getElem?.1 (List.mem_of_mem_drop (List.mem_of_mem_take hc))
    obtain ⟨d, -, -, hfilled⟩ := hm.exists_filled hk
    exact (hfilled .output).consecutive
  · obtain ⟨size, rfl⟩ := Nat.exists_eq_succ_of_ne_zero hsize
    have hfirst : start < m.components.length := by omega
    have hlast : start + size < m.components.length := by omega
    have hstart : m.components[start].outputs.start = first := by
      have hhead := hmiddle
      rw [List.drop_eq_getElem_cons hfirst, List.take_succ_cons, List.map_cons] at hhead
      exact hhead.1
    have hend : m.components[start + size].outputs.stop = last := by
      have htail := hmiddle
      rw [List.take_add_one, List.getElem?_drop, List.getElem?_eq_getElem hlast, List.map_append]
        at htail
      exact htail.stop_last
    simp only [outputsOf, Span.stop, Nat.add_succ_sub_one,
      List.getElem?_eq_getElem hfirst, List.getElem?_eq_getElem hlast, Option.bind_eq_bind,
      Option.bind_some, Span.between?]
    rw [Span.stop] at hend
    simp only [hstart, hend, hle, if_true]

/-- A group whose schedule follows some members is laid out. -/
theorem Laid.groupLaid {g : ModelGroup R} {body : Schedule R} {members : Members R M}
    (h : Schedule.Follows m.components g.path members body g.components.start g.components.stop)
    (hinside : g.components.stop ≤ m.components.length) : m.GroupLaid g body where
  members_eq := by
    rw [h.components_eq, Span.stop, Nat.add_sub_cancel_left]
    rfl
  follows := ⟨members, h⟩
  nested e he := by
    have hwithin := (h.of_mem_groups he).1
    rwa [Span.stop, Nat.add_sub_cancel_left] at hwithin
  outputs := hm.exists_outputs hstacked hinside

end Groups

section Setup

variable [Scalar R] {m : Model R M} {g : Group R M} {settings : SetupSettings}

/-- A model has the components, the variables and the schedule that the walk through its tree left,
with all components in its root. -/
theorem walked_of_ofGroup (h : ofGroup g settings = .ok m) :
    m.root = ⟨0, "", ⟨0, m.components.length⟩, g.settings.solver, g.settings.approximation⟩ ∧
      ∃ f : Flattening R M, f.components = m.components ∧ f.variableTable = m.variableTable ∧
        (∀ kind, f.lengthOf kind = m.lengthOf kind) ∧
          Flattening.Walked { Flattening.empty with groups := 1 } "" g.members m.schedule f := by
  simp only [ofGroup, Except.bind_eq_ok, Outcome.mapError_eq_ok, Outcome.ofExcept_eq_ok,
    Outcome.ofOption_eq_ok] at h
  obtain ⟨⟨schedule, f⟩, hmembers, _, -, _, -, _, -, hm⟩ := h
  cases hm
  exact ⟨rfl, f, rfl, rfl, fun kind => by cases kind <;> rfl,
    (Flattening.laid_empty 1).walked (Flattening.stacked_empty 1) hmembers⟩

/-- **The numbers of a model fit together**, and fit the tree. -/
theorem consistent_of_ofGroup (h : ofGroup g settings = .ok m) : m.Consistent g := by
  have hm := laid_of_ofGroup h
  obtain ⟨hroot, f, hcomponents, htable, hlength, hwalked⟩ := walked_of_ofGroup h
  have hfollows := hwalked.follows
  rw [hcomponents] at hfollows
  change Schedule.Follows m.components "" g.members m.schedule 0 m.components.length at hfollows
  have hstacked (kind : VariableKind) :
      Consecutive 0 (m.lengthOf kind) (m.components.map (Flattening.spanOf · kind)) := by
    rw [← hlength, ← hcomponents]
    exact hwalked.stacked.stacked kind
  have hwithin (e : ModelGroup R × Schedule R) (he : e ∈ m.schedule.groups) :
      e.1.components.Within ⟨0, m.components.length⟩ := (hfollows.of_mem_groups he).1
  exact {
    consecutive := hm.consecutive
    apart := fun _ _ _ _ hv hv' => hm.apart hv hv'
    named := htable ▸ hwalked.stacked.named
    numbered := by
      rw [← hcomponents, ← htable]
      exact hwalked.stacked.numbered
    follows := hfollows
    stacked := hstacked
    filled := fun _ _ hc => hm.exists_filled hc
    root := hm.root_eq
    groupNumbers := by
      rw [groups, List.map_cons, hwalked.numbers, hroot, List.length_cons, List.range_eq_range',
        List.range'_succ]
    groups := fun e he => by
      rcases List.mem_cons.1 he with rfl | he
      · refine hm.groupLaid (hstacked .output) (?_ : Schedule.Follows _ _ g.members _ _ _) ?_
        · simpa only [hroot, Span.stop, Nat.zero_add] using hfollows
        · simp only [hroot, Span.stop, Nat.zero_add, Nat.le_refl]
      · obtain ⟨-, inner, hinner⟩ := hfollows.of_mem_groups he
        refine hm.groupLaid (hstacked .output) hinner ?_
        simpa only [Span.stop, Nat.zero_add] using (hwithin e he).2
    nested := List.pairwise_cons.2 ⟨fun e he => .inl (hroot ▸ hwithin e he),
      hfollows.pairwise_groups⟩
    nodes := hm.nodes_eq
    graphComponents := by
      refine List.ext_getElem? fun k => ?_
      rw [List.getElem?_map, List.getElem?_map]
      cases hc : m.components[k]? with
      | none =>
        rw [List.getElem?_eq_none_iff] at hc
        rw [List.getElem?_eq_none_iff.2 (hm.length_eq ▸ hc)]
        rfl
      | some c =>
        obtain ⟨n, d, hn, hlaid⟩ := hm.exists_laid hc
        rw [hn, Option.map_some, Option.map_some, hlaid.inputs_eq, hlaid.outputs_eq]
    owned := hm.owned
    matching := hm.matching
    source_iff := hm.source_iff }

/-- Every variable of a model comes with its values if those that components declare do. -/
theorem valued_of_ofGroup (h : ofGroup g settings = .ok m)
    (hvalued : ∀ c ∈ g.members.components, ∀ d, c.declarations = .ok d → d.Valued)
    {v : ModelVariable R} (hv : v ∈ m.variableTable.values) :
    v.spec.value.length = v.size := by
  have hm := laid_of_ofGroup h
  obtain ⟨id, hid⟩ := List.mem_iff_getElem?.1 hv
  obtain ⟨c, hc, hmem⟩ := hm.owned id v hid
  obtain ⟨d, hd, -, hfilled⟩ := hm.exists_filled hc
  have hcomponent : c.component ∈ g.members.components := by
    rw [← components_of_ofGroup h]
    exact List.mem_map_of_mem (List.mem_of_getElem? hc)
  obtain ⟨i, hi, rfl⟩ := List.getElem_of_mem hmem
  have hdeclared := (hfilled v.kind).declared
  obtain ⟨w, hw, -, -, -, -, hspec⟩ := hdeclared.get hi (hdeclared.length_eq ▸ hi)
  rw [List.get_eq_getElem] at hw
  obtain rfl := Option.some.inj (hid.symm.trans hw)
  rw [ModelVariable.size, hspec]
  exact hvalued _ hcomponent d hd v.kind _ (List.getElem_mem _)

/-- **The vectors of a model start as long as its variables together**, if every variable comes with
its values. -/
theorem fits_start (h : ofGroup g settings = .ok m)
    (hvalued : ∀ c ∈ g.members.components, ∀ d, c.declarations = .ok d → d.Valued)
    {s : ModelState R M} (hs : m.start = .ok s) : m.Fits s := by
  have hm := laid_of_ofGroup h
  have hlength (kind : VariableKind) : (m.startValues kind).length = m.lengthOf kind := by
    rw [(hm.consecutive kind).stop_eq, Nat.zero_add, startValues, List.length_flatMap,
      List.map_map]
    refine congrArg List.sum (List.map_congr_left fun v hv => ?_)
    exact valued_of_ofGroup h hvalued (List.mem_of_mem_filter hv)
  unfold start at hs
  obtain ⟨schemes, -, hs⟩ := Except.bind_eq_ok.1 hs
  cases hs
  intro kind
  cases kind with
  | input => exact hlength .input
  | output => exact hlength .output

end Setup

section SetValue

/-- What setting the value of a variable does: its entries take the new values. Every other entry,
and everything else about the state, stays as it was, so no other variable changes. -/
structure Assigned (m : Model R M) (id : Nat) (v : ModelVariable R) (values : List R)
    (s s' : ModelState R M) : Prop where
  length_eq : values.length = v.size
  inside : ∀ k < v.size, (s'.vector v.kind).real[v.start + k]? =
    (s.vector v.kind).real[v.start + k]?.bind fun _ => values[k]?
  outside : ∀ i, v.span.contains i = false →
    (s'.vector v.kind).real[i]? = (s.vector v.kind).real[i]?
  rest : s' = s.setVector v.kind { s.vector v.kind with real := (s'.vector v.kind).real }
  others : ∀ other ≠ id, m.Agree s' s other
  value : m.Fits s → m.value v.name s' = .ok values

variable {m : Model R M}

theorem vector_setVector (s : ModelState R M) (kind k : VariableKind) (v : StateVector R) :
    (s.setVector kind v).vector k = if k = kind then v else s.vector k := by
  cases kind <;> cases k <;> rfl

/-- Writing the values of a variable. -/
theorem Laid.assigned_of_write (hm : m.Laid) {id : Nat} {v : ModelVariable R}
    (hv : m.variableAt? id = some v) (hget : m.variableTable.get? v.name = some v)
    {values : List R} (hlength : values.length = v.size) (s : ModelState R M) :
    m.Assigned id v values s
      (s.setVector v.kind ((s.vector v.kind).writeReal v.span values.toArray)) := by
  have hself : (s.setVector v.kind ((s.vector v.kind).writeReal v.span values.toArray)).vector
      v.kind = (s.vector v.kind).writeReal v.span values.toArray := by
    rw [vector_setVector, if_pos rfl]
  refine ⟨hlength, fun k hk => ?_, fun i hi => ?_, ?_, fun other hother w hw => ?_,
    fun hfits => ?_⟩
  · have hinside : v.span.contains (v.start + k) = true :=
      Span.contains_iff.2 ⟨Nat.le_add_right _ _, Nat.add_lt_add_left hk _⟩
    rw [hself, StateVector.writeReal, Span.getElem?_overwrite_of_contains hinside]
    have hoffset : v.start + k - v.span.start = k := Nat.add_sub_cancel_left _ _
    have hlt : k < values.length := hlength ▸ hk
    rw [hoffset]
    cases (s.vector v.kind).real[v.start + k]? <;> simp [Array.getD, hlt]
  · rw [hself]
    exact Span.getElem?_overwrite_of_not_contains _ _ _ i hi
  · rw [hself]
    rfl
  · rw [vector_setVector]
    split
    · rename_i hkind
      rw [StateVector.readReal, StateVector.writeReal,
        Span.slice_overwrite_of_apart (hm.apart hw hv hother hkind), hkind]
      rfl
    · rfl
  · have hfit : v.span.stop ≤ (s.vector v.kind).real.size := by
      have hsize : (s.vector v.kind).real.size = m.lengthOf v.kind := hfits v.kind
      rw [hsize]
      exact hm.stop_le hv
    simp only [value, lookup, hget, bind, Except.bind, pure, Except.pure, hself]
    rw [StateVector.readReal, StateVector.writeReal, Span.slice_overwrite_self hfit hlength]

/-- **Setting a value** changes the entries of its variable, and nothing else. -/
theorem Laid.assigned (hm : m.Laid)
    (hnamed : ∀ e ∈ m.variableTable.entries, e.1 = e.2.name) {name : String} {values : List R}
    {s s' : ModelState R M} (h : (m.setValue name values).perform s = (.ok (), s')) :
    ∃ id v, m.variableTable.indexOf? name = some id ∧ m.variableAt? id = some v ∧
      m.Assigned id v values s s' := by
  obtain ⟨v, hv, h⟩ := Action.ofOutcome_bind_eq_ok.1 h
  dsimp only at h
  split at h
  · obtain ⟨_, _, hfail, -⟩ := Action.bind_eq_ok.1 h
    cases hfail
  rename_i hlength
  cases h
  have hget : m.variableTable.get? name = some v := by
    rw [Outcome.ofExcept_eq_ok, lookup] at hv
    split at hv
    · rename_i hget
      cases hv
      exact hget
    · cases hv
  obtain ⟨id, hid, hat⟩ := Table.get?_eq_some_iff_indexOf?.1 hget
  obtain rfl : name = v.name := hnamed _ ((Table.get?_eq_some_iff _ _ _).1 hget)
  exact ⟨id, v, hid, hat, hm.assigned_of_write hat hget (not_not.1 hlength) s⟩

end SetValue

/-- **Laying out a tree makes one consistent model of it**: its index spaces fit together and fit the
tree, its vectors are as long as its variables need, and setting a value changes the entries of the
named variable and nothing else. -/
theorem indexed_of_ofGroup [Scalar R] {m : Model R M} {g : Group R M} {settings : SetupSettings}
    (h : ofGroup g settings = .ok m) :
    m.Consistent g ∧
    ((∀ c ∈ g.members.components, ∀ d, c.declarations = .ok d → d.Valued) →
      ∀ s, m.start = .ok s → m.Fits s) ∧
    ∀ name values (s s' : ModelState R M), (m.setValue name values).perform s = (.ok (), s') →
      ∃ id v, m.variableTable.indexOf? name = some id ∧ m.variableAt? id = some v ∧
        m.Assigned id v values s s' :=
  have hconsistent := consistent_of_ofGroup h
  ⟨hconsistent, fun hvalued _ => fits_start h hvalued,
    fun _ _ _ _ => (laid_of_ofGroup h).assigned hconsistent.named⟩

section Nest

/-- A source, and a group that holds a component and a group of two components. -/
def nest : Group Float Unit where
  settings := { GroupSettings.plain with
    connections := [("source.a", "outer.first.x"), ("source.b", "outer.inner.left.x")] }
  members :=
    .component "source" (.independent () [("a", .scalar 2.0), ("b", .vector [3.0])]) <|
    .group "outer" { GroupSettings.plain with connections := [("first.y", "inner.right.x")] }
      (.component "first" (doubling 2.0) <|
        .group "inner" .plain (.component "left" (doubling 3.0) <|
          .component "right" (doubling 4.0) .empty) .empty) .empty

theorem isSome_nest : (ofGroup nest .standard).toOption.isSome = true := by decide +kernel

/-- The model of the nest. -/
def nestModel : Model Float Unit := (ofGroup nest .standard).toOption.get isSome_nest

theorem ofGroup_nest : ofGroup nest .standard = .ok nestModel :=
  Except.eq_ok_of_toOption (Option.some_get isSome_nest).symm

/-- Each group of the nest has its components and, in one span, their outputs. -/
example : nestModel.groups.map (fun e => (e.1.components, nestModel.outputsOf e.1)) =
    [(⟨0, 4⟩, some ⟨0, 5⟩), (⟨1, 3⟩, some ⟨2, 3⟩), (⟨2, 2⟩, some ⟨3, 2⟩)] := by decide +kernel

theorem indexed_nest : nestModel.Consistent nest ∧
    ∀ name values (s s' : ModelState Float Unit),
      (nestModel.setValue name values).perform s = (.ok (), s') →
        ∃ id v, nestModel.variableTable.indexOf? name = some id ∧
          nestModel.variableAt? id = some v ∧ nestModel.Assigned id v values s s' :=
  have h := indexed_of_ofGroup ofGroup_nest
  ⟨h.1, h.2.2⟩

end Nest

end Model

end Sensitivity
