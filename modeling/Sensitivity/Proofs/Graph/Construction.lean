import Mathlib.Data.List.Induction
import Sensitivity.Proofs.Graph.Relevance
import Sensitivity.Proofs.Table

/-!
# Graphs read from their history

A dependency graph is built by edits that refer to what was added before (`DependencyGraph.Legal`).
The edges that it has in the end can be read from the edits alone (`DependencyGraph.Edge`): the
connections, and for each component the pairs that were declared for it, or all pairs of its inputs
and outputs when it was marked or nothing was declared for it. What a graph stores agrees with its
history at every edit (`DependencyGraph.Records.perform?`), so every legal history builds a graph
that can be finished, and whose searches find what the paths along these edges reach
(`DependencyGraph.searches_of_legal`).
-/

namespace Sensitivity

namespace DependencyGraph

/-- A change of a graph. -/
inductive Edit where
  | addComponent (name : String)
  | addVariable (name : String) (kind : VariableKind) (owner : Nat)
  | connect (source target : Nat)
  | declare (input output : Nat)
  | mark (component : Nat)

/-- The variable that an edit adds, with its owner. -/
def Edit.added? : Edit → Option (String × VariableNode)
  | .addVariable name kind owner => some (name, ⟨kind, owner⟩)
  | _ => none

/-- Whether an edit adds a component. -/
def Edit.isComponent : Edit → Bool
  | .addComponent _ => true
  | _ => false

/-- The graph after an edit. -/
def perform? (g : DependencyGraph) : Edit → Option DependencyGraph
  | .addComponent name => some (g.addComponent name)
  | .addVariable name kind owner => (g.addVariable? name kind owner).map Prod.fst
  | .connect source target => some (g.addConnection source target)
  | .declare input output => g.addDependency? input output
  | .mark component => g.setAllToAll? component

/-- The graph after a list of edits. -/
def build? (edits : List Edit) : Option DependencyGraph := edits.foldlM perform? ∅

section History

variable (edits : List Edit)

/-- The variables that were added. Their positions are their numbers. -/
def added : List (String × VariableNode) := edits.filterMap Edit.added?

/-- How many components were added. Their numbers are the smaller ones. -/
def componentCount : Nat := edits.countP Edit.isComponent

/-- An edit that refers to what is there, and gives a variable a new name. -/
def Edit.Valid : Edit → Prop
  | .addComponent _ => True
  | .addVariable name _ owner =>
    name ∉ (added edits).map Prod.fst ∧ owner < componentCount edits
  | .connect source target => source < (added edits).length ∧ target < (added edits).length
  | .declare input output => input < (added edits).length ∧ output < (added edits).length
  | .mark component => component < componentCount edits

instance : DecidablePred (Edit.Valid edits)
  | .addComponent _ => inferInstanceAs (Decidable True)
  | .addVariable _ _ _ => inferInstanceAs (Decidable (_ ∧ _))
  | .connect _ _ => inferInstanceAs (Decidable (_ ∧ _))
  | .declare _ _ => inferInstanceAs (Decidable (_ ∧ _))
  | .mark _ => inferInstanceAs (Decidable (_ < _))

/-- Every edit is valid after those before it. -/
def Legal : Prop := ∀ k (hk : k < edits.length), Edit.Valid (edits.take k) (edits[k])

instance : Decidable (Legal edits) :=
  inferInstanceAs (Decidable (∀ k (hk : k < edits.length), Edit.Valid (edits.take k) (edits[k])))

/-- A variable is an input, or an output, of a component. -/
def Owned (kind : VariableKind) (component v : Nat) : Prop :=
  ∃ name, (added edits)[v]? = some (name, ⟨kind, component⟩)

/-- A pair was declared for the component of its output. -/
def Declared (component input output : Nat) : Prop :=
  .declare input output ∈ edits ∧ ∃ kind, Owned edits kind component output

/-- The edges after a list of edits. -/
inductive Edge : Nat → Nat → Prop
  | connected {u v : Nat} (h : .connect u v ∈ edits) : Edge u v
  | declared {c u v : Nat} (h : Declared edits c u v) (unmarked : .mark c ∉ edits) : Edge u v
  | everything {c u v : Nat} (h : .mark c ∈ edits ∨ ∀ i o, ¬ Declared edits c i o)
    (input : Owned edits .input c u) (output : Owned edits .output c v) : Edge u v

end History

section Reading

variable {edits : List Edit}

theorem legal_append_iff {e : Edit} :
    Legal (edits ++ [e]) ↔ Legal edits ∧ Edit.Valid edits e := by
  constructor
  · intro h
    constructor
    · intro k hk
      have hvalid := h k (by rw [List.length_append]; omega)
      rwa [List.take_append_of_le_length (Nat.le_of_lt hk), List.getElem_append_left hk] at hvalid
    · have hvalid := h edits.length (by simp)
      rwa [List.take_left, List.getElem_concat_length rfl] at hvalid
  · rintro ⟨h, he⟩ k hk
    rw [List.length_append, List.length_singleton] at hk
    by_cases hlt : k < edits.length
    · rw [List.take_append_of_le_length (Nat.le_of_lt hlt), List.getElem_append_left hlt]
      exact h k hlt
    · obtain rfl : k = edits.length := by omega
      rwa [List.take_left, List.getElem_concat_length rfl]

theorem added_append (edits : List Edit) (e : Edit) :
    added (edits ++ [e]) = added edits ++ e.added?.toList := by
  rw [added, List.filterMap_append]
  cases e <;> rfl

theorem added_append_of_none {e : Edit} (he : e.added? = none) :
    added (edits ++ [e]) = added edits := by
  rw [added_append, he, Option.toList_none, List.append_nil]

/-- An edit of the history was valid among the edits before it, which are part of the history. -/
theorem Legal.valid_of_mem (h : Legal edits) {e : Edit} (he : e ∈ edits) :
    ∃ k, Edit.Valid (edits.take k) e := by
  obtain ⟨k, hk, rfl⟩ := List.mem_iff_getElem.1 he
  exact ⟨k, h k hk⟩

theorem length_added_take_le (edits : List Edit) (k : Nat) :
    (added (edits.take k)).length ≤ (added edits).length :=
  ((List.take_sublist k edits).filterMap _).length_le

theorem componentCount_take_le (edits : List Edit) (k : Nat) :
    componentCount (edits.take k) ≤ componentCount edits :=
  (List.take_sublist k edits).countP_le

theorem Legal.lt_of_connect (h : Legal edits) {u v : Nat} (he : .connect u v ∈ edits) :
    u < (added edits).length ∧ v < (added edits).length := by
  obtain ⟨k, hu, hv⟩ := h.valid_of_mem he
  have := length_added_take_le edits k
  omega

theorem Legal.lt_of_declare (h : Legal edits) {i o : Nat} (he : .declare i o ∈ edits) :
    i < (added edits).length ∧ o < (added edits).length := by
  obtain ⟨k, hi, ho⟩ := h.valid_of_mem he
  have := length_added_take_le edits k
  omega

theorem Legal.lt_of_mark (h : Legal edits) {c : Nat} (he : .mark c ∈ edits) :
    c < componentCount edits := by
  obtain ⟨k, hc⟩ := h.valid_of_mem he
  exact Nat.lt_of_lt_of_le hc (componentCount_take_le edits k)

theorem Legal.lt_of_owned (h : Legal edits) {kind : VariableKind} {c v : Nat}
    (ho : Owned edits kind c v) : c < componentCount edits := by
  obtain ⟨name, hv⟩ := ho
  obtain ⟨e, he, hadded⟩ := List.mem_filterMap.1 (List.mem_of_getElem? hv)
  cases e with
  | addVariable name' kind' owner =>
    cases hadded
    obtain ⟨k, -, hlt⟩ := h.valid_of_mem he
    exact Nat.lt_of_lt_of_le hlt (componentCount_take_le edits k)
  | _ => cases hadded

theorem lt_length_of_owned {kind : VariableKind} {c v : Nat} (h : Owned edits kind c v) :
    v < (added edits).length :=
  (List.getElem?_eq_some_iff.1 h.choose_spec).1

/-- The edges of a legal history join variables. -/
theorem Legal.lt_of_edge (h : Legal edits) {u v : Nat} (he : Edge edits u v) :
    u < (added edits).length ∧ v < (added edits).length := by
  cases he with
  | connected he => exact h.lt_of_connect he
  | declared hd => exact h.lt_of_declare hd.1
  | everything _ hi ho => exact ⟨lt_length_of_owned hi, lt_length_of_owned ho⟩

/-- An edit without a variable leaves every variable with its owner. -/
theorem owned_append {e : Edit} (he : e.added? = none) {kind : VariableKind} {c v : Nat} :
    Owned (edits ++ [e]) kind c v ↔ Owned edits kind c v := by
  rw [Owned, added_append_of_none he, Owned]

/-- An edit without a variable declares at most its own pair. -/
theorem declared_append {e : Edit} (he : e.added? = none) {c i o : Nat} :
    Declared (edits ++ [e]) c i o ↔
      Declared edits c i o ∨ e = .declare i o ∧ ∃ kind, Owned edits kind c o := by
  simp only [Declared, owned_append he, List.mem_append, List.mem_singleton, or_and_right,
    eq_comm (b := e)]

/-- A new variable has the next number. -/
theorem owned_addVariable {name : String} {kind kind' : VariableKind} {owner c v : Nat} :
    Owned (edits ++ [.addVariable name kind owner]) kind' c v ↔
      Owned edits kind' c v ∨ kind' = kind ∧ c = owner ∧ v = (added edits).length := by
  have hadded : added (edits ++ [.addVariable name kind owner]) =
      added edits ++ [(name, ⟨kind, owner⟩)] := added_append ..
  simp only [Owned, hadded]
  rcases Nat.lt_trichotomy v (added edits).length with hlt | rfl | hgt
  · simp [List.getElem?_append_left hlt, Nat.ne_of_lt hlt]
  · simp [eq_comm]
  · have hnone : (added edits ++ [(name, (⟨kind, owner⟩ : VariableNode))])[v]? = none :=
      List.getElem?_eq_none (by simp; omega)
    simp [hnone, List.getElem?_eq_none (Nat.le_of_lt hgt), Nat.ne_of_gt hgt]

/-- What was declared does not change with a variable that is added afterwards. -/
theorem Legal.declared_addVariable (h : Legal edits) {name : String} {kind : VariableKind}
    {owner c i o : Nat} :
    Declared (edits ++ [.addVariable name kind owner]) c i o ↔ Declared edits c i o := by
  simp only [Declared, List.mem_append, List.mem_singleton, reduceCtorEq, or_false,
    owned_addVariable]
  refine and_congr_right fun hd => exists_congr fun k => or_iff_left ?_
  rintro ⟨-, -, rfl⟩
  exact absurd (h.lt_of_declare hd).2 (Nat.lt_irrefl _)

end Reading

section Recording

variable {edits : List Edit} {g : DependencyGraph}

/-- What a component stores, as the history tells it. -/
structure ComponentRecord (edits : List Edit) (c : Nat) (n : ComponentNode) : Prop where
  mem_inputs : ∀ v, v ∈ n.inputs ↔ Owned edits .input c v
  mem_outputs : ∀ v, v ∈ n.outputs ↔ Owned edits .output c v
  mem_declared : ∀ i o, (i, o) ∈ n.declared ↔ Declared edits c i o
  marked_iff : n.marked = true ↔ .mark c ∈ edits

/-- What a graph stores, as the history tells it. -/
structure Records (edits : List Edit) (g : DependencyGraph) : Prop where
  entries_eq : g.nodes.entries = added edits
  length_components : g.components.length = componentCount edits
  mem_connections : ∀ u v, (u, v) ∈ g.connections ↔ .connect u v ∈ edits
  component : ∀ c n, g.components[c]? = some n → ComponentRecord edits c n

theorem Records.size_eq (h : Records edits g) : g.size = (added edits).length :=
  congrArg List.length h.entries_eq

/-- The edges inside a component are those that the history gives it. -/
theorem ComponentRecord.mem_edges {c : Nat} {n : ComponentNode} (h : ComponentRecord edits c n)
    {u v : Nat} : (u, v) ∈ n.edges ↔
      Declared edits c u v ∧ .mark c ∉ edits ∨
        (.mark c ∈ edits ∨ ∀ i o, ¬ Declared edits c i o) ∧
          Owned edits .input c u ∧ Owned edits .output c v := by
  have hall : n.isAllToAll = true ↔ .mark c ∈ edits ∨ ∀ i o, ¬ Declared edits c i o := by
    rw [ComponentNode.isAllToAll, Bool.or_eq_true, h.marked_iff, List.isEmpty_iff,
      List.eq_nil_iff_forall_not_mem]
    simp only [Prod.forall, h.mem_declared]
  rw [← hall, ComponentNode.edges]
  split
  · rename_i hyes
    have hnot : ¬ (Declared edits c u v ∧ .mark c ∉ edits) := by
      rintro ⟨hd, hm⟩
      exact (hall.1 hyes).elim hm fun hnone => hnone u v hd
    simp [hyes, hnot, h.mem_inputs, h.mem_outputs]
  · rename_i hno
    have hm : .mark c ∉ edits := fun hm => hno (hall.2 (.inl hm))
    simp [hno, hm, h.mem_declared]

/-- **The edges of a graph are those of its history.** -/
theorem Records.mem_allEdges (h : Records edits g) (hlegal : Legal edits) {u v : Nat} :
    (u, v) ∈ g.allEdges ↔ Edge edits u v := by
  have hcomponent (c : Nat) (hc : c < componentCount edits) :
      ∃ n ∈ g.components, ComponentRecord edits c n := by
    have hget := List.getElem?_eq_getElem (h.length_components ▸ hc)
    exact ⟨_, List.mem_of_getElem? hget, h.component c _ hget⟩
  rw [allEdges, List.mem_append, h.mem_connections, List.mem_flatMap]
  constructor
  · rintro (he | ⟨n, hn, he⟩)
    · exact .connected he
    · obtain ⟨c, hc⟩ := List.mem_iff_getElem?.1 hn
      rcases (h.component c n hc).mem_edges.1 he with ⟨hd, hm⟩ | ⟨hall, hi, ho⟩
      · exact .declared hd hm
      · exact .everything hall hi ho
  · intro he
    cases he with
    | connected he => exact .inl he
    | @declared c _ _ hd hm =>
      obtain ⟨n, hn, hrecord⟩ := hcomponent c (hlegal.lt_of_owned hd.2.choose_spec)
      exact .inr ⟨n, hn, hrecord.mem_edges.2 (.inl ⟨hd, hm⟩)⟩
    | @everything c _ _ hall hi ho =>
      obtain ⟨n, hn, hrecord⟩ := hcomponent c (hlegal.lt_of_owned hi)
      exact .inr ⟨n, hn, hrecord.mem_edges.2 (.inr ⟨hall, hi, ho⟩)⟩

/-- The record of a component that an edit leaves as it is. -/
theorem ComponentRecord.keep {c : Nat} {n : ComponentNode} (h : ComponentRecord edits c n) {e : Edit}
    (hadded : e.added? = none) (hdeclare : ∀ i o kind, e = .declare i o → ¬ Owned edits kind c o)
    (hmark : e ≠ .mark c) : ComponentRecord (edits ++ [e]) c n where
  mem_inputs v := (h.mem_inputs v).trans (owned_append hadded).symm
  mem_outputs v := (h.mem_outputs v).trans (owned_append hadded).symm
  mem_declared i o := by
    rw [h.mem_declared, declared_append hadded]
    refine (or_iff_left ?_).symm
    rintro ⟨he, kind, ho⟩
    exact hdeclare i o kind he ho
  marked_iff := by
    rw [h.marked_iff, List.mem_append, List.mem_singleton]
    exact (or_iff_left hmark.symm).symm

theorem Records.addComponent (h : Records edits g) (hlegal : Legal edits) (name : String) :
    Records (edits ++ [.addComponent name]) (g.addComponent name) where
  entries_eq := h.entries_eq.trans (added_append_of_none rfl).symm
  length_components := by
    rw [componentCount, List.countP_append]
    exact (List.length_append ..).trans (congrArg (· + 1) h.length_components)
  mem_connections u v := (h.mem_connections u v).trans (by simp)
  component c n hc := by
    rcases Nat.lt_or_ge c g.components.length with hlt | hge
    · rw [DependencyGraph.addComponent, List.getElem?_append_left hlt] at hc
      exact (h.component c n hc).keep rfl nofun nofun
    · -- The new component owns nothing yet, as no edit before could refer to it.
      have hfar : componentCount edits ≤ c := h.length_components ▸ hge
      have hnone {kind : VariableKind} {v : Nat} (ho : Owned edits kind c v) : False :=
        absurd (hlegal.lt_of_owned ho) (Nat.not_lt.2 hfar)
      have hn : n = ⟨name, [], [], [], false⟩ := by
        rw [DependencyGraph.addComponent, List.getElem?_append_right hge] at hc
        exact List.mem_singleton.1 (List.mem_of_getElem? hc)
      subst hn
      have hempty : ComponentRecord edits c ⟨name, [], [], [], false⟩ :=
        ⟨fun v => ⟨nofun, fun ho => (hnone ho).elim⟩, fun v => ⟨nofun, fun ho => (hnone ho).elim⟩,
          fun i o => ⟨nofun, fun hd => (hnone hd.2.choose_spec).elim⟩,
          ⟨nofun, fun hm => absurd (hlegal.lt_of_mark hm) (Nat.not_lt.2 hfar)⟩⟩
      exact hempty.keep rfl nofun nofun

/-- An edit that changes one component in place, and nothing else but the variables. -/
theorem Records.modify (h : Records edits g) {e : Edit} {nodes : Table String VariableNode}
    {owner : Nat} {f : ComponentNode → ComponentNode} (hentries : nodes.entries = added (edits ++ [e]))
    (hcount : e.isComponent = false) (hconnect : ∀ u v, e ≠ .connect u v)
    (hrecord : ∀ c n, g.components[c]? = some n →
      ComponentRecord (edits ++ [e]) c (if owner = c then f n else n)) :
    Records (edits ++ [e])
      { g with nodes := nodes, components := g.components.modify owner f, finished := false } where
  entries_eq := hentries
  length_components := by
    rw [List.length_modify, componentCount, List.countP_append, List.countP_singleton, hcount]
    exact h.length_components
  mem_connections u v := by
    rw [List.mem_append, List.mem_singleton, or_iff_left (hconnect u v).symm]
    exact h.mem_connections u v
  component c n hc := by
    rw [List.getElem?_modify, Option.map_eq_map, Option.map_eq_some_iff] at hc
    obtain ⟨old, hold, rfl⟩ := hc
    exact hrecord c old hold

theorem Records.addVariable (h : Records edits g) (hlegal : Legal edits) {name : String}
    {kind : VariableKind} {owner : Nat} (hnew : name ∉ (added edits).map Prod.fst)
    (howner : owner < componentCount edits) :
    ∃ g', g.perform? (.addVariable name kind owner) = some g' ∧
      Records (edits ++ [.addVariable name kind owner]) g' := by
  have hkey : name ∉ g.nodes.keys := by rwa [Table.keys, h.entries_eq]
  have hentries : (g.nodes.insert name ⟨kind, owner⟩).entries =
      added edits ++ [(name, ⟨kind, owner⟩)] := by
    rw [Table.entries_insert hkey, h.entries_eq]
  have hindex : (g.nodes.insert name ⟨kind, owner⟩).indexOf? name = some (added edits).length := by
    refine Table.indexOf?_eq_some_iff.2 ⟨⟨kind, owner⟩, ?_⟩
    rw [hentries, List.getElem?_concat_length]
  have hlt : owner < g.components.length := h.length_components ▸ howner
  simp only [perform?, addVariable?, if_pos hlt, hindex, Option.getD_some, Option.map_some]
  have hadded := added_append edits (.addVariable name kind owner)
  refine ⟨_, rfl, h.modify (hentries.trans hadded.symm) rfl (by simp) fun c n hc => ?_⟩
  have hrecord := h.component c n hc
  refine ⟨fun v => ?_, fun v => ?_, fun i o => ?_, ?_⟩
  · rw [owned_addVariable, ← hrecord.mem_inputs]
    by_cases hc : owner = c <;> cases kind <;> simp [hc, eq_comm]
  · rw [owned_addVariable, ← hrecord.mem_outputs]
    by_cases hc : owner = c <;> cases kind <;> simp [hc, eq_comm]
  · rw [hlegal.declared_addVariable, ← hrecord.mem_declared]
    by_cases hc : owner = c <;> cases kind <;> simp [hc]
  · simp only [List.mem_append, List.mem_singleton, reduceCtorEq, or_false, ← hrecord.marked_iff]
    by_cases hc : owner = c <;> cases kind <;> simp [hc]

theorem Records.connect (h : Records edits g) (source target : Nat) :
    Records (edits ++ [.connect source target]) (g.addConnection source target) where
  entries_eq := h.entries_eq.trans (added_append_of_none rfl).symm
  length_components := by
    rw [componentCount, List.countP_append]
    exact h.length_components
  mem_connections u v := by simp [DependencyGraph.addConnection, h.mem_connections]
  component c n hc := (h.component c n hc).keep rfl nofun nofun

theorem Records.declare (h : Records edits g) {input output : Nat}
    (hlt : output < (added edits).length) :
    ∃ g', g.perform? (.declare input output) = some g' ∧
      Records (edits ++ [.declare input output]) g' := by
  obtain ⟨⟨name, kind, owner⟩, hnode⟩ : ∃ e, (added edits)[output]? = some e :=
    ⟨_, List.getElem?_eq_getElem hlt⟩
  have hvalue : g.nodes.values[output]? = some ⟨kind, owner⟩ := by
    rw [Table.values, h.entries_eq, List.getElem?_map, hnode]
    rfl
  simp only [perform?, addDependency?, hvalue, Option.map_some]
  refine ⟨_, rfl, h.modify (h.entries_eq.trans (added_append_of_none rfl).symm) rfl (by simp)
    fun c n hc => ?_⟩
  have hrecord := h.component c n hc
  by_cases hc : owner = c
  · subst hc
    have howns : ∃ k, Owned edits k owner output := ⟨kind, name, hnode⟩
    rw [if_pos rfl]
    refine ⟨fun v => (hrecord.mem_inputs v).trans (owned_append rfl).symm,
      fun v => (hrecord.mem_outputs v).trans (owned_append rfl).symm, fun i o => ?_,
      hrecord.marked_iff.trans (by simp)⟩
    rw [declared_append rfl, List.mem_append, List.mem_singleton, hrecord.mem_declared]
    refine or_congr_right ⟨fun he => ?_, fun he => ?_⟩
    · cases he
      exact ⟨rfl, howns⟩
    · cases he.1
      rfl
  · rw [if_neg hc]
    refine hrecord.keep rfl (fun i o kind' he ho => ?_) (by simp)
    obtain ⟨rfl, rfl⟩ := Edit.declare.inj he
    obtain ⟨name', ho⟩ := ho
    rw [hnode] at ho
    cases ho
    exact hc rfl

theorem Records.mark (h : Records edits g) {component : Nat}
    (hlt : component < componentCount edits) :
    ∃ g', g.perform? (.mark component) = some g' ∧ Records (edits ++ [.mark component]) g' := by
  simp only [perform?, setAllToAll?, if_pos (h.length_components ▸ hlt)]
  refine ⟨_, rfl, h.modify (h.entries_eq.trans (added_append_of_none rfl).symm) rfl nofun
    fun c n hc => ?_⟩
  have hrecord := h.component c n hc
  by_cases hc : component = c
  · subst hc
    rw [if_pos rfl]
    refine ⟨fun v => (hrecord.mem_inputs v).trans (owned_append rfl).symm,
      fun v => (hrecord.mem_outputs v).trans (owned_append rfl).symm, fun i o => ?_, by simp⟩
    rw [declared_append rfl, hrecord.mem_declared, or_iff_left nofun]
  · rw [if_neg hc]
    exact hrecord.keep rfl nofun fun he => hc (Edit.mark.inj he)

/-- **A valid edit can be performed, and the graph goes on storing what the history tells.** -/
theorem Records.perform? (h : Records edits g) (hlegal : Legal edits) {e : Edit}
    (he : Edit.Valid edits e) : ∃ g', g.perform? e = some g' ∧ Records (edits ++ [e]) g' := by
  cases e with
  | addComponent name => exact ⟨_, rfl, h.addComponent hlegal name⟩
  | addVariable name kind owner => exact h.addVariable hlegal he.1 he.2
  | connect source target => exact ⟨_, rfl, h.connect source target⟩
  | declare input output => exact h.declare he.2
  | mark component => exact h.mark he

/-- **A legal history builds a graph** that stores what the history tells. -/
theorem exists_build? (hlegal : Legal edits) : ∃ g, build? edits = some g ∧ Records edits g := by
  induction edits using List.reverseRecOn with
  | nil => exact ⟨∅, rfl, rfl, rfl, fun u v => ⟨nofun, nofun⟩, nofun⟩
  | append_singleton edits e ih =>
    obtain ⟨hlegal, he⟩ := legal_append_iff.1 hlegal
    obtain ⟨g, hg, hrecords⟩ := ih hlegal
    obtain ⟨g', hg', hrecords'⟩ := hrecords.perform? hlegal he
    refine ⟨g', ?_, hrecords'⟩
    rw [build?] at hg ⊢
    rw [List.foldlM_append, hg]
    simpa using hg'

/-- A graph with a legal history can be finished, with the edges of its history. -/
theorem Records.exists_finish? (h : Records edits g) (hlegal : Legal edits) :
    ∃ g', g.finish? = some g' ∧ g'.size = (added edits).length ∧ g'.Bounded ∧
      ∀ u v, (u, v) ∈ g'.edges ↔ Edge edits u v := by
  have hall : (g.allEdges.all fun e => e.1 < g.size && e.2 < g.size) = true := by
    refine List.all_eq_true.2 fun e he => ?_
    have hlt := hlegal.lt_of_edge ((h.mem_allEdges hlegal).1 he)
    simpa [h.size_eq] using hlt
  have hfinish : g.finish? = some { g with edges := g.allEdges, finished := true } := if_pos hall
  exact ⟨_, hfinish, h.size_eq, (complete_of_finish? hfinish).1.bounded,
    fun u v => h.mem_allEdges hlegal⟩

end Recording

/-- A path of any length along the edges of a history. -/
def Leads (edits : List Edit) : Nat → Nat → Prop := Relation.ReflTransGen (Edge edits)

/-- **Every legal history builds a graph whose searches find the paths of the history**, forward
from the seeds and backward from them. So the forward search from one variable marks another exactly
when the backward search from the other marks the one. -/
theorem searches_of_legal {edits : List Edit} (h : Legal edits) :
    ∃ g g', build? edits = some g ∧ g.finish? = some g' ∧ g'.size = (added edits).length ∧
      (∀ seeds : List Nat, (∀ s ∈ seeds, s < g'.size) →
        ∃ ahead behind, g'.reachableFrom? seeds = some ahead ∧ g'.reaching? seeds = some behind ∧
          Marks g'.size ahead (fun v => ∃ s ∈ seeds, Leads edits s v) ∧
          Marks g'.size behind fun v => ∃ s ∈ seeds, Leads edits v s) ∧
      ∀ v w, v < g'.size → w < g'.size →
        ∃ ahead behind, g'.reachableFrom? [v] = some ahead ∧ g'.reaching? [w] = some behind ∧
          (ahead[w]? = some true ↔ behind[v]? = some true) := by
  obtain ⟨g, hbuild, hrecords⟩ := exists_build? h
  obtain ⟨g', hfinish, hsize, hbounded, hedges⟩ := hrecords.exists_finish? h
  have hpath (u v : Nat) : g'.Path u v ↔ Leads edits u v := by
    have hrelation : (fun u v => (u, v) ∈ g'.edges) = Edge edits := by
      funext u v
      exact propext (hedges u v)
    rw [Path, hrelation, Leads]
  have hsearch (seeds : List Nat) (hseeds : ∀ s ∈ seeds, s < g'.size) :
      ∃ ahead behind, g'.reachableFrom? seeds = some ahead ∧ g'.reaching? seeds = some behind ∧
        Marks g'.size ahead (fun v => ∃ s ∈ seeds, Leads edits s v) ∧
        Marks g'.size behind fun v => ∃ s ∈ seeds, Leads edits v s := by
    obtain ⟨ahead, hahead, hmarks⟩ := reachableFrom?_spec hbounded hseeds
    obtain ⟨behind, hbehind, hmarks'⟩ := reaching?_spec hbounded hseeds
    simp only [hpath] at hmarks hmarks'
    exact ⟨ahead, behind, hahead, hbehind, hmarks, hmarks'⟩
  refine ⟨g, g', hbuild, hfinish, hsize, hsearch, fun v w hv hw => ?_⟩
  obtain ⟨ahead, -, hahead, -, hmarks, -⟩ := hsearch [v] (by simpa using hv)
  obtain ⟨-, behind, -, hbehind, -, hmarks'⟩ := hsearch [w] (by simpa using hw)
  refine ⟨ahead, behind, hahead, hbehind, ?_⟩
  obtain ⟨b, hb, hiff⟩ := hmarks w hw
  obtain ⟨b', hb', hiff'⟩ := hmarks' v hv
  simp only [List.mem_singleton, exists_eq_left] at hiff hiff'
  rw [hb, hb', Option.some_inj, Option.some_inj, hiff, hiff']

/-- Two components that feed each other: `p` declares that `y` depends on `a` alone, and `q` depends
on everything. -/
def feedback : List Edit :=
  [.addComponent "p", .addVariable "a" .input 0, .addVariable "b" .input 0,
    .addVariable "y" .output 0, .declare 0 2, .addComponent "q", .addVariable "x" .input 1,
    .addVariable "z" .output 1, .declare 3 4, .mark 1, .connect 2 3, .connect 4 0, .connect 4 0]

/-- A search through the cycle of two components, from a seed that is given twice. -/
theorem searches_feedback : Legal feedback ∧
    ∃ g g', build? feedback = some g ∧ g.finish? = some g' ∧ g'.size = 5 ∧
      ∃ ahead behind, g'.reachableFrom? [2, 2] = some ahead ∧ g'.reaching? [2, 2] = some behind ∧
        Marks 5 ahead (fun v => ∃ s ∈ [2, 2], Leads feedback s v) ∧
        Marks 5 behind fun v => ∃ s ∈ [2, 2], Leads feedback v s := by
  have hlegal : Legal feedback := by decide +kernel
  obtain ⟨g, g', hbuild, hfinish, hsize, hsearch, -⟩ := searches_of_legal hlegal
  have hfive : g'.size = 5 := hsize
  rw [hfive] at hsearch
  exact ⟨hlegal, g, g', hbuild, hfinish, hfive, hsearch [2, 2] (by decide)⟩

end DependencyGraph

end Sensitivity
