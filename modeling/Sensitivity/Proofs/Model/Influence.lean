import Mathlib
import Sensitivity.Proofs.Model.Settling

/-!
# Influence in affine models

Where an affine model has a slope there is a dependency, since components declare all they depend on
(`Model.Affine.mem_edges_of_slope`), and where an entry reads another one there is a connection. So
changes spread along the paths of the graph only (`Model.Affine.reached_of_tangent`), and these lead
from earlier to later components (`Model.Affine.rank_le_of_path`).
-/

namespace Sensitivity

variable {R M : Type}

/-- The number of a variable of a component, by its own name. -/
def ModelComponent.idOf? (c : ModelComponent R M) : VariableKind → String → Option Nat
  | .input => c.inputId?
  | .output => c.outputId?

/-- The ends of a partial are the variables with its names. -/
theorem ModelComponent.ends?_eq_some {c : ModelComponent R M} {p : DeclaredPartial R} {wrt of : Nat} :
    c.ends? p = some (wrt, of) ↔ c.idOf? .input p.wrt = some wrt ∧ c.idOf? .output p.of = some of := by
  simp only [ends?, idOf?, Option.bind_eq_bind, Option.bind_eq_some_iff, pure, Option.some.injEq,
    Prod.mk.injEq]
  constructor
  · rintro ⟨_, hwrt, _, hof, rfl, rfl⟩
    exact ⟨hwrt, hof⟩
  · rintro ⟨hwrt, hof⟩
    exact ⟨wrt, hwrt, of, hof, rfl, rfl⟩

namespace Model

variable {m : Model R M} {k : Nat} {c : ModelComponent R M} {id : Nat} {v : ModelVariable R}

section Names

variable (hm : m.Laid) (hc : m.components[k]? = some c)

include hm hc

/-- The place of a variable among those of its component. -/
theorem Laid.exists_place {kind : VariableKind} {j : Nat}
    (hid : (Flattening.idsOf c kind)[j]? = some id) : ∃ v own, m.variableAt? id = some v ∧
      v.kind = kind ∧ v.owner = k ∧ (c.layout.spansOf kind).entries[j]? = some (v.localName, own) ∧
        v.span = ⟨(Flattening.spanOf c kind).start + own.start, own.size⟩ := by
  obtain ⟨d, -, -, hfilled⟩ := hm.exists_filled hc
  have h := hfilled kind
  obtain ⟨hj, rfl⟩ := List.getElem?_eq_some_iff.1 hid
  have hj' : j < (d.variablesOf kind).entries.length := h.declared.length_eq ▸ hj
  obtain ⟨v, hv, -, hlocal, hkind, howner, -⟩ := h.declared.get hj hj'
  rw [List.get_eq_getElem] at hv hlocal
  have hj'' : j < (c.layout.spansOf kind).entries.length := by
    have := congrArg List.length h.keys_eq
    simp only [Table.keys, List.length_map] at this
    omega
  refine ⟨v, (c.layout.spansOf kind).entries[j].2, hv, hkind, howner, ?_, ?_⟩
  · have hkey := congrArg (fun l => l[j]?) h.keys_eq
    simp only [Table.keys, List.getElem?_map, List.getElem?_eq_getElem hj',
      List.getElem?_eq_getElem hj'', Option.map_some, Option.some.injEq] at hkey
    rw [List.getElem?_eq_getElem hj'', hlocal, ← hkey]
  · have hall : m.spansOf (Flattening.idsOf c kind) = (Flattening.idsOf c kind).map fun id =>
        ((m.variableAt? id).map (·.span)).getD default := by
      rw [spansOf, ← List.filterMap_eq_map]
      refine List.filterMap_congr fun id hid => ?_
      obtain ⟨i, hi, rfl⟩ := List.getElem_of_mem hid
      obtain ⟨w, hw, -⟩ := h.declared.get hi (h.declared.length_eq ▸ hi)
      have hw : m.variableAt? (Flattening.idsOf c kind)[i] = some w := hw
      rw [Function.comp_apply, hw, Option.map_some, Option.getD_some]
    have hspan := congrArg (fun l => l[j]?) (hall.symm.trans h.spans_eq)
    simp only [List.getElem?_map, List.getElem?_eq_getElem hj, Table.values, Option.map_some,
      List.getElem?_eq_getElem hj'', Option.some.injEq] at hspan
    rw [hv] at hspan
    exact hspan

/-- A variable is one that its component declares under its own name. -/
theorem Laid.exists_own (hv : m.variableAt? id = some v) (howner : v.owner = k) :
    ∃ own, (c.layout.spansOf v.kind).get? v.localName = some own ∧
      c.idOf? v.kind v.localName = some id ∧
        v.span = ⟨(Flattening.spanOf c v.kind).start + own.start, own.size⟩ := by
  have hid := (hm.mem_idsOf_iff hc hv).2 howner
  obtain ⟨j, hj⟩ := List.mem_iff_getElem?.1 hid
  obtain ⟨w, own, hw, -, -, hentry, hspan⟩ := hm.exists_place hc hj
  obtain rfl := Option.some.inj (hv.symm.trans hw)
  refine ⟨own, (Table.get?_eq_some_iff _ _ _).2 (List.mem_of_getElem? hentry), ?_, hspan⟩
  have hindex := Table.indexOf?_eq_some_iff.2 ⟨own, hentry⟩
  cases hkind : v.kind <;> rw [hkind] at hj hindex <;>
    simp only [ModelComponent.idOf?, ModelComponent.inputId?, ModelComponent.outputId?,
      Layout.spansOf, Flattening.idsOf] at hj hindex ⊢ <;>
    rw [hindex] <;> exact hj

/-- What a component calls by a name is the variable with that name. -/
theorem Laid.exists_of_idOf? {kind : VariableKind} {name : String} (h : c.idOf? kind name = some id) :
    ∃ v own, m.variableAt? id = some v ∧ v.kind = kind ∧ v.owner = k ∧ v.localName = name ∧
      (c.layout.spansOf kind).get? name = some own ∧
        v.span = ⟨(Flattening.spanOf c kind).start + own.start, own.size⟩ := by
  obtain ⟨j, hindex, hj⟩ : ∃ j, (c.layout.spansOf kind).indexOf? name = some j ∧
      (Flattening.idsOf c kind)[j]? = some id := by
    cases kind <;> exact Option.bind_eq_some_iff.1 h
  obtain ⟨v, own, hv, hkind, howner, hentry, hspan⟩ := hm.exists_place hc hj
  obtain ⟨own', hentry'⟩ := Table.indexOf?_eq_some_iff.1 hindex
  obtain ⟨hname, -⟩ := Prod.mk.inj (Option.some.inj (hentry.symm.trans hentry'))
  refine ⟨v, own, hv, hkind, howner, hname, ?_, hspan⟩
  exact (Table.get?_eq_some_iff _ _ _).2 (hname ▸ List.mem_of_getElem? hentry)

/-- A component calls a variable by one name. -/
theorem Laid.eq_of_idOf? {kind : VariableKind} {name name' : String} (h : c.idOf? kind name = some id)
    (h' : c.idOf? kind name' = some id) : name = name' := by
  obtain ⟨u, -, hu, -, -, hlocal, -⟩ := hm.exists_of_idOf? hc h
  obtain ⟨u', -, hu', -, -, hlocal', -⟩ := hm.exists_of_idOf? hc h'
  obtain rfl := Option.some.inj (hu.symm.trans hu')
  exact hlocal.symm.trans hlocal'

end Names

section Rank

/-- Inputs come before the outputs of their component, and these before later components. -/
def rank (m : Model R M) (id : Nat) : Nat :=
  match m.variableAt? id with
  | some v => 2 * v.owner + match v.kind with
    | .input => 0
    | .output => 1
  | none => 0

variable (hm : m.Laid) (hforward : m.Forward)

include hm hforward

/-- Edges lead to what comes later. -/
theorem Laid.rank_lt_of_edge {e : Nat × Nat} (he : e ∈ m.graph.edges) :
    m.rank e.1 < m.rank e.2 := by
  rcases hm.mem_edges_iff.1 he with hsource |
    ⟨k, n, i, o, -, -, hi, hikind, hiowner, ho, hokind, hoowner⟩
  · obtain ⟨v, w, hv, hvkind, hw, hwkind, -⟩ := hm.matching _ _ hsource
    have := hforward _ _ v w hsource hv hw
    simp only [rank, hv, hvkind, hw, hwkind]
    omega
  · simp only [rank, hi, hikind, hiowner, ho, hokind, hoowner]
    omega

theorem Laid.rank_le_of_path {u w : Nat} (h : m.graph.Path u w) : m.rank u ≤ m.rank w := by
  induction h with
  | refl => exact Nat.le_refl _
  | tail _ he ih => exact ih.trans (hm.rank_lt_of_edge hforward he).le

end Rank

/-- An entry of a variable with a property. -/
def EntryOf (m : Model R M) (kind : VariableKind) (P : Nat → Prop) (p : Nat) : Prop :=
  ∃ id, m.holder? kind p = some id ∧ P id

/-- An entry that reads another one is joined to it by a connection. -/
theorem Laid.mem_edges_of_wire (hm : m.Laid) {p q : Nat} (h : m.wire p = some q) :
    ∃ source id, m.holder? .output q = some source ∧ m.holder? .input p = some id ∧
      (source, id) ∈ m.graph.edges := by
  obtain ⟨id, source, w, v, hid, hw, hpw, hsource, hv, hkind, hq, -⟩ := hm.of_wire h
  exact ⟨source, id, hkind ▸ hm.holder?_eq hv hq, hid, hm.mem_edges_iff.2 (.inl hsource)⟩

/-- Where an entry is reached, so are those that read it. -/
theorem Laid.reached_of_wire (hm : m.Laid) {P : Nat → Prop} {p q : Nat} (h : m.wire p = some q)
    (hq : m.EntryOf .output (m.Reached P) q) : m.EntryOf .input (m.Reached P) p := by
  obtain ⟨source, input, hsource, hinput, he⟩ := hm.mem_edges_of_wire h
  obtain ⟨id, hid, u, hu, hpath⟩ := hq
  obtain rfl := Option.some.inj (hid.symm.trans hsource)
  exact ⟨input, hinput, u, hu, hpath.tail he⟩

section Slopes

variable [ExactScalar R] {laws : Nat → AffineLaw R} (hm : m.Affine laws)

include hm

/-- **Where there is a slope, there is a dependency.** -/
theorem Affine.mem_edges_of_slope {r p : Nat} (h : (m.flow laws).slope r p ≠ 0) :
    ∃ k n input output, m.graph.components[k]? = some n ∧ m.ownerOf? .output r = some k ∧
      m.holder? .input p = some input ∧ m.holder? .output r = some output ∧
        (input, output) ∈ n.edges := by
  have hlaid := hm.laid
  obtain ⟨k, c, hc, hr, hp, hslope⟩ := hlaid.of_slope_flow_ne_zero h
  have hr : (Flattening.spanOf c .output).contains r = true := hr
  have hp : (Flattening.spanOf c .input).contains p = true := hp
  obtain ⟨output, v, houtput, -, hv, hvkind, hvowner, hvr⟩ := hlaid.exists_holder hc hr
  obtain ⟨input, w, hinput, -, hw, hwkind, hwowner, hwp⟩ := hlaid.exists_holder hc hp
  obtain ⟨n, d, hn, hnode⟩ := hlaid.exists_node hc
  obtain ⟨own, hown, hvid, hvspan⟩ := hlaid.exists_own hc hv hvowner
  obtain ⟨other, hother, hwid, hwspan⟩ := hlaid.exists_own hc hw hwowner
  rw [hvkind] at hown hvid hvspan
  rw [hwkind] at hother hwid hwspan
  refine ⟨k, n, input, output, hn, (hlaid.owner_output_iff hc).2 hr, hinput, houtput, ?_⟩
  refine hnode.mem_edges_of_dependsOn hwid hvid (.inr (.inr ?_))
  by_contra hnone
  have hzero := (hm.component k c hc).declared v.localName own w.localName other hown hother
    fun hmem => hnone (by
      obtain ⟨q, hq, hpair⟩ := List.mem_map.1 hmem
      exact ⟨q, hq, (Prod.mk.inj hpair).1, (Prod.mk.inj hpair).2⟩)
  rw [hvspan, Span.contains_iff] at hvr
  rw [hwspan, Span.contains_iff] at hwp
  simp only [Flattening.spanOf, Span.stop] at hvr hwp
  have hi := hzero (r - (c.outputs.start + own.start)) (by omega)
    (p - (c.inputs.start + other.start)) (by omega)
  rw [show own.start + (r - (c.outputs.start + own.start)) = r - c.outputs.start by omega,
    show other.start + (p - (c.inputs.start + other.start)) = p - c.inputs.start by omega] at hi
  exact hslope hi

/-- **Changes spread along paths only.** -/
theorem Affine.reached_of_tangent {scope : Span} {x y : Nat → R} {P : Nat → Prop}
    (hx : ∀ p, x p ≠ 0 → m.EntryOf .input (m.Reached P) p)
    (hy : ∀ r, y r ≠ 0 → m.EntryOf .output (m.Reached P) r) {r : Nat}
    (h : (m.flowIn laws scope).tangent x y r ≠ 0) : m.EntryOf .output (m.Reached P) r := by
  refine Flow.of_tangent_ne_zero (hm.ordered.within _) hx hy (fun r p hslope hp => ?_)
    (fun p q hwire hq => ?_) h
  · obtain ⟨k, n, input, output, hn, -, hinput, houtput, he⟩ := hm.mem_edges_of_slope hslope
    obtain ⟨id, hid, u, hu, hpath⟩ := hp
    obtain rfl := Option.some.inj (hid.symm.trans hinput)
    exact ⟨output, houtput, u, hu, hpath.tail (hm.laid.complete.mem_edges_of_component hn he)⟩
  · exact hm.laid.reached_of_wire (Option.filter_eq_some_iff.1 hwire).1 hq

/-- What an input is fed comes along a path as well. -/
theorem Affine.reached_of_feed {scope : Span} {x z : Nat → R} {P : Nat → Prop}
    (hx : ∀ p, x p ≠ 0 → m.EntryOf .input (m.Reached P) p)
    (hz : ∀ r, z r ≠ 0 → m.EntryOf .output (m.Reached P) r) {p : Nat}
    (h : (m.flowIn laws scope).feed x z p ≠ 0) : m.EntryOf .input (m.Reached P) p := by
  exact Flow.of_feed_ne_zero hx hz
    (fun p q hwire hq => hm.laid.reached_of_wire (Option.filter_eq_some_iff.1 hwire).1 hq) h

end Slopes

end Model

end Sensitivity
