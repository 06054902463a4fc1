import Mathlib
import Sensitivity.Proofs.Exact
import Sensitivity.Proofs.Flow
import Sensitivity.Proofs.Model.Indexing

/-!
# Single entries of a model

Every entry of the inputs and of the outputs belongs to one variable (`Model.holder?`), and an entry
of a connected input reads an entry of its source (`Model.wire`).

All of this is the same for real and for imaginary parts, which are two lanes of a vector
(`StateVector.lane`).
-/

namespace Sensitivity

/-- What an overwritten array holds, with a value for what lies beyond its end. -/
theorem Span.getD_overwrite {α : Type} {s : Span} {a values : Array α} (hfits : s.stop ≤ a.size)
    (hsize : values.size = s.size) (d : α) (i : Nat) :
    ((s.overwrite a values)[i]?).getD d =
      if s.contains i then (values[i - s.start]?).getD d else (a[i]?).getD d := by
  split
  · rename_i hi
    rw [Span.getElem?_overwrite_of_contains hi]
    rw [Span.contains_iff] at hi
    have hstop : s.stop = s.start + s.size := rfl
    have hget : i < a.size := by omega
    have hvalue : i - s.start < values.size := by omega
    simp [Array.getElem?_eq_getElem hget, Array.getD, hvalue]
  · rename_i hi
    rw [Span.getElem?_overwrite_of_not_contains s a values i (by simpa using hi)]

/-- What a slice holds, with a value for what lies beyond its end. -/
theorem Span.getD_slice {α : Type} {s : Span} {a : Array α} (d : α) {i : Nat} (hi : i < s.size) :
    ((s.slice a)[i]?).getD d = (a[s.start + i]?).getD d := by
  rw [Span.getElem?_slice, if_pos hi]

variable {R M : Type}

/-- What is added in the arithmetic of a mode. -/
def Mode.delta (mode : Mode) (δ : R) : Delta R :=
  match mode with
  | .real => .real δ
  | .complex => .imag δ

/-- The part of a value that is followed in a mode. -/
def Mode.part : Mode → Part
  | .real => .real
  | .complex => .imag

namespace StateVector

/-- The real or the imaginary parts of a vector; without a shadow there are none of the latter. -/
def lane (v : StateVector R) : Mode → Array R
  | .real => v.real
  | .complex => v.imag.getD #[]

theorem lane_copy (v w : StateVector R) (target source : Span) (mode : Mode) :
    (v.copy target w source).lane mode =
      target.overwrite (v.lane mode) (source.slice (w.lane mode)) := by
  cases mode with
  | real => rfl
  | complex =>
    have hnothing (a : Array R) : target.overwrite a (source.slice #[]) = a := by
      refine Array.ext_getElem? fun i => ?_
      simp [Span.overwrite, Span.slice]
    cases hv : v.imag with
    | none => simp [copy, lane, hv, Span.overwrite]
    | some im =>
      cases hw : w.imag with
      | none => simp [copy, lane, hv, hw, hnothing]
      | some other => simp [copy, lane, hv, hw]

/-- The real or imaginary part of an entry; zero beyond the end. -/
def entry [Scalar R] (v : StateVector R) (mode : Mode) (i : Nat) : R := ((v.lane mode)[i]?).getD 0

variable [ExactScalar R]

/-- Adding to an entry changes it in the lane of the mode. -/
theorem lane_of_perturb {v w : StateVector R} {refusal : String} {i : Nat} {δ : R}
    (mode : Mode) (h : v.perturb refusal i (mode.delta δ) = .ok w) :
    w.size = v.size ∧ i < (v.lane mode).size ∧ w.lane mode = (v.lane mode).modify i (· + δ) := by
  cases mode with
  | real =>
    simp only [Mode.delta, StateVector.perturb, Outcome.ofOption_eq_ok, addReal?,
      Option.ite_none_right_eq_some, Option.some.injEq] at h
    obtain ⟨hi, rfl⟩ := h
    exact ⟨Array.size_modify, hi, rfl⟩
  | complex =>
    simp only [Mode.delta, StateVector.perturb] at h
    split at h
    · rw [Outcome.ofOption_eq_ok, addImag?, Option.bind_eq_some_iff] at h
      obtain ⟨im, him, h⟩ := h
      simp only [Option.ite_none_right_eq_some, Option.some.injEq] at h
      obtain ⟨hi, rfl⟩ := h
      exact ⟨rfl, by simpa only [lane, him, Option.getD_some] using hi,
        by simp only [lane, him, Option.getD_some]⟩
    · cases h

theorem entry_of_perturb {v w : StateVector R} {refusal : String} {i : Nat} {δ : R} {mode : Mode}
    (h : v.perturb refusal i (mode.delta δ) = .ok w) (p : Nat) :
    w.entry mode p = v.entry mode p + if p = i then δ else 0 := by
  obtain ⟨-, hi, hlane⟩ := lane_of_perturb mode h
  rw [entry, hlane, Array.getElem?_modify, entry]
  split
  · rename_i hp
    subst hp
    rw [if_pos rfl, Array.getElem?_eq_getElem hi, Option.map_some, Option.getD_some,
      Option.getD_some]
  · rename_i hp
    rw [if_neg fun h => hp h.symm, add_zero]

/-- The part of a value that is read are entries of the lane. -/
theorem getElem?_readPart {v : StateVector R} {span : Span} {mode : Mode}
    (hstop : span.stop ≤ (v.lane mode).size) (i : Nat) :
    (v.readPart span mode.part)[i]? =
      if i < span.size then some (v.entry mode (span.start + i)) else none := by
  -- without a shadow there are no entries to read
  have hread : v.readPart span mode.part = (span.slice (v.lane mode)).toList := by
    cases mode with
    | real => rfl
    | complex =>
      simp only [readPart, Mode.part, readImag, lane] at hstop ⊢
      cases him : v.imag with
      | some im => rfl
      | none =>
        have hzero : span.size = 0 := by
          simp only [him, Option.getD_none, List.size_toArray, List.length_nil, Span.stop] at hstop
          omega
        simp [Span.slice, Span.stop, hzero]
  rw [hread, Array.getElem?_toList, Span.getElem?_slice]
  split
  · have hlt : span.start + i < (v.lane mode).size := by
      rw [Span.stop] at hstop
      omega
    rw [entry, Array.getElem?_eq_getElem hlt, Option.getD_some]
  · rfl

end StateVector

namespace Model

variable (m : Model R M)

/-- The variable of a kind that an entry belongs to. -/
def holder? (kind : VariableKind) (p : Nat) : Option Nat :=
  (List.range m.variableTable.values.length).find? fun id =>
    (m.variableAt? id).any fun v => v.kind = kind && v.span.contains p

/-- The component that an entry belongs to. -/
def ownerOf? (kind : VariableKind) (p : Nat) : Option Nat :=
  ((m.holder? kind p).bind m.variableAt?).map (·.owner)

/-- The entry of the outputs that an entry of the inputs reads. -/
def wire (p : Nat) : Option Nat := do
  let id ← m.holder? .input p
  let w ← m.variableAt? id
  let v ← (m.source? id).bind m.variableAt?
  return v.start + (p - w.start)

/-- Whether an entry of the outputs belongs to a component in scope. -/
def inScope (scope : Span) (q : Nat) : Bool := (m.ownerOf? .output q).any scope.contains

/-- The vectors of a state, and a lane of them, are as long as the model says. -/
structure Sized (mode : Mode) (s : ModelState R M) : Prop where
  fits : m.Fits s
  lane : ∀ kind, ((s.vector kind).lane mode).size = m.lengthOf kind

variable {m} {s : ModelState R M} {mode : Mode} {kind : VariableKind} {id p k : Nat}
  {v : ModelVariable R} {c : ModelComponent R M}

theorem exists_of_holder? (h : m.holder? kind p = some id) :
    ∃ v, m.variableAt? id = some v ∧ v.kind = kind ∧ v.span.contains p = true := by
  have hany : (m.variableAt? id).any (fun v => v.kind = kind && v.span.contains p) = true :=
    (List.find?_eq_some_iff_append.1 h).1
  obtain ⟨v, hv, hboth⟩ := (Option.any_eq_true _ _).1 hany
  obtain ⟨hkind, hcontains⟩ := Bool.and_eq_true_iff.1 hboth
  exact ⟨v, hv, of_decide_eq_true hkind, hcontains⟩

section Laid

variable (hm : m.Laid)

include hm

/-- An entry belongs to one variable only. -/
theorem Laid.holder?_eq (hv : m.variableAt? id = some v) (hp : v.span.contains p = true) :
    m.holder? v.kind p = some id := by
  have hmem : id ∈ List.range m.variableTable.values.length :=
    List.mem_range.2 (List.getElem?_eq_some_iff.1 hv).1
  cases hfound : m.holder? v.kind p with
  | none =>
    have := List.find?_eq_none.1 hfound id hmem
    rw [hv] at this
    simp [hp] at this
  | some other =>
    obtain ⟨w, hw, hkind, hcontains⟩ := exists_of_holder? hfound
    by_contra hne
    have := hm.apart hw hv (fun h => hne (congrArg some h)) hkind p hcontains
    rw [hp] at this
    cases this

theorem Laid.ownerOf?_eq (hv : m.variableAt? id = some v) (hp : v.span.contains p = true) :
    m.ownerOf? v.kind p = some v.owner := by
  rw [ownerOf?, hm.holder?_eq hv hp, Option.bind_some, hv, Option.map_some]

/-- An entry in the span of a component belongs to a variable of the component. -/
theorem Laid.exists_holder (hc : m.components[k]? = some c)
    (hp : (Flattening.spanOf c kind).contains p = true) :
    ∃ id v, m.holder? kind p = some id ∧ id ∈ Flattening.idsOf c kind ∧
      m.variableAt? id = some v ∧ v.kind = kind ∧ v.owner = k ∧ v.span.contains p = true := by
  obtain ⟨n, d, -, hlaid⟩ := hm.exists_node hc
  obtain ⟨id, hid, v, hv, hcontains⟩ : ∃ id ∈ Flattening.idsOf c kind, ∃ v,
      m.variableAt? id = some v ∧ v.span.contains p = true := by
    cases kind
    · exact hlaid.inputs.exists_contains hp
    · exact hlaid.outputs.exists_contains hp
  obtain ⟨w, hw, hkind, howner⟩ : ∃ w, m.variableAt? id = some w ∧ w.kind = kind ∧ w.owner = k := by
    cases kind
    · exact hlaid.inputs.of_mem hid
    · exact hlaid.outputs.of_mem hid
  obtain rfl := Option.some.inj (hv.symm.trans hw)
  exact ⟨id, v, hkind ▸ hm.holder?_eq hv hcontains, hid, hv, hkind, howner, hcontains⟩

/-- A variable of a component lies in the span of the component. -/
theorem Laid.within_spanOf (hc : m.components[k]? = some c) (hv : m.variableAt? id = some v)
    (howner : v.owner = k) : v.span.Within (Flattening.spanOf c v.kind) := by
  obtain ⟨d, -, -, hfilled⟩ := hm.exists_filled hc
  refine (hfilled v.kind).consecutive.bounds.2 v.span (List.mem_filterMap.2 ⟨id, ?_, ?_⟩)
  · exact (hm.mem_idsOf_iff hc hv).2 howner
  · rw [hv, Option.map_some]

/-- The entries in the span of a component are those that belong to it. -/
theorem Laid.ownerOf?_iff (hc : m.components[k]? = some c) :
    m.ownerOf? kind p = some k ↔ (Flattening.spanOf c kind).contains p = true := by
  constructor
  · intro h
    obtain ⟨v, hv, howner⟩ := Option.map_eq_some_iff.1 h
    obtain ⟨id, hid, hv⟩ := Option.bind_eq_some_iff.1 hv
    obtain ⟨w, hw, hkind, hcontains⟩ := exists_of_holder? hid
    obtain rfl := Option.some.inj (hv.symm.trans hw)
    obtain ⟨hstart, hstop⟩ := hm.within_spanOf hc hv howner
    rw [hkind] at hstart hstop
    rw [Span.contains_iff] at hcontains ⊢
    omega
  · intro h
    obtain ⟨id, v, hid, -, hv, hkind, howner, -⟩ := hm.exists_holder hc h
    rw [ownerOf?, hid, Option.bind_some, hv, Option.map_some, howner]

theorem Laid.owner_output_iff (hc : m.components[k]? = some c) :
    m.ownerOf? .output p = some k ↔ c.outputs.contains p = true := hm.ownerOf?_iff hc

theorem Laid.owner_input_iff (hc : m.components[k]? = some c) :
    m.ownerOf? .input p = some k ↔ c.inputs.contains p = true := hm.ownerOf?_iff hc

/-- An owner is a component, and the entry is in its span. -/
theorem Laid.exists_component (h : m.ownerOf? kind p = some k) :
    ∃ c, m.components[k]? = some c ∧ (Flattening.spanOf c kind).contains p = true := by
  obtain ⟨v, hv, howner⟩ := Option.map_eq_some_iff.1 h
  obtain ⟨id, -, hid⟩ := Option.bind_eq_some_iff.1 hv
  obtain ⟨c, hc, -⟩ := hm.owned id v hid
  rw [howner] at hc
  exact ⟨c, hc, (hm.ownerOf?_iff hc).1 h⟩

/-- An entry of an input without a source reads nothing. -/
theorem Laid.wire_of_none (hv : m.variableAt? id = some v) (hkind : v.kind = .input)
    (hp : v.span.contains p = true) (hsource : m.source? id = none) : m.wire p = none := by
  have hholder := hm.holder?_eq hv hp
  rw [hkind] at hholder
  simp [wire, hholder, hv, hsource]

/-- An entry of a connected input reads the same entry of its source. -/
theorem Laid.wire_of_source {source : Nat} {w : ModelVariable R} (hw : m.variableAt? id = some w)
    (hp : w.span.contains p = true) (hsource : m.source? id = some source)
    (hv : m.variableAt? source = some v) : m.wire p = some (v.start + (p - w.start)) ∧
      v.kind = .output ∧ v.span.contains (v.start + (p - w.start)) = true := by
  obtain ⟨v', w', hv', hvkind, hw', hwkind, hsize⟩ := hm.matching _ _ hsource
  obtain rfl := Option.some.inj (hv.symm.trans hv')
  obtain rfl := Option.some.inj (hw.symm.trans hw')
  have hholder := hm.holder?_eq hw hp
  rw [hwkind] at hholder
  refine ⟨by simp [wire, hholder, hw, hsource, hv], hvkind, ?_⟩
  rw [Span.contains_iff] at hp ⊢
  simp only [ModelVariable.span, Span.stop] at hp ⊢
  omega

/-- An entry that reads another one belongs to a connected input. -/
theorem Laid.of_wire {q : Nat} (h : m.wire p = some q) : ∃ id source w v,
    m.holder? .input p = some id ∧ m.variableAt? id = some w ∧ w.span.contains p = true ∧
      m.source? id = some source ∧ m.variableAt? source = some v ∧ v.kind = .output ∧
      v.span.contains q = true ∧ q = v.start + (p - w.start) := by
  simp only [wire, Option.bind_eq_bind, Option.bind_eq_some_iff] at h
  obtain ⟨id, hid, w, hw, v, ⟨source, hsource, hv⟩, hq⟩ := h
  obtain ⟨w', hw', -, hcontains⟩ := exists_of_holder? hid
  obtain rfl := Option.some.inj (hw.symm.trans hw')
  obtain ⟨-, hkind, hinside⟩ := hm.wire_of_source hw hcontains hsource hv
  obtain rfl := Option.some.inj hq
  exact ⟨id, source, w, v, hid, hw, hcontains, hsource, hv, hkind, hinside, rfl⟩

/-- What is read and what reads it belong to components. -/
theorem Laid.exists_owners_of_wire {q : Nat} (h : m.wire p = some q) :
    ∃ k j, m.ownerOf? .input p = some k ∧ m.ownerOf? .output q = some j := by
  obtain ⟨id, source, w, v, hid, hw, -, -, hv, hkind, hq, -⟩ := hm.of_wire h
  have howner := hm.ownerOf?_eq hv hq
  rw [hkind] at howner
  exact ⟨w.owner, v.owner, by rw [ownerOf?, hid, Option.bind_some, hw, Option.map_some], howner⟩

/-- What is beyond the end of a vector belongs to no variable. -/
theorem Laid.lt_of_holder? (h : m.holder? kind p = some id) : p < m.lengthOf kind := by
  obtain ⟨v, hv, hkind, hcontains⟩ := exists_of_holder? h
  have hstop := hm.stop_le hv
  rw [Span.contains_iff] at hcontains
  rw [hkind] at hstop
  omega

end Laid

end Model

end Sensitivity
