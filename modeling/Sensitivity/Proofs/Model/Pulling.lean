import Sensitivity.Proofs.Model.Converging
import Sensitivity.Proofs.Model.Supplying

/-!
# What pulled inputs hold

Pulling copies imaginary parts along with real ones. A connected input that was pulled holds what its
source holds (`Model.Laid.fed_pull`), in a state whose vectors are those of the model
(`Model.Formed`), and nothing outside the inputs that are connected changes
(`Model.agreeOn_pull`). Pulling an input that already holds what its source holds does nothing
(`Model.Laid.pull_of_fed`).
-/

namespace Sensitivity

variable {R M : Type}

namespace StateVector

/-- A span of a vector holds what a span of another vector holds, imaginary parts included. -/
def Matches (v : StateVector R) (target : Span) (w : StateVector R) (source : Span) : Prop :=
  target.slice v.real = source.slice w.real ∧ v.imag.map target.slice = w.imag.map source.slice

variable {v v' w w' : StateVector R} {target source span : Span} {n : Nat} {complex : Bool}

theorem Matches.congr (h : v.Matches target w source) (hv : v'.AgreeOn target v)
    (hw : w'.AgreeOn source w) : v'.Matches target w' source :=
  ⟨(hv.1.trans h.1).trans hw.1.symm, (hv.2.trans h.2).trans hw.2.symm⟩

/-- A copy is not seen in a span apart. -/
theorem agreeOn_copy (h : span.Apart target) : (v.copy target w source).AgreeOn span v := by
  refine ⟨Span.slice_overwrite_of_apart h, ?_⟩
  cases hv : v.imag with
  | none => cases hw : w.imag <;> simp [copy, hv, hw]
  | some im => cases hw : w.imag <;> simp [copy, hv, hw, Span.slice_overwrite_of_apart h]

/-- Copying what is there already does nothing. -/
theorem copy_of_matches (h : v.Matches target w source) : v.copy target w source = v := by
  obtain ⟨hreal, himag⟩ := h
  refine eq_iff.2 ⟨?_, ?_⟩
  · exact (congrArg (target.overwrite v.real) hreal.symm).trans (Span.overwrite_slice _ _)
  · cases hv : v.imag with
    | none => cases hw : w.imag <;> simp [copy, hv, hw]
    | some im =>
      cases hw : w.imag with
      | none => simp [copy, hv, hw]
      | some jm =>
        simp only [hv, hw, Option.map_some, Option.some.injEq] at himag
        simp only [copy, hv, hw, ← himag, Span.overwrite_slice]

/-- A copied span holds what its source holds where both fit. -/
theorem matches_copy (hv : v.Covers target) (hw : w.Covers source)
    (hshadow : v.isComplex = w.isComplex) (hsize : source.size = target.size) :
    (v.copy target w source).Matches target w source := by
  refine ⟨readReal_copy_self hv.1 hw.1 hsize, ?_⟩
  cases hv' : v.imag with
  | none => cases hw' : w.imag <;> simp_all [isComplex, copy]
  | some im =>
    cases hw' : w.imag with
    | none => simp [isComplex, hv', hw'] at hshadow
    | some jm =>
      have hslice := Span.size_slice (hw.2 jm hw')
      simp [copy, hv', hw', Span.slice_overwrite_self (hv.2 im hv') (hslice.trans hsize)]

theorem HasLength.copy (h : v.HasLength n complex) (target source : Span) :
    (v.copy target w source).HasLength n complex := by
  refine h.congr (size_copy _ _ _ _) ?_
  cases hv : v.imag with
  | none => cases hw : w.imag <;> simp [StateVector.copy, hv, hw]
  | some im => cases hw : w.imag <;> simp [StateVector.copy, hv, hw]

end StateVector

namespace Model

variable (m : Model R M)

/-- The vectors of a state are those of a model, and something is kept for each of its components. -/
structure Formed (s : ModelState R M) : Prop where
  inputs : s.inputs.HasLength m.inputLength m.complex
  outputs : s.outputs.HasLength m.outputLength m.complex
  components : s.components.length = m.components.length

/-- An input holds what its source holds, if it is connected. -/
def Fed (s : ModelState R M) (target : Nat) : Prop := ∀ source v w,
  m.source? target = some source → m.variableAt? source = some v → m.variableAt? target = some w →
    s.inputs.Matches w.span s.outputs v.span

variable {m} {s t : ModelState R M} {c d : ModelComponent R M} {id j k : Nat} {span : Span}

theorem Formed.congr (h : m.Formed s) (hinputs : t.inputs.HasLength m.inputLength m.complex)
    (houtputs : t.outputs = s.outputs) (hcomponents : t.components = s.components) : m.Formed t :=
  ⟨hinputs, houtputs ▸ h.outputs, hcomponents ▸ h.components⟩

theorem outputs_pullInput (scope : Span) (s : ModelState R M) (id : Nat) :
    (m.pullInput scope s id).outputs = s.outputs := by
  unfold pullInput
  split
  · split <;> rfl
  · rfl

theorem Formed.pullInput (h : m.Formed s) (scope : Span) (id : Nat) :
    m.Formed (m.pullInput scope s id) := by
  unfold Model.pullInput
  split
  · split
    · exact h.congr (h.inputs.copy _ _) rfl rfl
    · exact h
  · exact h

theorem Formed.pull (h : m.Formed s) (scope : Span) (c : ModelComponent R M) :
    m.Formed (m.pull scope c s) := by
  unfold Model.pull
  induction c.inputIds generalizing s with
  | nil => exact h
  | cons id rest ih => exact ih (h.pullInput scope id)

/-- Pulling an input is seen in its own span only, and not at all without a source. -/
theorem agreeOn_pullInput (scope : Span) (s : ModelState R M)
    (h : m.source? id = none ∨ ∀ w, m.variableAt? id = some w → span.Apart w.span) :
    (m.pullInput scope s id).inputs.AgreeOn span s.inputs := by
  rcases h with h | h
  · rw [pullInput_of_none _ _ h]
    exact .refl _ _
  · unfold pullInput
    split
    · rename_i hw _
      split
      · exact StateVector.agreeOn_copy (h _ hw)
      · exact .refl _ _
    · exact .refl _ _

/-- **Pulling is seen in the connected inputs of the component only.** -/
theorem agreeOn_pull (scope : Span) (s : ModelState R M) (h : ∀ id ∈ c.inputIds,
      m.source? id = none ∨ ∀ w, m.variableAt? id = some w → span.Apart w.span) :
    (m.pull scope c s).inputs.AgreeOn span s.inputs := by
  unfold pull
  generalize c.inputIds = ids at h
  induction ids generalizing s with
  | nil => exact .refl _ _
  | cons id rest ih =>
    have hrest := ih (m.pullInput scope s id) fun other hother => h other (List.mem_cons_of_mem id hother)
    exact hrest.trans (agreeOn_pullInput scope s (h id List.mem_cons_self))

section Laid

variable (hm : m.Laid)

include hm

/-- The spans of two components have no entry in common. -/
theorem Laid.apart_spanOf (hc : m.components[k]? = some c) (hd : m.components[j]? = some d)
    (hne : k ≠ j) (kind : VariableKind) :
    (Flattening.spanOf c kind).Apart (Flattening.spanOf d kind) := by
  intro i hi
  by_contra hother
  rw [Bool.not_eq_false] at hother
  have howner := (hm.ownerOf?_iff hc).2 hi
  rw [(hm.ownerOf?_iff hd).2 hother] at howner
  exact hne (Option.some.inj howner).symm

/-- What stands apart from the inputs of a component does not change when they are pulled. -/
theorem Laid.agreeOn_pull_of_apart (hc : m.components[k]? = some c) (scope : Span)
    (s : ModelState R M) (h : span.Apart c.inputs) :
    (m.pull scope c s).inputs.AgreeOn span s.inputs := by
  obtain ⟨n, d, -, hlaid⟩ := hm.exists_node hc
  refine agreeOn_pull scope s fun id hid => .inr fun w hw i hi => ?_
  obtain ⟨w', hw', hkind, howner⟩ := hlaid.inputs.of_mem hid
  obtain rfl := Option.some.inj (hw.symm.trans hw')
  obtain ⟨hstart, hstop⟩ := hm.within_spanOf hc hw howner
  rw [hkind] at hstart hstop
  have hout := h i hi
  rw [Bool.eq_false_iff, ne_eq, Span.contains_iff] at hout ⊢
  intro hin
  exact hout ⟨hstart.trans hin.1, hin.2.trans_le hstop⟩

/-- An input that is not connected, or that belongs to another component, is not pulled. -/
theorem Laid.agreeOn_pull_of_other (hc : m.components[k]? = some c) (scope : Span)
    (s : ModelState R M) {w : ModelVariable R} (hw : m.variableAt? id = some w)
    (hkind : w.kind = .input) (h : m.source? id = none ∨ w.owner ≠ k) :
    (m.pull scope c s).inputs.AgreeOn w.span s.inputs := by
  obtain ⟨n, d, -, hlaid⟩ := hm.exists_node hc
  refine agreeOn_pull scope s fun other hmem => ?_
  obtain ⟨x, hx, hxkind, howner⟩ := hlaid.inputs.of_mem hmem
  by_cases hid : other = id
  · subst hid
    obtain rfl := Option.some.inj (hw.symm.trans hx)
    exact h.imp_right fun hne => absurd howner hne
  · refine .inr fun x' hx' => ?_
    obtain rfl := Option.some.inj (hx.symm.trans hx')
    exact hm.apart hw hx (Ne.symm hid) (hkind.trans hxkind.symm)

/-- What a pulled input, or one that is not pulled, holds afterwards. -/
theorem Laid.fed_pullInput (hs : m.Formed s) (h : id = k ∨ m.Fed s id) :
    m.Fed (m.pullInput m.root.components s k) id := by
  intro source v w hsource hv hw
  obtain ⟨v', w', hv', hvkind, hw', hwkind, hsize⟩ := hm.matching _ _ hsource
  obtain rfl := Option.some.inj (hv.symm.trans hv')
  obtain rfl := Option.some.inj (hw.symm.trans hw')
  by_cases hk : id = k
  · subst hk
    rw [hm.pullInput_of_source s hsource hv hw]
    have htarget : w.span.stop ≤ m.lengthOf .input := hwkind ▸ hm.stop_le hw
    have hfrom : v.span.stop ≤ m.lengthOf .output := hvkind ▸ hm.stop_le hv
    exact StateVector.matches_copy (hs.inputs.covers htarget) (hs.outputs.covers hfrom)
      (hs.inputs.isComplex.trans hs.outputs.isComplex.symm) hsize
  · have hkept := (h.resolve_left hk) source v w hsource hv hw
    rw [outputs_pullInput]
    refine hkept.congr ?_ (.refl _ _)
    cases hpulled : m.source? k with
    | none => exact agreeOn_pullInput _ s (.inl hpulled)
    | some other =>
      obtain ⟨-, x, -, -, hx, hxkind, -⟩ := hm.matching _ _ hpulled
      refine agreeOn_pullInput _ s (.inr fun x' hx' => ?_)
      obtain rfl := Option.some.inj (hx.symm.trans hx')
      exact hm.apart hw hx hk (hwkind.trans hxkind.symm)

/-- **Pulled inputs hold what their sources hold**, and inputs that did before still do. -/
theorem Laid.fed_pull (hs : m.Formed s) (h : id ∈ c.inputIds ∨ m.Fed s id) :
    m.Fed (m.pull m.root.components c s) id := by
  unfold pull
  generalize c.inputIds = ids at h
  induction ids generalizing s with
  | nil => exact h.resolve_left List.not_mem_nil
  | cons first rest ih =>
    refine ih (hs.pullInput _ first) ?_
    rw [List.mem_cons, or_assoc] at h
    rcases h with h | h | h
    · exact .inr (hm.fed_pullInput hs (.inl h))
    · exact .inl h
    · exact .inr (hm.fed_pullInput hs (.inr h))

/-- **Pulling what is there already does nothing.** -/
theorem Laid.pull_of_fed (h : ∀ id ∈ c.inputIds, m.Fed s id) :
    m.pull m.root.components c s = s := by
  unfold pull
  generalize c.inputIds = ids at h
  induction ids with
  | nil => rfl
  | cons id rest ih =>
    have hfirst : m.pullInput m.root.components s id = s := by
      cases hsource : m.source? id with
      | none => exact pullInput_of_none _ _ hsource
      | some source =>
        obtain ⟨v, w, hv, -, hw, -, -⟩ := hm.matching _ _ hsource
        rw [hm.pullInput_of_source s hsource hv hw, StateVector.copy_of_matches
          (h id List.mem_cons_self source v w hsource hv hw)]
    rw [List.foldl_cons, hfirst]
    exact ih fun other hother => h other (List.mem_cons_of_mem id hother)

end Laid

end Model

end Sensitivity
