import Sensitivity.Proofs.Model.Linearizing
import Sensitivity.Proofs.Model.Pulling

/-!
# Groups in isolation

A group that is evaluated by itself neither touches nor sees the rest of the model. Two runs of it,
from states that may differ outside the variables of its members, are followed side by side
(`Model.Isolated`): at every step the states have the same entries inside, each of them has the
entries outside that it started with, and whatever else they keep is the same. Pulling in the scope
of the group reads outputs of members only, a component reads and writes its own variables, its
linearization reads them too, and the unknowns of a Newton iteration inside the group are outputs of
members. So the two runs have the same outcome (`Model.isolated_of_ofGroup`).
-/

namespace Sensitivity

variable {R M : Type}

namespace StateVector

/-- Two vectors have the same entries at some places, imaginary parts included. -/
structure AgreeAt (P : Nat → Prop) (v w : StateVector R) : Prop where
  real : ∀ i, P i → v.real[i]? = w.real[i]?
  imag : Option.Rel (fun im jm : Array R => ∀ i, P i → im[i]? = jm[i]?) v.imag w.imag

variable {P Q : Nat → Prop} {s source target : Span} {u v v' w w' : StateVector R}

theorem AgreeAt.refl (P : Nat → Prop) (v : StateVector R) : v.AgreeAt P v := by
  refine ⟨fun _ _ => rfl, ?_⟩
  cases v.imag with
  | none => exact .none
  | some im => exact .some fun _ _ => rfl

theorem AgreeAt.trans (h : u.AgreeAt P v) (h' : v.AgreeAt P w) : u.AgreeAt P w := by
  refine ⟨fun i hi => (h.real i hi).trans (h'.real i hi), ?_⟩
  have himag := h.imag
  have himag' := h'.imag
  generalize u.imag = a at himag
  generalize v.imag = b at himag himag'
  generalize w.imag = c at himag'
  cases himag with
  | none => exact himag'
  | some hab =>
    cases himag' with
    | some hbc => exact .some fun i hi => (hab i hi).trans (hbc i hi)

/-- Vectors that agree at all places of a span have the same slice there. -/
theorem AgreeAt.agreeOn (h : v.AgreeAt P w) (hs : ∀ i, s.contains i = true → P i) :
    v.AgreeOn s w := by
  refine ⟨Span.slice_eq_iff.2 fun i hi => h.real i (hs i hi), ?_⟩
  have himag := h.imag
  generalize v.imag = a at himag
  generalize w.imag = b at himag
  cases himag with
  | none => rfl
  | some hab => exact congrArg some (Span.slice_eq_iff.2 fun i hi => hab i (hs i hi))

theorem AgreeOn.readImag [Scalar R] (h : v.AgreeOn s w) : v.readImag s = w.readImag s :=
  readImag_congr h.2

theorem AgreeOn.readComplex [Scalar R] (h : v.AgreeOn s w) : v.readComplex s = w.readComplex s := by
  rw [StateVector.readComplex, StateVector.readComplex, h.readReal, h.readImag]

/-- Overwriting a span with some values is the same at each place where the arrays are. -/
theorem getElem?_overwrite_congr {a b values : Array R} {i : Nat} (h : a[i]? = b[i]?) (s : Span) :
    (s.overwrite a values)[i]? = (s.overwrite b values)[i]? := by
  cases hi : s.contains i with
  | true => rw [Span.getElem?_overwrite_of_contains hi, Span.getElem?_overwrite_of_contains hi, h]
  | false =>
    rw [Span.getElem?_overwrite_of_not_contains _ _ _ i hi,
      Span.getElem?_overwrite_of_not_contains _ _ _ i hi, h]

theorem AgreeAt.writeReal (h : v.AgreeAt P w) (s : Span) (values : Array R) :
    (v.writeReal s values).AgreeAt P (w.writeReal s values) :=
  ⟨fun i hi => getElem?_overwrite_congr (h.real i hi) s, h.imag⟩

theorem AgreeAt.writeImag (h : v.AgreeAt P w) (s : Span) (values : Array R) :
    (v.writeImag s values).AgreeAt P (w.writeImag s values) := by
  refine ⟨h.real, ?_⟩
  have himag := h.imag
  simp only [StateVector.writeImag]
  generalize v.imag = a at himag
  generalize w.imag = b at himag
  cases himag with
  | none => exact .none
  | some hab => exact .some fun i hi => getElem?_overwrite_congr (hab i hi) s

/-- Places outside a span keep their entries when it is written. -/
theorem agreeAt_writeReal (h : ∀ i, P i → s.contains i = false) (v : StateVector R)
    (values : Array R) : (v.writeReal s values).AgreeAt P v :=
  ⟨fun i hi => Span.getElem?_overwrite_of_not_contains _ _ _ i (h i hi), (AgreeAt.refl P v).imag⟩

theorem agreeAt_writeImag (h : ∀ i, P i → s.contains i = false) (v : StateVector R)
    (values : Array R) : (v.writeImag s values).AgreeAt P v := by
  refine ⟨fun _ _ => rfl, ?_⟩
  simp only [StateVector.writeImag]
  cases v.imag with
  | none => exact .none
  | some im => exact .some fun i hi => Span.getElem?_overwrite_of_not_contains _ _ _ i (h i hi)

theorem AgreeAt.copy (h : v.AgreeAt P w) (hsource : v'.AgreeOn source w') (target : Span) :
    (v.copy target v' source).AgreeAt P (w.copy target w' source) := by
  obtain ⟨hreal, himag⟩ := hsource
  refine ⟨fun i hi => ?_, ?_⟩
  · simp only [StateVector.copy, hreal]
    exact getElem?_overwrite_congr (h.real i hi) target
  · have hrel := h.imag
    simp only [StateVector.copy]
    generalize v.imag = a at hrel
    generalize w.imag = b at hrel
    cases hrel with
    | none => exact .none
    | some hab =>
      cases hv : v'.imag <;> cases hw : w'.imag <;>
        simp only [hv, hw, Option.map_some, Option.map_none, reduceCtorEq, Option.some.injEq] at himag
      · exact .some hab
      · refine .some fun i hi => ?_
        rw [himag]
        exact getElem?_overwrite_congr (hab i hi) target

theorem agreeAt_copy (h : ∀ i, P i → target.contains i = false) (v v' : StateVector R)
    (source : Span) : (v.copy target v' source).AgreeAt P v := by
  refine ⟨fun i hi => Span.getElem?_overwrite_of_not_contains _ _ _ i (h i hi), ?_⟩
  simp only [StateVector.copy]
  cases v.imag with
  | none => exact .none
  | some im =>
    cases v'.imag with
    | none => exact .some fun _ _ => rfl
    | some jm => exact .some fun i hi => Span.getElem?_overwrite_of_not_contains _ _ _ i (h i hi)

end StateVector

/-- An action does the same in the same state. -/
theorem Action.twins_self {σ ε α : Type} (a : Action σ ε α) : Action.Twins Eq a a := by
  rintro s _ rfl
  rcases a.perform s with ⟨(e | _) | x, t⟩
  · exact .error rfl
  · exact .breach
  · exact .value ⟨rfl, rfl⟩

namespace ModelState

/-- The values and the residuals of all variables. -/
def vectors (s : ModelState R M) : StateVector R × StateVector R × StateVector R :=
  (s.inputs, s.outputs, s.residuals)

/-- Whatever a state keeps beside them. -/
def besides (s : ModelState R M) : ActivationStack R × Diagnostics ×
    List (ComponentState R M) × List (Option (Scheme R)) × Option (List (Request R)) :=
  (s.stack, s.diagnostics, s.components, s.schemes, s.rootRequests)

/-- All vectors of two states have the same entries at some places. -/
structure AgreeAt (P : VariableKind → Nat → Prop) (s t : ModelState R M) : Prop where
  inputs : s.inputs.AgreeAt (P .input) t.inputs
  outputs : s.outputs.AgreeAt (P .output) t.outputs
  residuals : s.residuals.AgreeAt (P .output) t.residuals

variable {P : VariableKind → Nat → Prop} {s s' t t' : ModelState R M}

theorem AgreeAt.refl (P : VariableKind → Nat → Prop) (s : ModelState R M) : s.AgreeAt P s :=
  ⟨.refl _ _, .refl _ _, .refl _ _⟩

theorem AgreeAt.congr (h : s.AgreeAt P t) (hs : s'.vectors = s.vectors) (ht : t'.vectors = t.vectors) :
    s'.AgreeAt P t' := by
  simp only [vectors, Prod.mk.injEq] at hs ht
  obtain ⟨his, hos, hrs⟩ := hs
  obtain ⟨hit, hot, hrt⟩ := ht
  exact ⟨his ▸ hit ▸ h.inputs, hos ▸ hot ▸ h.outputs, hrs ▸ hrt ▸ h.residuals⟩

end ModelState

namespace Schedule

/-- The groups inside a group of a schedule are groups of the schedule. -/
theorem groups_subset {schedule body : Schedule R} {g : ModelGroup R}
    (h : (g, body) ∈ schedule.groups) : ∀ e ∈ body.groups, e ∈ schedule.groups := by
  induction schedule with
  | done => cases h
  | component _ _ ih => exact ih h
  | group x inner rest ihInner ihRest =>
    intro e he
    rcases List.mem_cons.1 h with h | h
    · obtain ⟨rfl, rfl⟩ := Prod.mk.inj h
      exact List.mem_cons_of_mem _ (List.mem_append_left _ he)
    · rcases List.mem_append.1 h with h | h
      · exact List.mem_cons_of_mem _ (List.mem_append_left _ (ihInner h e he))
      · exact List.mem_cons_of_mem _ (List.mem_append_right _ (ihRest h e he))

end Schedule

namespace Model

variable (m : Model R M)

/-- Whether an entry belongs to a member of a group. -/
def inGroup (g : ModelGroup R) (kind : VariableKind) (i : Nat) : Bool :=
  g.members.any fun k => m.components[k]?.any fun c => (Flattening.spanOf c kind).contains i

/-- States that differ in variables outside a group at most. -/
structure AlikeIn (g : ModelGroup R) (s t : ModelState R M) : Prop where
  besides_eq : s.besides = t.besides
  inside : s.AgreeAt (fun kind i => m.inGroup g kind i = true) t

/-- States on the way of two runs of a group: they differ outside the group at most, and there they
are as each of the runs started. -/
structure Isolated (g : ModelGroup R) (anchors : ModelState R M × ModelState R M)
    (s t : ModelState R M) : Prop extends m.AlikeIn g s t where
  left : s.AgreeAt (fun kind i => m.inGroup g kind i = false) anchors.1
  right : t.AgreeAt (fun kind i => m.inGroup g kind i = false) anchors.2

variable {m} {g : ModelGroup R} {anchors : ModelState R M × ModelState R M} {s s' t t' : ModelState R M}
  {c : ModelComponent R M} {k : Nat} {kind : VariableKind} {i : Nat} {mode : Mode}

theorem mem_members_iff {g : ModelGroup R} {k : Nat} : k ∈ g.members ↔ g.components.contains k = true := by
  rw [ModelGroup.members, Span.positions, List.mem_range'_1, Span.contains_iff]
  rfl

/-- The entries of a member are inside. -/
theorem inGroup_of_contains (hk : k ∈ g.members) (hc : m.components[k]? = some c)
    (hi : (Flattening.spanOf c kind).contains i = true) : m.inGroup g kind i = true :=
  List.any_eq_true.2 ⟨k, hk, by rwa [hc, Option.any_some]⟩

/-- What is outside is in no span of a member. -/
theorem contains_eq_false (hk : k ∈ g.members) (hc : m.components[k]? = some c)
    (hi : m.inGroup g kind i = false) : (Flattening.spanOf c kind).contains i = false := by
  rw [Bool.eq_false_iff] at hi ⊢
  exact fun hin => hi (inGroup_of_contains hk hc hin)

/-- The entries of a variable of a member are inside. -/
theorem Laid.inGroup_of_variable (hm : m.Laid) {id : Nat} {v : ModelVariable R}
    (hv : m.variableAt? id = some v) (howner : v.owner ∈ g.members) (hi : v.span.contains i = true) :
    m.inGroup g v.kind i = true := by
  obtain ⟨c, hc, -⟩ := hm.owned id v hv
  obtain ⟨hstart, hstop⟩ := hm.within_spanOf hc hv rfl
  rw [Span.contains_iff] at hi
  exact inGroup_of_contains howner hc
    (Span.contains_iff.2 ⟨hstart.trans hi.1, hi.2.trans_le hstop⟩)

/-- The unknowns of a group are outputs of its members, and of those of a group around it. -/
theorem Consistent.inGroup_of_outputsOf {root : Group R M} (hm : m.Consistent root) (hlaid : m.Laid)
    {x : ModelGroup R} {body : Schedule R} (hx : (x, body) ∈ m.groups)
    (hwithin : ∀ k ∈ x.members, k ∈ g.members) (hsize : x.components.size ≠ 0) {u : Span}
    (hu : m.outputsOf x = some u) (hi : u.contains i = true) : m.inGroup g .output i = true := by
  obtain ⟨outer, -, hconsecutive, houter⟩ := (hm.groups _ hx).outputs
  obtain rfl := Option.some.inj (hu.symm.trans (houter hsize))
  obtain ⟨hstart, hstop⟩ := Span.contains_iff.1 hi
  obtain ⟨span, hspan, hcontains⟩ := hconsecutive.exists_contains hstart hstop
  obtain ⟨id, hid, hspan⟩ := List.mem_filterMap.1 hspan
  obtain ⟨k, hk, hid⟩ := List.mem_flatMap.1 hid
  obtain ⟨v, hv, rfl⟩ := Option.map_eq_some_iff.1 hspan
  cases hc : m.components[k]? with
  | none => simp [hc] at hid
  | some c =>
    rw [hc, Option.map_some, Option.getD_some] at hid
    obtain ⟨n, d, -, hnode⟩ := hlaid.exists_node hc
    obtain ⟨v', hv', hkind, howner⟩ := hnode.outputs.of_mem hid
    obtain rfl := Option.some.inj (hv.symm.trans hv')
    exact hkind ▸ hlaid.inGroup_of_variable hv (howner ▸ hwithin k hk) hcontains

/-- Writing outputs outside the group is not seen inside. -/
theorem alikeIn_writeReal (s : ModelState R M) {span : Span} (values : Array R)
    (h : ∀ i, m.inGroup g .output i = true → span.contains i = false) :
    m.AlikeIn g { s with outputs := s.outputs.writeReal span values } s :=
  ⟨rfl, .refl _ _, StateVector.agreeAt_writeReal h _ _, .refl _ _⟩

namespace Isolated

variable (h : m.Isolated g anchors s t)

include h

theorem components_eq : s.components = t.components := congrArg (fun b => b.2.2.1) h.besides_eq

theorem diagnostics_eq : s.diagnostics = t.diagnostics := congrArg (fun b => b.2.1) h.besides_eq

theorem stack_eq : s.stack = t.stack := congrArg (fun b => b.1) h.besides_eq

/-- Changes beside the vectors. -/
theorem congr (hbesides : s'.besides = t'.besides) (hs : s'.vectors = s.vectors)
    (ht : t'.vectors = t.vectors) : m.Isolated g anchors s' t' :=
  ⟨⟨hbesides, h.inside.congr hs ht⟩, h.left.congr hs rfl, h.right.congr ht rfl⟩

theorem modifyComponent (c : Nat) (f : ComponentState R M → ComponentState R M) :
    m.Isolated g anchors (s.modifyComponent c f) (t.modifyComponent c f) := by
  refine h.congr ?_ rfl rfl
  have hbesides := h.besides_eq
  simp only [ModelState.besides, ModelState.modifyComponent, Prod.mk.injEq] at hbesides ⊢
  obtain ⟨hstack, hdiagnostics, hcomponents, hrest⟩ := hbesides
  exact ⟨hstack, hdiagnostics, by rw [hcomponents], hrest⟩

theorem withDiagnostics (d : Diagnostics) :
    m.Isolated g anchors { s with diagnostics := d } { t with diagnostics := d } := by
  refine h.congr ?_ rfl rfl
  have hbesides := h.besides_eq
  simp only [ModelState.besides, Prod.mk.injEq] at hbesides ⊢
  exact ⟨hbesides.1, trivial, hbesides.2.2⟩

theorem withInputs {v w : StateVector R}
    (hvw : v.AgreeAt (fun i => m.inGroup g .input i = true) w)
    (hv : v.AgreeAt (fun i => m.inGroup g .input i = false) s.inputs)
    (hw : w.AgreeAt (fun i => m.inGroup g .input i = false) t.inputs) :
    m.Isolated g anchors { s with inputs := v } { t with inputs := w } :=
  ⟨⟨h.besides_eq, hvw, h.inside.outputs, h.inside.residuals⟩,
    ⟨hv.trans h.left.inputs, h.left.outputs, h.left.residuals⟩,
    ⟨hw.trans h.right.inputs, h.right.outputs, h.right.residuals⟩⟩

theorem withOutputs {v w : StateVector R}
    (hvw : v.AgreeAt (fun i => m.inGroup g .output i = true) w)
    (hv : v.AgreeAt (fun i => m.inGroup g .output i = false) s.outputs)
    (hw : w.AgreeAt (fun i => m.inGroup g .output i = false) t.outputs) :
    m.Isolated g anchors { s with outputs := v } { t with outputs := w } :=
  ⟨⟨h.besides_eq, h.inside.inputs, hvw, h.inside.residuals⟩,
    ⟨h.left.inputs, hv.trans h.left.outputs, h.left.residuals⟩,
    ⟨h.right.inputs, hw.trans h.right.outputs, h.right.residuals⟩⟩

theorem withResiduals {v w : StateVector R}
    (hvw : v.AgreeAt (fun i => m.inGroup g .output i = true) w)
    (hv : v.AgreeAt (fun i => m.inGroup g .output i = false) s.residuals)
    (hw : w.AgreeAt (fun i => m.inGroup g .output i = false) t.residuals) :
    m.Isolated g anchors { s with residuals := v } { t with residuals := w } :=
  ⟨⟨h.besides_eq, h.inside.inputs, h.inside.outputs, hvw⟩,
    ⟨h.left.inputs, h.left.outputs, hv.trans h.left.residuals⟩,
    ⟨h.right.inputs, h.right.outputs, hw.trans h.right.residuals⟩⟩

/-- A member reads the same inputs and outputs in both states. -/
theorem agreeOn_inputs (hk : k ∈ g.members) (hc : m.components[k]? = some c) :
    s.inputs.AgreeOn c.inputs t.inputs :=
  h.inside.inputs.agreeOn fun _ hi => inGroup_of_contains hk hc hi

theorem agreeOn_outputs (hk : k ∈ g.members) (hc : m.components[k]? = some c) :
    s.outputs.AgreeOn c.outputs t.outputs :=
  h.inside.outputs.agreeOn fun _ hi => inGroup_of_contains hk hc hi

/-- Pulling an input of a member in the scope of the group reads an output of a member. -/
theorem pullInput (hm : m.Laid) {id : Nat} {w : ModelVariable R} (hw : m.variableAt? id = some w)
    (howner : w.owner ∈ g.members) :
    m.Isolated g anchors (m.pullInput g.components s id) (m.pullInput g.components t id) := by
  unfold Model.pullInput
  split
  · rename_i w' v hw' hsource
    obtain rfl := Option.some.inj (hw.symm.trans hw')
    split
    · rename_i hscope
      obtain ⟨source, hsource, hv⟩ := Option.bind_eq_some_iff.1 hsource
      obtain ⟨v', w', hv', hvkind, hw', hwkind, -⟩ := hm.matching _ _ hsource
      obtain rfl := Option.some.inj (hv.symm.trans hv')
      obtain rfl := Option.some.inj (hw.symm.trans hw')
      have hread : s.outputs.AgreeOn v.span t.outputs := h.inside.outputs.agreeOn fun i hi =>
        hvkind ▸ hm.inGroup_of_variable hv (mem_members_iff.2 hscope) hi
      have hwritten (i : Nat) (hi : m.inGroup g .input i = false) : w.span.contains i = false := by
        rw [Bool.eq_false_iff] at hi ⊢
        exact fun hin => hi (hwkind ▸ hm.inGroup_of_variable hw howner hin)
      exact h.withInputs (h.inside.inputs.copy hread _) (StateVector.agreeAt_copy hwritten _ _ _)
        (StateVector.agreeAt_copy hwritten _ _ _)
    · exact h
  · exact h

theorem pull (hm : m.Laid) (hk : k ∈ g.members) (hc : m.components[k]? = some c) :
    m.Isolated g anchors (m.pull g.components c s) (m.pull g.components c t) := by
  obtain ⟨n, d, -, hlaid⟩ := hm.exists_node hc
  have hmembers : ∀ id ∈ c.inputIds, ∃ w, m.variableAt? id = some w ∧ w.owner ∈ g.members := by
    intro id hid
    obtain ⟨w, hw, -, rfl⟩ := hlaid.inputs.of_mem hid
    exact ⟨w, hw, hk⟩
  unfold Model.pull
  generalize c.inputIds = ids at hmembers
  induction ids generalizing s t with
  | nil => exact h
  | cons id rest ih =>
    obtain ⟨w, hw, howner⟩ := hmembers id List.mem_cons_self
    exact ih (h.pullInput hm hw howner) fun other hother => hmembers other (List.mem_cons_of_mem id hother)

end Isolated

end Model

section Evaluate

variable [Scalar R]

/-- **An evaluation in vectors that agree** on what it reads and writes has the same outcome, leaves
vectors that agree where they did, and writes into its outputs only. -/
theorem Component.evaluate_alike {P Q : Nat → Prop} (c : Component R M)
    {inputs inputs' v w : StateVector R} {source target : Span} (hin : inputs.AgreeOn source inputs')
    (h : v.AgreeAt P w) (hP : ∀ i, target.contains i = true → P i)
    (hQ : ∀ i, Q i → target.contains i = false) (complex : Bool) (μ : M) :
    ∃ answer ν v' w', (c.evaluate inputs source target complex).perform (μ, v) = (answer, ν, v') ∧
      (c.evaluate inputs' source target complex).perform (μ, w) = (answer, ν, w') ∧
      v'.AgreeAt P w' ∧ v'.AgreeAt Q v ∧ w'.AgreeAt Q w := by
  have hout := h.agreeOn hP
  simp only [evaluate, Action.perform_of]
  cases complex with
  | false =>
    simp only [Bool.false_eq_true, if_false, hin.readReal, hout.readReal]
    rcases (c.computeReal (inputs'.readReal source) (w.readReal target)).perform μ with ⟨e | z, ν⟩
    · exact ⟨_, _, _, _, rfl, rfl, h, .refl _ _, .refl _ _⟩
    · exact ⟨_, _, _, _, rfl, rfl, (h.writeReal _ _).writeImag _ _,
        (StateVector.agreeAt_writeImag hQ _ _).trans (StateVector.agreeAt_writeReal hQ _ _),
        (StateVector.agreeAt_writeImag hQ _ _).trans (StateVector.agreeAt_writeReal hQ _ _)⟩
  | true =>
    simp only [if_true, hin.readComplex, hout.readComplex]
    rcases (c.computeComplex (inputs'.readComplex source) (w.readComplex target)).perform μ
      with ⟨e | z, ν⟩
    · exact ⟨_, _, _, _, rfl, rfl, h, .refl _ _, .refl _ _⟩
    · exact ⟨_, _, _, _, rfl, rfl, (h.writeReal _ _).writeImag _ _,
        (StateVector.agreeAt_writeImag hQ _ _).trans (StateVector.agreeAt_writeReal hQ _ _),
        (StateVector.agreeAt_writeImag hQ _ _).trans (StateVector.agreeAt_writeReal hQ _ _)⟩

end Evaluate

namespace Model

variable {m : Model R M} {g : ModelGroup R} {anchors : ModelState R M × ModelState R M}
  {c : ModelComponent R M} {k : Nat} {mode : Mode}

/-- What a component keeps is the same in both states. -/
theorem twins_isolated_kept_bind {α : Type} {f f' : ComponentState R M → ModelWork R M α}
    (h : ∀ l, Action.Twins (m.Isolated g anchors) (f l) (f' l)) :
    Action.Twins (m.Isolated g anchors) (kept k >>= f) (kept k >>= f') :=
  Action.twins_bind (Action.twins_read fun s t hs => by rw [hs.components_eq]) h

theorem twins_isolated_storeBlocks (blocks : Jacobian R) : Action.Twins (m.Isolated g anchors)
    (storeBlocks k blocks : ModelWork R M Unit) (storeBlocks k blocks) := by
  refine Action.twins_forEach fun ((of, wrt), block) _ => ?_
  refine twins_isolated_kept_bind fun l => ?_
  refine Action.twins_bind (Action.twins_ofOutcome _) fun partials => ?_
  exact Action.twins_modify fun s t hs => hs.modifyComponent k _

theorem twins_isolated_computePartials (x : Array R) : Action.Twins (m.Isolated g anchors)
    (computePartials k c x : ModelWork R M Unit) (computePartials k c x) := by
  refine twins_isolated_kept_bind fun l => ?_
  refine Action.twins_on (Action.twins_mapError _ (Action.twins_self _)) (fun _ _ _ => rfl) ?_
  rintro s t u _ hs rfl
  exact hs.modifyComponent k _

section Work

variable [Scalar R]

theorem twins_isolated_onComponent {α : Type} (x y : Array R) (scheme : Scheme R)
    {keep : Scheme R → Diagnostics → ModelState R M → ModelState R M}
    (work : Scheme.Work R (ComponentScope R M) α)
    (hkeep : ∀ a d s t, m.Isolated g anchors s t → m.Isolated g anchors (keep a d s) (keep a d t)) :
    Action.Twins (m.Isolated g anchors)
      (m.onComponent k c x y scheme ModelState.diagnostics keep work)
      (m.onComponent k c x y scheme ModelState.diagnostics keep work) := by
  refine twins_isolated_kept_bind fun l => ?_
  refine Action.twins_on (Action.twins_mapError _ (Action.twins_self _)) (fun s t hs => ?_) ?_
  · rw [hs.diagnostics_eq]
  · rintro s t u _ hs rfl
    exact hkeep _ _ _ _ (hs.modifyComponent k _)

theorem twins_isolated_approximatePartials (place : Nat) (places : List Nat)
    (relevant : Option (List Bool)) (x y : Array R) : Action.Twins (m.Isolated g anchors)
      (m.approximatePartials k place places relevant x y)
      (m.approximatePartials k place places relevant x y) := by
  unfold approximatePartials
  refine Action.twins_bind (Action.twins_ofOutcome _) fun component => ?_
  refine twins_isolated_kept_bind fun l => ?_
  refine Action.twins_bind (Action.twins_ofOutcome _) fun old => ?_
  refine Action.twins_bind (Action.twins_ofOutcome _) fun state => ?_
  refine Action.twins_bind (Action.twins_modify fun s t hs => hs.modifyComponent k _) fun _ => ?_
  dsimp only
  split
  · exact Action.twins_pure _
  · refine Action.twins_get_bind fun s t hs => ?_
    rw [hs.stack_eq]
    refine Action.twins_bind (twins_isolated_onComponent x y _ _ fun a d s t hs => ?_)
      fun blocks => twins_isolated_storeBlocks blocks
    exact (hs.modifyComponent k _).withDiagnostics d

/-- **Linearizing a member** reads its own variables. -/
theorem twins_isolated_linearizeAt (hk : k ∈ g.members) (relevant : Option (List Bool))
    (baseline : Option (Array R)) : Action.Twins (m.Isolated g anchors)
      (m.linearizeAt k relevant baseline) (m.linearizeAt k relevant baseline) := by
  unfold linearizeAt
  refine couples_component_bind fun c hc => ?_
  refine Action.twins_get_bind fun s t hs => ?_
  rw [(hs.agreeOn_inputs hk hc).readReal, (hs.agreeOn_outputs hk hc).readReal]
  dsimp only
  have hwork (x y : Array R) : Action.Twins (m.Isolated g anchors)
      (do
        computePartials k c x
        Action.forEach c.methods.zipIdx fun z => m.approximatePartials k z.2 z.1.2 relevant x y)
      (do
        computePartials k c x
        Action.forEach c.methods.zipIdx fun z => m.approximatePartials k z.2 z.1.2 relevant x y) :=
    Action.twins_bind (twins_isolated_computePartials x) fun _ =>
      Action.twins_forEach fun _ _ => twins_isolated_approximatePartials _ _ relevant x y
  split
  · exact Action.twins_bind (Action.twins_fail _) fun _ => hwork _ _
  · exact hwork _ _

/-- **Running a member** reads its inputs and writes its outputs. -/
theorem twins_isolated_compute (hk : k ∈ g.members) : Action.Twins (m.Isolated g anchors)
    (m.compute k mode) (m.compute k mode) := by
  unfold compute
  refine couples_component_bind fun c hc => ?_
  refine twins_isolated_kept_bind fun l s t hs => ?_
  have hinside (i : Nat) (hi : c.outputs.contains i = true) : m.inGroup g .output i = true :=
    inGroup_of_contains hk hc hi
  have houtside (i : Nat) (hi : m.inGroup g .output i = false) : c.outputs.contains i = false :=
    contains_eq_false hk hc hi
  obtain ⟨answer, ν, v, w, hv, hw, hvw, hvs, hwt⟩ := c.component.evaluate_alike
    (hs.agreeOn_inputs hk hc) hs.inside.outputs hinside houtside (m.isComplexIn mode) l.memory
  rw [Action.perform_of, Action.perform_of, hv, hw]
  have hend := (hs.modifyComponent k fun l => { l with memory := ν, runs := l.runs + 1 }).withOutputs
    hvw hvs hwt
  rcases answer with (e | _) | ⟨⟩
  · exact .error hend
  · exact .breach
  · exact .value ⟨rfl, hend⟩

end Work

end Model

namespace NewtonFrame

/-- An iteration on members of a group, which pulls in the scope of the group. -/
structure Inner (m : Model R M) (g : ModelGroup R) (frame : NewtonFrame R) : Prop where
  components : ∀ k ∈ frame.components, k ∈ g.members
  unknowns : ∀ i, frame.unknowns.contains i = true → m.inGroup g .output i = true
  scope : frame.scope = g.components

variable {m : Model R M} {g : ModelGroup R} {anchors : ModelState R M × ModelState R M}
  {frame : NewtonFrame R} {s t : ModelState R M}

/-- What is outside is not an unknown. -/
theorem Inner.contains_eq_false (hframe : frame.Inner m g) {i : Nat}
    (hi : m.inGroup g .output i = false) : frame.unknowns.contains i = false := by
  rw [Bool.eq_false_iff] at hi ⊢
  exact fun hin => hi (hframe.unknowns i hin)

/-- The unknowns are the same in both states. -/
theorem Inner.agreeOn (hframe : frame.Inner m g) (h : m.Isolated g anchors s t) :
    s.outputs.AgreeOn frame.unknowns t.outputs := h.inside.outputs.agreeOn hframe.unknowns

theorem Inner.writeReal (hframe : frame.Inner m g) (h : m.Isolated g anchors s t)
    (values : Array R) : m.Isolated g anchors
      { s with outputs := s.outputs.writeReal frame.unknowns values }
      { t with outputs := t.outputs.writeReal frame.unknowns values } :=
  h.withOutputs (h.inside.outputs.writeReal _ _)
    (StateVector.agreeAt_writeReal (fun _ => hframe.contains_eq_false) _ _)
    (StateVector.agreeAt_writeReal (fun _ => hframe.contains_eq_false) _ _)

theorem Inner.writeImag (hframe : frame.Inner m g) (h : m.Isolated g anchors s t)
    (values : Array R) : m.Isolated g anchors
      { s with outputs := s.outputs.writeImag frame.unknowns values }
      { t with outputs := t.outputs.writeImag frame.unknowns values } :=
  h.withOutputs (h.inside.outputs.writeImag _ _)
    (StateVector.agreeAt_writeImag (fun _ => hframe.contains_eq_false) _ _)
    (StateVector.agreeAt_writeImag (fun _ => hframe.contains_eq_false) _ _)

theorem Inner.writeRealResiduals (hframe : frame.Inner m g) (h : m.Isolated g anchors s t)
    (values : Array R) : m.Isolated g anchors
      { s with residuals := s.residuals.writeReal frame.unknowns values }
      { t with residuals := t.residuals.writeReal frame.unknowns values } :=
  h.withResiduals (h.inside.residuals.writeReal _ _)
    (StateVector.agreeAt_writeReal (fun _ => hframe.contains_eq_false) _ _)
    (StateVector.agreeAt_writeReal (fun _ => hframe.contains_eq_false) _ _)

theorem Inner.writeImagResiduals (hframe : frame.Inner m g) (h : m.Isolated g anchors s t)
    (values : Array R) : m.Isolated g anchors
      { s with residuals := s.residuals.writeImag frame.unknowns values }
      { t with residuals := t.residuals.writeImag frame.unknowns values } :=
  h.withResiduals (h.inside.residuals.writeImag _ _)
    (StateVector.agreeAt_writeImag (fun _ => hframe.contains_eq_false) _ _)
    (StateVector.agreeAt_writeImag (fun _ => hframe.contains_eq_false) _ _)

variable [Scalar R]

theorem twins_isolated_residual (hm : m.Laid) (hframe : frame.Inner m g) : Action.Twins
    (m.Isolated g anchors) (frame.residual m) (frame.residual m) := by
  unfold residual
  refine Action.twins_get_bind fun s t hs => ?_
  rw [(hframe.agreeOn hs).readReal, (hframe.agreeOn hs).readImag]
  refine Action.twins_bind (Action.twins_forEach fun k hk => ?_) fun _ => ?_
  · refine Model.couples_component_bind fun c hc => Action.twins_modify fun s t h => ?_
    rw [hframe.scope]
    exact h.pull hm (hframe.components k hk) hc
  refine Action.twins_bind (Action.twins_forEach fun k hk =>
    Model.twins_isolated_compute (hframe.components k hk)) fun _ => ?_
  refine Action.twins_get_bind fun u v hu => ?_
  rw [(hframe.agreeOn hu).readReal, (hframe.agreeOn hu).readImag]
  refine Action.twins_bind (Action.twins_set ?_) fun _ => ?_
  · exact hframe.writeRealResiduals (hframe.writeReal hu _) _
  dsimp only
  split
  · exact Action.twins_pure _
  · refine Action.twins_bind (Action.twins_modify fun w z h => ?_) fun _ => Action.twins_pure _
    exact hframe.writeImagResiduals (hframe.writeImag h _) _

/-- The matrix of a Newton step is the same in both runs. -/
theorem twins_isolated_addPartials (computed : Array R) {components : List Nat}
    (hcomponents : ∀ k ∈ components, k ∈ g.members) (matrix : DenseMatrix R) :
    Action.Twins (m.Isolated g anchors) (frame.addPartials m computed components matrix)
      (frame.addPartials m computed components matrix) := by
  induction components generalizing matrix with
  | nil => exact Action.twins_pure _
  | cons k rest ih =>
    unfold addPartials
    refine Action.twins_bind (Action.twins_ofOutcome _) fun c => ?_
    refine Action.twins_bind (Model.twins_isolated_linearizeAt (hcomponents k List.mem_cons_self) _ _)
      fun _ => ?_
    refine Model.twins_isolated_kept_bind fun l => ?_
    exact Action.twins_bind (Action.twins_ofOutcome _) fun matrix =>
      ih (fun j hj => hcomponents j (List.mem_cons_of_mem k hj)) matrix

variable [DirectSolver R]

theorem twins_isolated_advance (hframe : frame.Inner m g) (r : Residual R) : Action.Twins
    (m.Isolated g anchors) (frame.advance m r) (frame.advance m r) := by
  have hsolve (matrix : DenseMatrix R) (b : Array R) : Action.Twins (m.Isolated g anchors)
      (correction matrix b : ModelWork R M (Array R)) (correction matrix b) :=
    Action.twins_bind (Action.twins_ofOutcome _) fun _ => Action.twins_pure _
  unfold advance
  refine Action.twins_bind (twins_isolated_addPartials _ hframe.components _) fun matrix => ?_
  refine Action.twins_bind (hsolve _ _) fun d => ?_
  refine Action.twins_bind (Action.twins_modify fun s t h => ?_) fun _ => ?_
  · rw [(hframe.agreeOn h).readReal]
    exact hframe.writeReal h _
  split
  · exact Action.twins_pure _
  · refine Action.twins_bind (hsolve _ _) fun d => Action.twins_modify fun s t h => ?_
    rw [(hframe.agreeOn h).readImag]
    exact hframe.writeImag h _

theorem twins_isolated_iterate (hm : m.Laid) (hframe : frame.Inner m g) (norm : Option R)
    (remaining : Nat) : Action.Twins (m.Isolated g anchors) (frame.iterate m norm remaining)
      (frame.iterate m norm remaining) := by
  let store (values : Array R) (result : NewtonResult R) : ModelWork R M (NewtonResult R) := do
    modify fun s => { s with outputs := s.outputs.writeReal frame.unknowns values }
    return result
  have hstore (values : Array R) (result : NewtonResult R) :
      Action.Twins (m.Isolated g anchors) (store values result) (store values result) :=
    Action.twins_bind (Action.twins_modify fun s t h => hframe.writeReal h values)
      fun _ => Action.twins_pure _
  induction remaining generalizing norm with
  | zero =>
    unfold iterate
    refine Action.twins_bind (twins_isolated_residual hm hframe) fun r => ?_
    dsimp only
    split <;> exact hstore _ _
  | succ n ih =>
    unfold iterate
    refine Action.twins_bind (twins_isolated_residual hm hframe) fun r => ?_
    dsimp only
    split
    · exact hstore _ _
    · exact Action.twins_bind (twins_isolated_advance hframe r) fun _ => ih _

theorem twins_isolated_solve (hm : m.Laid) (hframe : frame.Inner m g) : Action.Twins
    (m.Isolated g anchors) (frame.solve m) (frame.solve m) := by
  unfold solve
  refine Action.twins_bind (twins_isolated_iterate hm hframe _ _) fun result => ?_
  let giveUp : ModelWork R M (NewtonResult R) := do
    modify fun s => { s with
      diagnostics := s.diagnostics.push frame.label .nonConvergence
        (unconvergedDetail result.iterations result.norm) }
    return result
  have hgiveUp : Action.Twins (m.Isolated g anchors) giveUp giveUp := by
    refine Action.twins_bind (Action.twins_modify fun s t h => ?_) fun _ => Action.twins_pure _
    rw [h.diagnostics_eq]
    exact h.withDiagnostics _
  split
  · exact Action.twins_pure _
  · split
    · exact Action.twins_bind (Action.twins_fail _) fun _ => hgiveUp
    · exact hgiveUp

end NewtonFrame

namespace Model

section Run

variable [Scalar R] [DirectSolver R] {m : Model R M} {g : ModelGroup R}
  {anchors : ModelState R M × ModelState R M} {root : Group R M} (hm : m.Consistent root)
  (hlaid : m.Laid)

include hm hlaid

/-- **A Newton iteration on a group inside another one** is isolated in the outer group. -/
theorem twins_isolated_newton {x : ModelGroup R} {body : Schedule R} (hx : (x, body) ∈ m.groups)
    (hwithin : ∀ k ∈ x.members, k ∈ g.members) (settings : NewtonSettings R) (mode : Mode) :
    Action.Twins (m.Isolated g anchors) (m.newton x settings mode g.components)
      (m.newton x settings mode g.components) := by
  unfold newton
  split
  · exact Action.twins_pure _
  · rename_i hsize
    refine Action.couples_ofOutcome_bind (fun _ _ h => h) fun u hu => ?_
    rw [Outcome.ofOption_eq_ok] at hu
    refine Action.twins_get_bind fun s t hs => ?_
    rw [hs.stack_eq]
    refine NewtonFrame.twins_isolated_solve hlaid ⟨hwithin, fun i hi => ?_, rfl⟩
    exact hm.inGroup_of_outputsOf hlaid hx hwithin hsize hu hi

/-- **Running members of a group** in the scope of the group is isolated in it. -/
theorem twins_isolated_runSchedule (active : ActiveSet) (mode : Mode) {schedule : Schedule R}
    (hcomponents : ∀ k ∈ schedule.components, k ∈ g.members)
    (hgroups : ∀ e ∈ schedule.groups, e ∈ m.groups ∧ ∀ k ∈ e.1.members, k ∈ g.members) :
    Action.Twins (m.Isolated g anchors) (m.runSchedule active mode g.components schedule)
      (m.runSchedule active mode g.components schedule) := by
  induction schedule with
  | done => exact Action.twins_pure _
  | component k rest ih =>
    have hk := hcomponents k List.mem_cons_self
    have hrest := ih (fun j hj => hcomponents j (List.mem_cons_of_mem k hj)) hgroups
    unfold runSchedule
    dsimp only
    split
    · refine couples_component_bind fun c hc => ?_
      exact Action.twins_bind (Action.twins_modify fun _ _ h => h.pull hlaid hk hc) fun _ =>
        Action.twins_bind (twins_isolated_compute hk) fun _ => hrest
    · exact hrest
  | group x body rest ihBody ihRest =>
    have hx := hgroups (x, body) List.mem_cons_self
    have hbody := ihBody (fun k hk => hcomponents k (List.mem_append_left _ hk)) fun e he =>
      hgroups e (List.mem_cons_of_mem _ (List.mem_append_left _ he))
    have hrest := ihRest (fun k hk => hcomponents k (List.mem_append_right _ hk)) fun e he =>
      hgroups e (List.mem_cons_of_mem _ (List.mem_append_right _ he))
    unfold runSchedule
    dsimp only
    split
    · exact Action.twins_bind hbody fun _ => hrest
    · split
      · exact Action.twins_bind (Action.twins_discard
          (twins_isolated_newton hm hlaid hx.1 hx.2 _ mode)) fun _ => hrest
      · exact hrest

/-- Two runs of a group as a target. -/
theorem twins_isolated_target {x : ModelGroup R} {body : Schedule R} (hx : (x, body) ∈ m.groups)
    (active : ActiveSet) (mode : Mode) : Action.Twins (m.Isolated x anchors)
      ((m.groupTarget x body).evaluate active mode) ((m.groupTarget x body).evaluate active mode) := by
  have hgroup := hm.groups _ hx
  refine Action.twins_mapError _ (twins_isolated_runSchedule hm hlaid active mode ?_ ?_)
  · intro k hk
    rw [Schedule.components, Schedule.components, List.append_nil, hgroup.members_eq] at hk
    exact hk
  · intro e he
    rw [Schedule.groups, Schedule.groups, List.append_nil] at he
    rcases List.mem_cons.1 he with rfl | hinner
    · exact ⟨hx, fun _ hk => hk⟩
    refine ⟨?_, fun k hk => ?_⟩
    · rcases List.mem_cons.1 hx with h | h
      · obtain ⟨rfl, rfl⟩ := Prod.mk.inj h
        exact List.mem_cons_of_mem _ hinner
      · exact List.mem_cons_of_mem _ (Schedule.groups_subset h e hinner)
    · obtain ⟨hstart, hstop⟩ := hgroup.nested e hinner
      rw [mem_members_iff, Span.contains_iff] at hk ⊢
      exact ⟨hstart.trans hk.1, hk.2.trans_le hstop⟩

end Run

section Target

variable [Scalar R] [DirectSolver R] {m : Model R M}

/-- **A group evaluated in isolation neither touches nor sees the rest of the model.** For every
group of a model, whatever is active and in either mode: an evaluation, with or without an error,
changes no input, output or residual outside the variables of the members; and from states that
differ in such entries only it has the same outcome, and leaves the same values inside. -/
theorem isolated_of_ofGroup {root : Group R M} {settings : SetupSettings}
    (h : ofGroup root settings = .ok m) {x : ModelGroup R} {body : Schedule R}
    (hx : (x, body) ∈ m.groups) (active : ActiveSet) (mode : Mode) :
    (∀ s, (((m.groupTarget x body).evaluate active mode).perform s).1.Answers →
      (((m.groupTarget x body).evaluate active mode).perform s).2.AgreeAt
        (fun kind i => m.inGroup x kind i = false) s) ∧
    ∀ s t, m.AlikeIn x s t →
      (((m.groupTarget x body).evaluate active mode).perform s).1 =
        (((m.groupTarget x body).evaluate active mode).perform t).1 ∧
      ((((m.groupTarget x body).evaluate active mode).perform s).1.Answers →
        m.AlikeIn x (((m.groupTarget x body).evaluate active mode).perform s).2
          (((m.groupTarget x body).evaluate active mode).perform t).2) := by
  have htwins (s t : ModelState R M) : Action.Twins (m.Isolated x (s, t))
      ((m.groupTarget x body).evaluate active mode) ((m.groupTarget x body).evaluate active mode) :=
    twins_isolated_target (consistent_of_ofGroup h) (laid_of_ofGroup h) hx active mode
  have hstart (s t : ModelState R M) (hst : m.AlikeIn x s t) : m.Isolated x (s, t) s t :=
    ⟨hst, .refl _ _, .refl _ _⟩
  refine ⟨fun s hanswers => ?_, fun s t hst => ⟨?_, fun hanswers => ?_⟩⟩
  · have hself := hstart s s ⟨rfl, .refl _ _⟩
    exact ((htwins s s).rel_of_answers hself hanswers).left
  · exact (htwins s t).outcome_eq (hstart s t hst)
  · exact ((htwins s t).rel_of_answers (hstart s t hst) hanswers).toAlikeIn

end Target

section Cascade

/-- A source, and a group of a component that triples it and of an iteration on two more. -/
def cascadeGroup : Group Float Unit where
  settings := { GroupSettings.plain with connections := [("source.x", "outer.first.x")] }
  members := .component "source" (.independent () [("x", .scalar 1.0)]) <|
    .group "outer" { GroupSettings.plain with connections := [("first.y", "inner.second.x")] }
      (.component "first" triple.toComponent <|
        .group "inner" { GroupSettings.plain with
            connections := [("second.y", "third.x")], solver := .newton noSteps }
          (.component "second" triple.toComponent <|
            .component "third" triple.toComponent .empty) .empty) .empty

theorem isSome_cascade : (ofGroup cascadeGroup .standard).toOption.isSome = true := by
  decide +kernel

/-- The model of the cascade. -/
def cascadeModel : Model Float Unit := (ofGroup cascadeGroup .standard).toOption.get isSome_cascade

theorem ofGroup_cascade : ofGroup cascadeGroup .standard = .ok cascadeModel :=
  Except.eq_ok_of_toOption (Option.some_get isSome_cascade).symm

theorem isSome_cascadeStart : cascadeModel.start.toOption.isSome = true := by decide +kernel

/-- The model at the start. -/
def cascadeStart : ModelState Float Unit := cascadeModel.start.toOption.get isSome_cascadeStart

/-- The same with another value of the source. -/
def cascadeMoved : ModelState Float Unit :=
  { cascadeStart with outputs := cascadeStart.outputs.writeReal ⟨0, 1⟩ #[2.0] }

theorem isSome_cascadeOuter : cascadeModel.groups[1]?.isSome = true := by decide +kernel

/-- The group of three components, with its schedule. -/
def cascadeOuter : ModelGroup Float × Schedule Float :=
  cascadeModel.groups[1]?.get isSome_cascadeOuter

theorem mem_cascadeOuter : (cascadeOuter.1, cascadeOuter.2) ∈ cascadeModel.groups :=
  List.mem_of_getElem? (Option.some_get isSome_cascadeOuter).symm

/-- The source is no part of the group. -/
theorem alikeIn_cascade : cascadeModel.AlikeIn cascadeOuter.1 cascadeMoved cascadeStart := by
  have houtside : cascadeModel.inGroup cascadeOuter.1 .output 0 = false := by decide +kernel
  refine alikeIn_writeReal _ _ fun i hi => ?_
  rw [Bool.eq_false_iff, ne_eq, Span.contains_iff]
  rintro ⟨-, hlt⟩
  obtain rfl : i = 0 := Nat.lt_one_iff.1 hlt
  rw [houtside] at hi
  cases hi

/-- The group comes out the same whatever the value of the source, and does not change it. -/
theorem isolated_cascade : ∃ s t,
    ((cascadeModel.groupTarget cascadeOuter.1 cascadeOuter.2).evaluate .all .real).perform
      cascadeMoved = (.ok (), s) ∧
    ((cascadeModel.groupTarget cascadeOuter.1 cascadeOuter.2).evaluate .all .real).perform
      cascadeStart = (.ok (), t) ∧
    cascadeModel.AlikeIn cascadeOuter.1 s t ∧ s.outputs.real[0]? = cascadeMoved.outputs.real[0]? := by
  have houtside : cascadeModel.inGroup cascadeOuter.1 .output 0 = false := by decide +kernel
  have hanswers : Outcome.Answers (.ok () : Outcome (ApproximationError Float) Unit) :=
    Outcome.answers_ok ()
  have hmoved : (((cascadeModel.groupTarget cascadeOuter.1 cascadeOuter.2).evaluate .all .real).perform
      cascadeMoved).1.toOption = some () := by decide +kernel
  obtain ⟨s, hs⟩ : ∃ s, ((cascadeModel.groupTarget cascadeOuter.1 cascadeOuter.2).evaluate .all
      .real).perform cascadeMoved = (.ok (), s) :=
    ⟨_, Action.perform_eq_ok (Except.eq_ok_of_toOption hmoved)⟩
  obtain ⟨hframe, htwo⟩ := isolated_of_ofGroup ofGroup_cascade mem_cascadeOuter .all .real
  obtain ⟨hsame, halike⟩ := htwo _ _ alikeIn_cascade
  replace hframe := hframe cascadeMoved
  rw [hs] at hsame halike hframe
  obtain ⟨t, ht⟩ : ∃ t, ((cascadeModel.groupTarget cascadeOuter.1 cascadeOuter.2).evaluate .all
      .real).perform cascadeStart = (.ok (), t) := ⟨_, Action.perform_eq_ok hsame.symm⟩
  rw [ht] at halike
  exact ⟨s, t, hs, ht, halike hanswers, (hframe hanswers).outputs.real 0 houtside⟩

end Cascade

end Model

end Sensitivity
