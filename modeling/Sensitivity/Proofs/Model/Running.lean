import Sensitivity.Model.GroupScope
import Sensitivity.Proofs.Model.Dependencies
import Sensitivity.Proofs.Model.Evaluating

/-!
# Running one component of a model

In real arithmetic, running a component pulls its inputs and overwrites its outputs with what it
computes (`Model.Ran`). It changes no variable of another component (`Model.Ran.agree_of_ne`). Run
in two states that agree on the variables of a set which holds the start of every edge whose end it
holds, it leaves two states that agree on them again (`Model.Ran.agree`): the set may be what leads
to some variables, or what some variables do not lead to. In a settled state, where connected inputs
and all outputs are up to date, running a component leads nowhere (`Model.Settled.ran`).
-/

namespace Sensitivity

variable {R M : Type}

namespace StateVector

theorem size_copy (v w : StateVector R) (target source : Span) :
    (v.copy target w source).size = v.size := by simp [size, copy]

/-- A copied span reads as its source where both fit. -/
theorem readReal_copy_self {v w : StateVector R} {target source : Span}
    (htarget : target.stop ≤ v.size) (hsource : source.stop ≤ w.size)
    (hsize : source.size = target.size) :
    (v.copy target w source).readReal target = w.readReal source :=
  Span.slice_overwrite_self htarget ((Span.size_slice hsource).trans hsize)

theorem readReal_copy_of_apart {v w : StateVector R} {s target source : Span}
    (h : s.Apart target) : (v.copy target w source).readReal s = v.readReal s :=
  Span.slice_overwrite_of_apart h

end StateVector

namespace Model

variable (m : Model R M)

/-- The vectors of a state are as long as the model says. -/
def Fits (s : ModelState R M) : Prop := ∀ kind, (s.vector kind).size = m.lengthOf kind

/-- Two states have the same real value of a variable. -/
def Agree (s t : ModelState R M) (id : Nat) : Prop :=
  ∀ v, m.variableAt? id = some v →
    (s.vector v.kind).readReal v.span = (t.vector v.kind).readReal v.span

variable {m} {s t u : ModelState R M} {id : Nat}

theorem Agree.symm (h : m.Agree s t id) : m.Agree t s id := fun v hv => (h v hv).symm

theorem Agree.trans (h : m.Agree s t id) (h' : m.Agree t u id) : m.Agree s u id :=
  fun v hv => (h v hv).trans (h' v hv)

section Pull

/-- An input without a source is not pulled. -/
theorem pullInput_of_none (scope : Span) (s : ModelState R M) (h : m.source? id = none) :
    m.pullInput scope s id = s := by
  unfold pullInput
  rw [h]
  split
  · rename_i hsource
    cases hsource
  · rfl

variable (hm : m.Laid)

include hm

/-- In the whole model every source is in scope. -/
theorem Laid.pullInput_of_source (s : ModelState R M) {source : Nat} {v w : ModelVariable R}
    (h : m.source? id = some source) (hv : m.variableAt? source = some v)
    (hw : m.variableAt? id = some w) : m.pullInput m.root.components s id =
      { s with inputs := s.inputs.copy w.span s.outputs v.span } := by
  obtain ⟨c, hc, -⟩ := hm.owned source v hv
  have hscope : m.root.components.contains v.owner = true := by
    rw [hm.root_eq, Span.contains_iff]
    have := (List.getElem?_eq_some_iff.1 hc).1
    simpa [Span.stop] using this
  simp only [pullInput, hw, h, Option.bind_some, hv, hscope, if_true]

theorem Laid.fits_pullInput (h : m.Fits s) (id : Nat) :
    m.Fits (m.pullInput m.root.components s id) := by
  cases hsource : m.source? id with
  | none => rwa [pullInput_of_none _ _ hsource]
  | some source =>
    obtain ⟨v, w, hv, -, hw, -, -⟩ := hm.matching _ _ hsource
    rw [hm.pullInput_of_source s hsource hv hw]
    intro kind
    cases kind with
    | input => exact (StateVector.size_copy _ _ _ _).trans (h .input)
    | output => exact h .output

/-- Pulling an input changes no other variable. -/
theorem Laid.agree_pullInput_of_ne {other : Nat} (hne : other ≠ id) :
    m.Agree (m.pullInput m.root.components s id) s other := by
  cases hsource : m.source? id with
  | none =>
    rw [pullInput_of_none _ _ hsource]
    exact fun _ _ => rfl
  | some source =>
    obtain ⟨v, w, hv, -, hw, hwkind, -⟩ := hm.matching _ _ hsource
    rw [hm.pullInput_of_source s hsource hv hw]
    intro x hx
    cases hkind : x.kind with
    | input => exact StateVector.readReal_copy_of_apart (hm.apart hx hw hne (hkind.trans hwkind.symm))
    | output => rfl

/-- A pulled input has the value of its source. -/
theorem Laid.readReal_pullInput (h : m.Fits s) {source : Nat} {v w : ModelVariable R}
    (hsource : m.source? id = some source) (hv : m.variableAt? source = some v)
    (hw : m.variableAt? id = some w) :
    ((m.pullInput m.root.components s id).vector w.kind).readReal w.span =
      (s.vector v.kind).readReal v.span := by
  obtain ⟨v', w', hv', hvkind, hw', hwkind, hsize⟩ := hm.matching _ _ hsource
  obtain rfl := Option.some.inj (hv.symm.trans hv')
  obtain rfl := Option.some.inj (hw.symm.trans hw')
  have htarget : w.span.stop ≤ s.inputs.size := by
    have hfits : s.inputs.size = m.lengthOf .input := h .input
    rw [hfits, ← hwkind]
    exact hm.stop_le hw
  have hfrom : v.span.stop ≤ s.outputs.size := by
    have hfits : s.outputs.size = m.lengthOf .output := h .output
    rw [hfits, ← hvkind]
    exact hm.stop_le hv
  rw [hm.pullInput_of_source s hsource hv hw, hvkind, hwkind]
  exact StateVector.readReal_copy_self htarget hfrom hsize

theorem Laid.fits_pull (h : m.Fits s) (c : ModelComponent R M) :
    m.Fits (m.pull m.root.components c s) := by
  unfold pull
  induction c.inputIds generalizing s with
  | nil => exact h
  | cons id rest ih => exact ih (hm.fits_pullInput h id)

theorem Laid.agree_pull_of_not_mem {c : ModelComponent R M} (hid : id ∉ c.inputIds) :
    m.Agree (m.pull m.root.components c s) s id := by
  unfold pull
  generalize c.inputIds = ids at hid ⊢
  induction ids generalizing s with
  | nil => exact fun _ _ => rfl
  | cons i rest ih =>
    rw [List.mem_cons, not_or] at hid
    exact (ih hid.2).trans (hm.agree_pullInput_of_ne hid.1)

/-- **Pulling keeps an agreement** of two states that holds of the source of every input that it
holds of. -/
theorem Laid.agree_pull {K : Nat → Prop} (hK : ∀ id source, m.source? id = some source → K id →
    K source) (hs : m.Fits s) (ht : m.Fits t) (h : ∀ id, K id → m.Agree s t id)
    (c : ModelComponent R M) : ∀ id, K id →
      m.Agree (m.pull m.root.components c s) (m.pull m.root.components c t) id := by
  unfold pull
  induction c.inputIds generalizing s t with
  | nil => exact h
  | cons i rest ih =>
    refine ih (hm.fits_pullInput hs i) (hm.fits_pullInput ht i) fun id hid => ?_
    by_cases hne : id = i
    · subst hne
      cases hsource : m.source? id with
      | none =>
        rw [pullInput_of_none _ _ hsource, pullInput_of_none _ _ hsource]
        exact h id hid
      | some source =>
        obtain ⟨v, w, hv, -, hw, -⟩ := hm.matching _ _ hsource
        intro x hx
        obtain rfl := Option.some.inj (hw.symm.trans hx)
        rw [hm.readReal_pullInput hs hsource hv hw, hm.readReal_pullInput ht hsource hv hw]
        exact h source (hK _ _ hsource hid) v hv
    · exact ((hm.agree_pullInput_of_ne hne).trans (h id hid)).trans
        (hm.agree_pullInput_of_ne hne).symm

end Pull

section Run

/-- Running a component in real arithmetic takes one state to another: its inputs are pulled, and
its outputs are computed from them. A component that holds its outputs sees them as they were. -/
structure Ran (m : Model R M) (c : ModelComponent R M) (s s' : ModelState R M) : Prop where
  inputs : s'.inputs.real = (m.pull m.root.components c s).inputs.real
  outputs : ∃ y z memory memory', y.size = c.outputs.size ∧
    (c.component.Holds → y = s.outputs.readReal c.outputs) ∧
    (c.component.computeReal (s'.inputs.readReal c.inputs) y).perform memory = (.ok z, memory') ∧
    s'.outputs.real = c.outputs.overwrite s.outputs.real z

variable {k : Nat} {c : ModelComponent R M} {s' t' : ModelState R M}

theorem Ran.fits (hm : m.Laid) (h : m.Ran c s s') (hs : m.Fits s) : m.Fits s' := by
  intro kind
  cases kind with
  | input => exact (congrArg Array.size h.inputs).trans (hm.fits_pull hs c .input)
  | output =>
    obtain ⟨_, z, _, _, -, -, -, houtputs⟩ := h.outputs
    refine (congrArg Array.size houtputs).trans ?_
    exact (Span.size_overwrite _ _ _).trans (hs .output)

/-- Running a component does not change the inputs that it pulled. -/
theorem Ran.readReal_input (h : m.Ran c s s') (span : Span) :
    s'.inputs.readReal span = (m.pull m.root.components c s).inputs.readReal span := by
  simp only [StateVector.readReal, h.inputs]

theorem outputs_pull (scope : Span) (c : ModelComponent R M) (s : ModelState R M) :
    (m.pull scope c s).outputs = s.outputs :=
  of_pull (P := fun t => t.outputs = s.outputs) (fun _ _ h => h) scope c rfl

variable (hm : m.Laid) (hc : m.components[k]? = some c)

include hm hc

/-- The outputs of another component stand apart from those that a component computes. -/
theorem Laid.apart_outputs {v : ModelVariable R} (hv : m.variableAt? id = some v)
    (hkind : v.kind = .output) (hne : v.owner ≠ k) : v.span.Apart c.outputs := by
  obtain ⟨n, d, -, hlaid⟩ := hm.exists_node hc
  refine Span.Apart.symm fun i hi => ?_
  obtain ⟨own, hown, w, hw, hcontains⟩ := hlaid.outputs.exists_contains hi
  obtain ⟨w', hw', hwkind, howner⟩ := hlaid.outputs.of_mem hown
  obtain rfl := Option.some.inj (hw.symm.trans hw')
  refine hm.apart hw hv ?_ (hwkind.trans hkind.symm) i hcontains
  rintro rfl
  obtain rfl := Option.some.inj (hv.symm.trans hw)
  exact hne howner

/-- **Running a component changes only its own variables.** -/
theorem Ran.agree_of_ne (h : m.Ran c s s') {v : ModelVariable R}
    (hv : m.variableAt? id = some v) (hne : v.owner ≠ k) : m.Agree s' s id := by
  intro v' hv'
  obtain rfl := Option.some.inj (hv.symm.trans hv')
  have hown := (hm.mem_idsOf_iff hc hv).not.2 hne
  cases hkind : v.kind with
  | input =>
    rw [hkind] at hown
    have hpull := hm.agree_pull_of_not_mem (s := s) hown v hv
    rw [hkind] at hpull
    exact (h.readReal_input _).trans hpull
  | output =>
    obtain ⟨_, z, _, _, -, -, -, houtputs⟩ := h.outputs
    have hapart := hm.apart_outputs hc hv hkind hne
    change v.span.slice s'.outputs.real = v.span.slice s.outputs.real
    rw [houtputs]
    exact Span.slice_overwrite_of_apart hapart

omit hm hc in
/-- A component that holds its outputs changes none. -/
theorem Ran.agree_of_holds (h : m.Ran c s s') (hholds : c.component.Holds) {v : ModelVariable R}
    (hv : m.variableAt? id = some v) (hkind : v.kind = .output) : m.Agree s' s id := by
  intro v' hv'
  obtain rfl := Option.some.inj (hv.symm.trans hv')
  obtain ⟨y, z, memory, memory', -, hy, hz, houtputs⟩ := h.outputs
  have hsame : z = y := by
    rw [hholds] at hz
    cases hz
    rfl
  rw [hkind]
  change v.span.slice s'.outputs.real = v.span.slice s.outputs.real
  rw [houtputs, hsame, hy hholds, StateVector.readReal, Span.overwrite_slice]

/-- A component reads as many values as it has. -/
theorem Laid.size_readReal (hs : m.Fits s) (kind : VariableKind) :
    ((s.vector kind).readReal (Flattening.spanOf c kind)).size =
      (Flattening.spanOf c kind).size := by
  refine Span.size_slice ?_
  have hfits : (s.vector kind).real.size = m.lengthOf kind := hs kind
  rw [hfits]
  exact hm.inside c (List.mem_of_getElem? hc) kind

/-- An output of a component reads as its part of what was computed. -/
theorem Ran.readReal_output (hs : m.Fits s) {z : Array R} (hz : z.size = c.outputs.size)
    (houtputs : s'.outputs.real = c.outputs.overwrite s.outputs.real z) {own : Span}
    (hstop : own.stop ≤ c.outputs.size) :
    s'.outputs.readReal ⟨c.outputs.start + own.start, own.size⟩ = own.slice z := by
  have hfits : s.outputs.real.size = m.lengthOf .output := hs .output
  have hinside : c.outputs.stop ≤ s.outputs.real.size := by
    rw [hfits]
    exact hm.inside c (List.mem_of_getElem? hc) .output
  rw [StateVector.readReal, ← Span.slice_slice hstop, houtputs,
    Span.slice_overwrite_self hinside hz]

/-- An output that is computed as declared is the same after two runs whose inputs agree wherever an
edge leads to it. -/
theorem Ran.readReal_eq_of_functional (hfunctional : c.component.Functional) (hs : m.Fits s)
    (ht : m.Fits t) (h : m.Ran c s s') (h' : m.Ran c t t') {v : ModelVariable R}
    (hv : m.variableAt? id = some v) (hkind : v.kind = .output) (howner : v.owner = k)
    (hinputs : ∀ input i, (input, id) ∈ m.graph.edges → m.variableAt? input = some i →
      i.kind = .input → s'.inputs.readReal i.span = t'.inputs.readReal i.span) :
    s'.outputs.readReal v.span = t'.outputs.readReal v.span := by
  obtain ⟨n, d, hn, hlaid⟩ := hm.exists_node hc
  have hcomputes := hfunctional d c.partials hlaid.declarations hlaid.partials
  have hown := (hm.mem_idsOf_iff hc hv).2 howner
  rw [hkind] at hown
  obtain ⟨of, own, w, hof, hid, hw, -, hspan, hstop⟩ := hlaid.output hown
  obtain rfl := Option.some.inj (hv.symm.trans hw)
  obtain ⟨y, z, _, _, hy, -, hz, houtputs⟩ := h.outputs
  obtain ⟨y', z', _, _, hy', -, hz', houtputs'⟩ := h'.outputs
  have hx : (s'.inputs.readReal c.inputs).size = _ :=
    (hm.size_readReal hc (h.fits hm hs) .input).trans hlaid.inputs.size_eq
  have hx' : (t'.inputs.readReal c.inputs).size = _ :=
    (hm.size_readReal hc (h'.fits hm ht) .input).trans hlaid.inputs.size_eq
  have hsize := hlaid.outputs.size_eq
  have hzsize := hcomputes.size_eq hx (hy.trans hsize) hz
  have hzsize' := hcomputes.size_eq hx' (hy'.trans hsize) hz'
  have hins : c.layout.inputs = Layout.spans d.inputs := by rw [hlaid.layout]; rfl
  have houts : c.layout.outputs = Layout.spans d.outputs := by rw [hlaid.layout]; rfl
  have hread := Ran.readReal_output hm hc hs (hzsize.trans hsize.symm) houtputs hstop
  have hread' := Ran.readReal_output hm hc ht (hzsize'.trans hsize.symm) houtputs' hstop
  rw [hspan, hread, hread']
  refine hcomputes.determined hx hx' (hy.trans hsize) (hy'.trans hsize) hz hz' of own
    (houts ▸ hof) fun wrt other hwrt hdep => ?_
  obtain ⟨input, i, hinput, -, hi, hikind, hispan, histop⟩ := hlaid.input (hins ▸ hwrt)
  have hedge := hm.complete.mem_edges_of_component hn
    (hlaid.mem_edges_of_dependsOn hinput hid hdep)
  have hagree := hinputs input i hedge hi hikind
  rw [hispan] at hagree
  rw [StateVector.readReal, StateVector.readReal, Span.slice_slice histop, Span.slice_slice histop]
  exact hagree

/-- **Running a component in two states keeps an agreement** that holds of whatever its variables
depend on, if it holds its outputs or computes as it declares. -/
theorem Ran.agree (hcomponent : c.component.Holds ∨ c.component.Functional) {K : Nat → Prop}
    (hK : ∀ e ∈ m.graph.edges, K e.2 → K e.1) (hs : m.Fits s) (ht : m.Fits t)
    (h : m.Ran c s s') (h' : m.Ran c t t') (hagree : ∀ id, K id → m.Agree s t id) :
    ∀ id, K id → m.Agree s' t' id := by
  have hinputs (id : Nat) (hid : K id) (v : ModelVariable R) (hv : m.variableAt? id = some v)
      (hkind : v.kind = .input) : s'.inputs.readReal v.span = t'.inputs.readReal v.span := by
    have hpull := hm.agree_pull
      (fun id source hsource => hK (source, id) (hm.mem_edges_iff.2 (.inl hsource)))
      hs ht hagree c id hid v hv
    rw [hkind] at hpull
    rw [h.readReal_input, h'.readReal_input]
    exact hpull
  intro id hid v hv
  by_cases howner : v.owner = k
  swap
  · exact ((h.agree_of_ne hm hc hv howner).trans (hagree id hid)).trans
      (h'.agree_of_ne hm hc hv howner).symm v hv
  cases hkind : v.kind with
  | input => exact hinputs id hid v hv hkind
  | output =>
    rcases hcomponent with hholds | hfunctional
    · have hsame := ((h.agree_of_holds hholds hv hkind).trans (hagree id hid)).trans
        (h'.agree_of_holds hholds hv hkind).symm v hv
      rwa [hkind] at hsame
    · exact Ran.readReal_eq_of_functional hm hc hfunctional hs ht h h' hv hkind howner
        fun input i hedge hi hikind => hinputs input (hK _ hedge hid) i hi hikind

end Run

section Settled

/-- A state that running a component does not change: every connected input has the value of its
source, and the outputs of every component are what it computes at its inputs. -/
structure Settled (m : Model R M) (s : ModelState R M) : Prop where
  fits : m.Fits s
  connected : ∀ target source v w, m.source? target = some source →
    m.variableAt? source = some v → m.variableAt? target = some w →
    s.inputs.readReal w.span = s.outputs.readReal v.span
  computed : ∀ c ∈ m.components, ∃ y memory memory', y.size = c.outputs.size ∧
    (c.component.computeReal (s.inputs.readReal c.inputs) y).perform memory =
      (.ok (s.outputs.readReal c.outputs), memory')

theorem Settled.pull_real (hm : m.Laid) (h : m.Settled s) (c : ModelComponent R M) :
    (m.pull m.root.components c s).inputs.real = s.inputs.real := by
  -- pulling may touch the shadows, so that only the real parts of the states on the way stay
  have hpull (ids : List Nat) (t : ModelState R M) (hin : t.inputs.real = s.inputs.real)
      (hout : t.outputs.real = s.outputs.real) :
      (ids.foldl (m.pullInput m.root.components) t).inputs.real = s.inputs.real := by
    induction ids generalizing t with
    | nil => exact hin
    | cons id rest ih =>
      cases hsource : m.source? id with
      | none =>
        rw [List.foldl_cons, pullInput_of_none _ _ hsource]
        exact ih t hin hout
      | some source =>
        obtain ⟨v, w, hv, -, hw, -, -⟩ := hm.matching _ _ hsource
        rw [List.foldl_cons, hm.pullInput_of_source t hsource hv hw]
        refine ih _ ?_ hout
        have hsame := h.connected id source v w hsource hv hw
        simp only [StateVector.readReal] at hsame
        simp only [StateVector.copy, hin, hout, ← hsame, Span.overwrite_slice]
  exact hpull c.inputIds s rfl rfl

/-- **In a settled state, running a component leads nowhere.** -/
theorem Settled.ran (hm : m.Laid) (h : m.Settled s) {c : ModelComponent R M}
    (hc : c ∈ m.components) : m.Ran c s s := by
  obtain ⟨y, memory, memory', hy, hz⟩ := h.computed c hc
  refine ⟨(h.pull_real hm c).symm, y, _, memory, memory', hy, fun hholds => ?_, hz, ?_⟩
  · rw [hholds] at hz
    cases hz
    rfl
  · rw [StateVector.readReal, Span.overwrite_slice]

end Settled

section Schedule

variable [Scalar R] [DirectSolver R]

omit [DirectSolver R] in
/-- Computing a component whose inputs were pulled. -/
theorem ran_of_compute (hm : m.Laid) (hs : m.Fits s) {k : Nat} {c : ModelComponent R M}
    (hc : m.components[k]? = some c) {s' : ModelState R M}
    (h : (m.compute k .real).perform (m.pull m.root.components c s) = (.ok (), s')) :
    m.Ran c s s' := by
  unfold compute at h
  obtain ⟨c', _, hcomponent, h⟩ := Action.bind_eq_ok.1 h
  simp only [component, Action.perform_ofOutcome, hc, Outcome.ofOption, Prod.mk.injEq,
    Except.ok.injEq] at hcomponent
  obtain ⟨rfl, rfl⟩ := hcomponent
  obtain ⟨kept, _, hkept, h⟩ := Action.bind_eq_ok.1 h
  obtain ⟨-, rfl⟩ := Prod.mk.inj hkept
  have hreal : m.isComplexIn .real = false := rfl
  simp only [Action.perform_of, Component.evaluate, hreal, Bool.false_eq_true, if_false,
    outputs_pull] at h
  rcases hz : (c.component.computeReal ((m.pull m.root.components c s).inputs.readReal c.inputs)
    (s.outputs.readReal c.outputs)).perform kept.memory with ⟨e | z, memory'⟩
  · rw [hz] at h
    cases e <;> cases h
  · rw [hz] at h
    cases h
    refine ⟨rfl, s.outputs.readReal c.outputs, z, kept.memory, memory', ?_, fun _ => rfl, hz, rfl⟩
    exact hm.size_readReal hc hs .output

/-- Running a component of a schedule, or passing over it. -/
theorem exists_ran_of_perform (hm : m.Laid) (hs : m.Fits s) {active : ActiveSet} {k : Nat}
    {rest : Schedule R} {s' : ModelState R M}
    (h : (m.runSchedule active .real m.root.components (.component k rest)).perform s =
      (.ok (), s')) :
    ∃ t, (m.runSchedule active .real m.root.components rest).perform t = (.ok (), s') ∧
      if active.contains k then ∃ c, m.components[k]? = some c ∧ m.Ran c s t else t = s := by
  unfold runSchedule at h
  dsimp only at h
  split at h
  swap
  · rename_i hpassed
    exact ⟨s, h, by rw [if_neg hpassed]⟩
  rename_i hactive
  obtain ⟨c, _, hcomponent, h⟩ := Action.bind_eq_ok.1 h
  obtain ⟨_, _, hpull, h⟩ := Action.bind_eq_ok.1 h
  cases hpull
  obtain ⟨_, t, hcompute, h⟩ := Action.bind_eq_ok.1 h
  refine ⟨t, h, ?_⟩
  rw [if_pos hactive]
  simp only [component, Action.perform_ofOutcome, Prod.mk.injEq, Outcome.ofOption_eq_ok]
    at hcomponent
  obtain ⟨hc, rfl⟩ := hcomponent
  exact ⟨c, hc, ran_of_compute hm hs hc hcompute⟩

end Schedule

end Model

end Sensitivity
