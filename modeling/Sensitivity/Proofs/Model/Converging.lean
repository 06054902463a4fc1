import Sensitivity.Proofs.Model.Entries
import Sensitivity.Proofs.Model.Evaluating
import Sensitivity.Proofs.Model.History

/-!
# What an iteration leaves behind

An iteration ends with a residual: it pulls all inputs, runs every member on them, and puts back the
outputs that it started from. On the way out the real parts that were computed take their place, so
that every member, run again on the inputs that are stored, computes the real parts that are stored
(`Model.recomputes_of_newton`). The imaginary parts are not replaced: what is stored of them is what
the last residual started from, off by the imaginary residual that is left
(`Model.exists_stale_shadow`).

A member may compute its outputs from its inputs alone (`Component.Pure`) or leave its outputs as
they are (`Component.Still`). Both compute the same again.
-/

namespace Sensitivity

variable {R M : Type}

namespace StateVector

/-- Two vectors have the same entries in a span, imaginary parts included. -/
def AgreeOn (s : Span) (v w : StateVector R) : Prop :=
  s.slice v.real = s.slice w.real ∧ v.imag.map s.slice = w.imag.map s.slice

variable {s t : Span} {u v w : StateVector R}

theorem AgreeOn.refl (s : Span) (v : StateVector R) : v.AgreeOn s v := ⟨rfl, rfl⟩

theorem AgreeOn.trans (h : AgreeOn s u v) (h' : AgreeOn s v w) : AgreeOn s u w :=
  ⟨h.1.trans h'.1, h.2.trans h'.2⟩

theorem AgreeOn.readReal (h : AgreeOn s v w) : v.readReal s = w.readReal s := h.1

theorem readImag_congr [Scalar R] (h : v.imag.map s.slice = w.imag.map s.slice) :
    v.readImag s = w.readImag s := by
  unfold StateVector.readImag
  cases hv : v.imag <;> cases hw : w.imag <;> simp_all

/-- Imaginary parts that were overwritten with some values are not changed by these values. -/
theorem map_overwrite_eq_self {values : Array R}
    (h : v.imag.map s.slice = (w.writeImag s values).imag.map s.slice) :
    v.imag.map (s.overwrite · values) = v.imag := by
  cases hv : v.imag with
  | none => rfl
  | some im =>
    cases hw : w.imag with
    | none => simp [writeImag, hv, hw] at h
    | some old =>
      simp only [writeImag, hv, hw, Option.map_some, Option.some.injEq] at h
      exact congrArg some (Span.overwrite_of_slice_eq h)

/-- Overwriting looks at what was there before inside the span only. -/
theorem map_slice_overwrite_congr {values : Array R} (h : v.imag.map s.slice = w.imag.map s.slice) :
    (v.writeImag s values).imag.map s.slice = (w.writeImag s values).imag.map s.slice := by
  cases hv : v.imag <;> cases hw : w.imag <;> simp_all [writeImag]
  exact Span.slice_overwrite_congr h

/-- The real parts of what is read are what is there. -/
theorem overwrite_re_readComplex [Scalar R] (v : StateVector R) (s : Span) :
    s.overwrite v.real ((v.readComplex s).map ComplexNumber.re) = v.real := by
  refine Span.overwrite_eq_self fun i x y hi hx hy => ?_
  simp only [readComplex, Array.getElem?_map, Array.getElem?_zipWith, StateVector.readReal,
    Span.getElem?_slice_of_contains hi, hy] at hx
  cases him : (v.readImag s)[i - s.start]? <;> simp_all

/-- All parts of a vector are long enough for a span. -/
def Covers (v : StateVector R) (s : Span) : Prop :=
  s.stop ≤ v.size ∧ ∀ im, v.imag = some im → s.stop ≤ im.size

theorem map_size_writeImag (v : StateVector R) (s : Span) (values : Array R) :
    (v.writeImag s values).imag.map Array.size = v.imag.map Array.size := by
  simp [writeImag, Function.comp_def]

theorem Covers.size_readReal (h : v.Covers s) : (v.readReal s).size = s.size := Span.size_slice h.1

theorem Covers.size_readComplex [Scalar R] (h : v.Covers s) : (v.readComplex s).size = s.size := by
  have himag : (v.readImag s).size = s.size := by
    unfold StateVector.readImag
    split
    · rename_i im him
      exact Span.size_slice (h.2 im him)
    · exact Array.size_replicate
  rw [readComplex, Array.size_zipWith, h.size_readReal, himag, Nat.min_self]

/-- Writing is not seen in a span apart. -/
theorem agreeOn_writeReal (h : t.Apart s) (v : StateVector R) (values : Array R) :
    AgreeOn t (v.writeReal s values) v := ⟨Span.slice_overwrite_of_apart h, rfl⟩

theorem agreeOn_writeImag (h : t.Apart s) (v : StateVector R) (values : Array R) :
    AgreeOn t (v.writeImag s values) v := by
  refine ⟨rfl, ?_⟩
  cases him : v.imag <;> simp [writeImag, him, Span.slice_overwrite_of_apart h]

end StateVector

namespace Component

/-- What a component with `n` entries in its outputs computes depends on its inputs alone. -/
structure Pure (c : Component R M) (n : Nat) : Prop where
  real : ∀ {x y y' μ ν}, y.size = n → y'.size = n →
    ((c.computeReal x y).perform μ).1 = ((c.computeReal x y').perform ν).1
  complex : ∀ {x y y' μ ν}, y.size = n → y'.size = n →
    ((c.computeComplex x y).perform μ).1 = ((c.computeComplex x y').perform ν).1

/-- Outputs stay as they are, in real and in complex arithmetic. -/
structure Still (c : Component R M) : Prop where
  real : ∀ x y μ, ((c.computeReal x y).perform μ).1 = .ok y
  complex : ∀ x y μ, ((c.computeComplex x y).perform μ).1 = .ok y

variable [Scalar R]

theorem still_independent (memory : M) (outputs : List (String × VariableSpec R)) :
    (independent memory outputs).Still := ⟨fun _ _ _ => rfl, fun _ _ _ => rfl⟩

variable {c : Component R M} {inputs v v' w : StateVector R} {source target span : Span}
  {complex : Bool} {μ μ' : M}

/-- An evaluation writes what was computed. -/
theorem evaluate_eq_ok : (c.evaluate inputs source target complex).perform (μ, v) = (.ok (), μ', v') ↔
    (complex = false ∧ ∃ z, (c.computeReal (inputs.readReal source) (v.readReal target)).perform μ =
      (.ok z, μ') ∧ v' = v.storeReal target z) ∨
    (complex = true ∧ ∃ z, (c.computeComplex (inputs.readComplex source)
      (v.readComplex target)).perform μ = (.ok z, μ') ∧ v' = v.storeComplex target z) := by
  simp only [evaluate, Action.perform_of]
  cases complex with
  | false =>
    rcases (c.computeReal (inputs.readReal source) (v.readReal target)).perform μ with ⟨e | z, ν⟩
    · simp
    · simp [eq_comm, and_comm]
  | true =>
    rcases (c.computeComplex (inputs.readComplex source) (v.readComplex target)).perform μ
      with ⟨e | z, ν⟩
    · simp
    · simp [eq_comm, and_comm]

/-- Whether or not it succeeds, an evaluation writes into the vector that there is. -/
theorem lengths_evaluate (c : Component R M) (inputs v : StateVector R) (source target : Span)
    (complex : Bool) (μ : M) :
    ((c.evaluate inputs source target complex).perform (μ, v)).2.2.size = v.size ∧
      ((c.evaluate inputs source target complex).perform (μ, v)).2.2.imag.map Array.size =
        v.imag.map Array.size := by
  simp only [evaluate, Action.perform_of]
  cases complex with
  | false =>
    rcases (c.computeReal (inputs.readReal source) (v.readReal target)).perform μ with ⟨e | z, ν⟩
    · exact ⟨rfl, rfl⟩
    · exact ⟨Span.size_overwrite _ _ _, StateVector.map_size_writeImag (v.writeReal _ _) _ _⟩
  | true =>
    rcases (c.computeComplex (inputs.readComplex source) (v.readComplex target)).perform μ
      with ⟨e | z, ν⟩
    · exact ⟨rfl, rfl⟩
    · exact ⟨Span.size_overwrite _ _ _, StateVector.map_size_writeImag (v.writeReal _ _) _ _⟩

/-- **The same is computed again.** Where the real parts of the outputs are those that an evaluation
left, and the imaginary parts those that it left in real arithmetic and started from in complex
arithmetic, the component finds the real parts that it computes, and the imaginary parts too in real
arithmetic. -/
theorem evaluate_again (hc : c.Pure target.size ∨ c.Still) (hv : v.Covers target)
    (hw : w.Covers target)
    (h : (c.evaluate inputs source target complex).perform (μ, v) = (.ok (), μ', v'))
    (hreal : target.slice w.real = target.slice v'.real)
    (himag : w.imag.map target.slice = (bif complex then v else v').imag.map target.slice) :
    ∃ w', w'.real = w.real ∧ (complex = false → w' = w) ∧
      w'.imag.map target.slice = v'.imag.map target.slice ∧
        ∀ ν, ∃ ν', (c.evaluate inputs source target complex).perform (ν, w) = (.ok (), ν', w') := by
  rcases evaluate_eq_ok.1 h with ⟨rfl, z, hz, rfl⟩ | ⟨rfl, z, hz, rfl⟩
  · have hz' (ν : M) : ((c.computeReal (inputs.readReal source) (w.readReal target)).perform ν).1 =
        .ok z := by
      rcases hc with hc | hc
      · rw [hc.real hw.size_readReal hv.size_readReal (ν := μ), hz]
      · have hsame := hc.real (inputs.readReal source) (v.readReal target) μ
        rw [hz] at hsame
        rw [hc.real, Except.ok.inj hsame]
        refine congrArg Except.ok (hreal.trans ?_)
        rw [Except.ok.inj hsame]
        exact congrArg target.slice (Span.overwrite_slice _ _)
    have hstore : w.storeReal target z = w :=
      StateVector.eq_iff.2 ⟨Span.overwrite_of_slice_eq hreal, StateVector.map_overwrite_eq_self himag⟩
    exact ⟨w, rfl, fun _ => rfl, himag, fun ν =>
      ⟨_, evaluate_eq_ok.2 (.inl ⟨rfl, z, Action.perform_eq_ok (hz' ν), hstore.symm⟩)⟩⟩
  · have hz' (ν : M) : ((c.computeComplex (inputs.readComplex source)
        (w.readComplex target)).perform ν).1 = .ok z := by
      rcases hc with hc | hc
      · rw [hc.complex hw.size_readComplex hv.size_readComplex (ν := μ), hz]
      · have hsame := hc.complex (inputs.readComplex source) (v.readComplex target) μ
        rw [hz] at hsame
        obtain rfl := Except.ok.inj hsame
        rw [hc.complex, StateVector.readComplex, StateVector.readComplex,
          StateVector.readImag_congr himag, show w.readReal target = v.readReal target from
            hreal.trans (congrArg target.slice (StateVector.overwrite_re_readComplex v target))]
        rfl
    exact ⟨w.storeComplex target z, Span.overwrite_of_slice_eq hreal, nofun,
      StateVector.map_slice_overwrite_congr himag, fun ν =>
        ⟨_, evaluate_eq_ok.2 (.inr ⟨rfl, z, Action.perform_eq_ok (hz' ν), rfl⟩)⟩⟩

/-- An evaluation is not seen in a span apart from its outputs. -/
theorem agreeOn_of_evaluate (hspan : span.Apart target)
    (h : (c.evaluate inputs source target complex).perform (μ, v) = (.ok (), μ', v')) :
    v'.AgreeOn span v := by
  rcases evaluate_eq_ok.1 h with ⟨-, z, -, rfl⟩ | ⟨-, z, -, rfl⟩
  · exact (StateVector.agreeOn_writeImag hspan _ _).trans (StateVector.agreeOn_writeReal hspan _ _)
  · exact (StateVector.agreeOn_writeImag hspan _ _).trans (StateVector.agreeOn_writeReal hspan _ _)

end Component

variable [Scalar R]

namespace Model

variable {m : Model R M} {mode : Mode} {s t : ModelState R M}

omit [Scalar R] in
/-- Pulling changes inputs only. -/
theorem residuals_pull (scope : Span) (c : ModelComponent R M) (s : ModelState R M) :
    (m.pull scope c s).residuals = s.residuals :=
  of_pull (P := fun t => t.residuals = s.residuals) (fun _ _ h => h) scope c rfl

section Shape

omit [Scalar R]

/-- The outputs of a state have an entry for each entry of the model, and its outputs and residuals
have imaginary parts if the model stores them. -/
structure Shaped (m : Model R M) (s : ModelState R M) : Prop where
  size : s.outputs.size = m.outputLength
  outputs : s.outputs.imag.map Array.size = if m.complex then some m.outputLength else none
  residuals : s.residuals.imag.map Array.size = if m.complex then some m.outputLength else none

theorem Shaped.covers (h : m.Shaped s) {span : Span} (hspan : span.stop ≤ m.outputLength) :
    s.outputs.Covers span := by
  refine ⟨hspan.trans h.size.ge, fun im him => ?_⟩
  have himag := h.outputs
  rw [him, Option.map_some] at himag
  split at himag
  · exact hspan.trans (Option.some.inj himag).ge
  · cases himag

theorem Shaped.congr (h : m.Shaped s) (houtputs : t.outputs = s.outputs)
    (hresiduals : t.residuals = s.residuals) : m.Shaped t :=
  ⟨houtputs ▸ h.size, houtputs ▸ h.outputs, hresiduals ▸ h.residuals⟩

end Shape

/-- Evaluations change no lengths. -/
theorem carried_shaped : m.Carried mode m.Shaped where
  pull {s} scope c hs := hs.congr (outputs_pull scope c s) (residuals_pull scope c s)
  compute k := by
    unfold compute
    refine Action.preserves_bind (Action.preserves_ofOutcome _) fun c => ?_
    refine Action.preserves_bind (Action.preserves_read _) fun kept => ?_
    exact fun s hs _ => ⟨(Component.lengths_evaluate _ _ _ _ _ _ _).1.trans hs.size,
      (Component.lengths_evaluate _ _ _ _ _ _ _).2.trans hs.outputs, hs.residuals⟩
  linearizeAt k baseline := by
    intro s hs hanswers
    have hpoint := m.keeps_linearizeAt k none baseline s.point s rfl hanswers
    simp only [ModelState.point, Prod.mk.injEq] at hpoint
    exact hs.congr hpoint.2.1 hpoint.2.2.1
  outputs _ _ hs := ⟨(Span.size_overwrite _ _ _).trans hs.size, hs.outputs, hs.residuals⟩
  residuals _ _ hs := ⟨hs.size, hs.outputs, hs.residuals⟩
  imagOutputs _ _ _ _ hs :=
    ⟨hs.size, (StateVector.map_size_writeImag _ _ _).trans hs.outputs, hs.residuals⟩
  imagResiduals _ _ _ _ hs :=
    ⟨hs.size, hs.outputs, (StateVector.map_size_writeImag _ _ _).trans hs.residuals⟩
  diagnostics _ hs := ⟨hs.size, hs.outputs, hs.residuals⟩

/-- On the way from one state to another a component was run on the inputs that both have. It found
its outputs as they are in the first state and left them as they are in the second. -/
def RanBetween (m : Model R M) (mode : Mode) (s t : ModelState R M) (c : ModelComponent R M) : Prop :=
  ∃ u v memory memory', m.Shaped u ∧ u.outputs.AgreeOn c.outputs s.outputs ∧
    t.outputs.AgreeOn c.outputs v ∧
      (c.component.evaluate t.inputs c.inputs c.outputs (m.isComplexIn mode)).perform
        (memory, u.outputs) = (.ok (), memory', v)

/-- Running a component changes its outputs, and neither inputs nor residuals. -/
theorem exists_of_compute {k : Nat} (h : (m.compute k mode).perform s = (.ok (), t)) :
    ∃ c memory memory', m.components[k]? = some c ∧ t.inputs = s.inputs ∧
      t.residuals = s.residuals ∧
        (c.component.evaluate s.inputs c.inputs c.outputs (m.isComplexIn mode)).perform
          (memory, s.outputs) = (.ok (), memory', t.outputs) := by
  unfold compute at h
  obtain ⟨c, hc, h⟩ := Action.ofOutcome_bind_eq_ok.1 h
  obtain ⟨kept, u, hkept, h⟩ := Action.bind_eq_ok.1 h
  obtain ⟨-, rfl⟩ := Prod.mk.inj hkept
  rw [Action.perform_of] at h
  rcases heval : (c.component.evaluate s.inputs c.inputs c.outputs (m.isComplexIn mode)).perform
    (kept.memory, s.outputs) with ⟨o, memory', v'⟩
  rw [heval] at h
  obtain ⟨ho, rfl⟩ := Prod.mk.inj h
  rw [Outcome.mapError_eq_ok] at ho
  exact ⟨c, kept.memory, memory', (Outcome.ofOption_eq_ok _ _).1 hc, rfl, rfl, ho ▸ heval⟩

/-- **Running components whose outputs stand apart** runs each of them on the same inputs, and changes
nothing outside their outputs. -/
theorem ranBetween_of_forEach {ks : List Nat} (hs : m.Shaped s)
    (hapart : ks.Pairwise fun k l => ∀ c d, m.components[k]? = some c → m.components[l]? = some d →
      c.outputs.Apart d.outputs)
    (h : (Action.forEach ks fun k => m.compute k mode).perform s = (.ok (), t)) :
    t.inputs = s.inputs ∧ t.residuals = s.residuals ∧
      (∀ span : Span, (∀ k ∈ ks, ∀ c, m.components[k]? = some c → span.Apart c.outputs) →
        t.outputs.AgreeOn span s.outputs) ∧
      ∀ k ∈ ks, ∃ c, m.components[k]? = some c ∧ m.RanBetween mode s t c := by
  induction ks generalizing s with
  | nil =>
    cases h
    exact ⟨rfl, rfl, fun span _ => .refl _ _, nofun⟩
  | cons k rest ih =>
    obtain ⟨⟨⟩, u, hk, hrest⟩ := Action.bind_eq_ok.1 h
    obtain ⟨c, memory, memory', hc, hinputs, hresiduals, heval⟩ := exists_of_compute hk
    obtain ⟨hfirst, hlater⟩ := List.pairwise_cons.1 hapart
    have hu : m.Shaped u := (carried_shaped.compute k).of_ok hs hk
    obtain ⟨hinputs', hresiduals', houtside, hran⟩ := ih hu hlater hrest
    refine ⟨hinputs'.trans hinputs, hresiduals'.trans hresiduals, fun span hspan => ?_, ?_⟩
    · have hown := hspan k List.mem_cons_self c hc
      exact (houtside span fun l hl => hspan l (List.mem_cons_of_mem k hl)).trans
        (Component.agreeOn_of_evaluate hown heval)
    · rintro l hl
      rcases List.mem_cons.1 hl with rfl | hl
      · refine ⟨c, hc, s, u.outputs, memory, memory', hs, .refl _ _, ?_, ?_⟩
        · exact houtside c.outputs fun j hj d hd => hfirst j hj c d hc hd
        · rwa [hinputs', hinputs]
      · obtain ⟨d, hd, w, v, ν, ν', hw, hwu, hv, heval'⟩ := hran l hl
        have hd' : d.outputs.Apart c.outputs := (hfirst l hl c d hc hd).symm
        exact ⟨d, hd, w, v, ν, ν', hw, hwu.trans (Component.agreeOn_of_evaluate hd' heval), hv, heval'⟩

end Model

namespace NewtonFrame

variable {m : Model R M} {frame : NewtonFrame R} {s t : ModelState R M} {r : Residual R}

/-- How an iteration ends: a residual pulls the inputs and runs all members. The real parts that it
computes are left as the outputs. The imaginary parts are put back as they were before, and what
they lack is noted as the residual. -/
structure Exit (m : Model R M) (frame : NewtonFrame R) (before pulled ran after : ModelState R M) :
    Prop where
  outputs_pulled : pulled.outputs = before.outputs
  residuals_pulled : pulled.residuals = before.residuals
  run : (Action.forEach frame.components fun c => m.compute c frame.mode).perform pulled =
    (.ok (), ran)
  inputs : after.inputs = ran.inputs
  real : after.outputs.real = ran.outputs.real
  imag : m.isComplexIn frame.mode = false → after.outputs.imag = ran.outputs.imag
  shadow : m.isComplexIn frame.mode = true → after.outputs.imag = ran.outputs.imag.map fun im =>
    frame.unknowns.overwrite im (before.outputs.readImag frame.unknowns)
  residual : m.isComplexIn frame.mode = true → after.residuals.imag = ran.residuals.imag.map fun im =>
    frame.unknowns.overwrite im (Array.zipWith (· - ·) (before.outputs.readImag frame.unknowns)
      (ran.outputs.readImag frame.unknowns))

/-- A residual whose computed real parts are left as the outputs is an end. -/
theorem exit_of_residual (h : (frame.residual m).perform s = (.ok r, t)) :
    ∃ pulled ran, Exit m frame s pulled ran
      { t with outputs := t.outputs.writeReal frame.unknowns r.computed } := by
  unfold residual at h
  rw [Action.perform_get_bind] at h
  obtain ⟨⟨⟩, pulled, hpull, h⟩ := Action.bind_eq_ok.1 h
  obtain ⟨⟨⟩, ran, hrun, h⟩ := Action.bind_eq_ok.1 h
  rw [Action.perform_get_bind] at h
  obtain ⟨⟨⟩, noted, hnoted, h⟩ := Action.bind_eq_ok.1 h
  have hkeeps : (Action.forEach frame.components fun c => do
      let component ← m.component c
      modify (m.pull frame.scope component) : ModelWork R M Unit).Keeps
        fun s => (s.outputs, s.residuals) := by
    refine fun v => Action.preserves_forEach fun c => ?_
    refine Action.preserves_bind (Action.preserves_ofOutcome _) fun component => ?_
    refine Action.preserves_modify fun s hs => ?_
    dsimp only at hs ⊢
    rw [← hs, Model.outputs_pull, Model.residuals_pull]
  have hview := hkeeps _ s rfl (by rw [hpull]; exact Outcome.answers_ok _)
  rw [hpull] at hview
  obtain ⟨houtputs, hresiduals⟩ := Prod.mk.inj hview
  obtain ⟨-, rfl⟩ := Prod.mk.inj hnoted
  dsimp only at h
  split at h
  · rename_i hmode
    have hreal : m.isComplexIn frame.mode = false := by simpa using hmode
    cases h
    exact ⟨pulled, ran, houtputs, hresiduals, hrun, rfl, Span.overwrite_overwrite_slice, fun _ => rfl,
      fun h => absurd h (by simp [hreal]), fun h => absurd h (by simp [hreal])⟩
  · rename_i hmode
    have hcomplex : m.isComplexIn frame.mode = true := by simpa using hmode
    cases h
    exact ⟨pulled, ran, houtputs, hresiduals, hrun, rfl, Span.overwrite_overwrite_slice,
      fun h => absurd h (by simp [hcomplex]), fun _ => rfl, fun _ => rfl⟩

variable [DirectSolver R] {P : ModelState R M → Prop}

/-- **However an iteration ends, unless with an error, it ends with a residual** that started from a
state with everything that is carried through evaluations. -/
theorem exit_of_iterate (hP : m.Carried frame.mode P) (hs : P s) {first : Option R} {remaining : Nat}
    {result : NewtonResult R} (h : (frame.iterate m first remaining).perform s = (.ok result, t)) :
    ∃ before pulled ran, P before ∧ Exit m frame before pulled ran t := by
  induction remaining generalizing first s with
  | zero =>
    unfold iterate at h
    obtain ⟨r, u, hr, h⟩ := Action.bind_eq_ok.1 h
    obtain ⟨pulled, ran, hexit⟩ := exit_of_residual hr
    dsimp only at h
    split at h <;> cases h <;> exact ⟨s, pulled, ran, hs, hexit⟩
  | succ n ih =>
    unfold iterate at h
    obtain ⟨r, u, hr, h⟩ := Action.bind_eq_ok.1 h
    dsimp only at h
    split at h
    · obtain ⟨pulled, ran, hexit⟩ := exit_of_residual hr
      cases h
      exact ⟨s, pulled, ran, hs, hexit⟩
    · obtain ⟨⟨⟩, w, hadvance, h⟩ := Action.bind_eq_ok.1 h
      have hu : P u := hP.residual.of_ok hs hr
      have hw : P w := (hP.advance fun im => isComplexIn_of_residual hr).of_ok hu hadvance
      exact ih hw h

/-- A notice of an iteration that gave up changes none of its results. -/
theorem exit_of_solve (hP : m.Carried frame.mode P) (hs : P s) {result : NewtonResult R}
    (h : (frame.solve m).perform s = (.ok result, t)) :
    ∃ before pulled ran, P before ∧ Exit m frame before pulled ran t := by
  unfold solve at h
  obtain ⟨result', u, hu, h⟩ := Action.bind_eq_ok.1 h
  obtain ⟨before, pulled, ran, hbefore, hexit⟩ := exit_of_iterate hP hs hu
  refine ⟨before, pulled, ran, hbefore, ?_⟩
  split at h
  · cases h
    exact hexit
  · dsimp only at h
    split at h
    · cases h
    · cases h
      exact { hexit with }

end NewtonFrame

namespace Model

variable {m : Model R M} {mode : Mode} {s t : ModelState R M}

/-- The state after the members ran at the end of an iteration is as long as the one before. -/
theorem shaped_of_exit {frame : NewtonFrame R} {before pulled ran after : ModelState R M}
    (h : NewtonFrame.Exit m frame before pulled ran after) (hbefore : m.Shaped before) :
    m.Shaped ran :=
  (Action.preserves_forEach carried_shaped.compute).of_ok
    (hbefore.congr h.outputs_pulled h.residuals_pulled) h.run

/-- The imaginary parts at the end of an iteration: those from before in the outputs, and what the
computed ones lack of them in the residuals. -/
theorem shadows_of_exit {frame : NewtonFrame R} {before pulled ran after : ModelState R M}
    (h : NewtonFrame.Exit m frame before pulled ran after)
    (hcomplex : m.isComplexIn frame.mode = true) (hbefore : m.Shaped before) :
    ∃ old computed new noted : Array R, before.outputs.imag = some old ∧
      ran.outputs.imag = some computed ∧ after.outputs.imag = some new ∧
      after.residuals.imag = some noted ∧ ∀ i, frame.unknowns.contains i = true →
        new[i]? = old[i]? ∧ (i < m.outputLength →
          (noted[i]?).getD 0 = (old[i]?).getD 0 - (computed[i]?).getD 0) := by
  have hstored : m.complex = true := by
    rw [isComplexIn, Bool.and_eq_true] at hcomplex
    exact hcomplex.2
  have hran := shaped_of_exit h hbefore
  have houtputs := hran.outputs
  have hresiduals := hran.residuals
  have hearlier := hbefore.outputs
  rw [if_pos hstored] at houtputs hresiduals hearlier
  obtain ⟨old, hold, hlength⟩ := Option.map_eq_some_iff.1 hearlier
  obtain ⟨computed, hcomputed, hlength'⟩ := Option.map_eq_some_iff.1 houtputs
  obtain ⟨earlier, hearlier, hlength''⟩ := Option.map_eq_some_iff.1 hresiduals
  have hnew := h.shadow hcomplex
  have hnoted := h.residual hcomplex
  rw [hcomputed, Option.map_some] at hnew
  rw [hearlier, Option.map_some] at hnoted
  simp only [StateVector.readImag, hold, hcomputed] at hnew hnoted
  refine ⟨old, computed, _, _, hold, hcomputed, hnew, hnoted, fun i hi => ⟨?_, fun hlt => ?_⟩⟩
  · exact Span.getElem?_overwrite_slice hi (hlength'.trans hlength.symm)
  · rw [Span.getElem?_overwrite_of_contains hi]
    simp only [Array.getD_eq_getD_getElem?, Array.getElem?_zipWith,
      Span.getElem?_slice_of_contains hi]
    rw [Array.getElem?_eq_getElem (show i < old.size by omega),
      Array.getElem?_eq_getElem (show i < computed.size by omega),
      Array.getElem?_eq_getElem (show i < earlier.size by omega)]
    rfl

/-- Running a component again on the inputs that are stored for it, whatever it remembers, leaves
these outputs. -/
def Recomputes (m : Model R M) (mode : Mode) (t : ModelState R M) (c : ModelComponent R M)
    (v : StateVector R) : Prop :=
  ∀ memory, ∃ memory', (c.component.evaluate t.inputs c.inputs c.outputs (m.isComplexIn mode)).perform
    (memory, t.outputs) = (.ok (), memory', v)

section Consistent

omit [Scalar R]

variable {g : Group R M} (hm : m.Consistent g)

include hm

/-- Of two components, the outputs of the first end before those of the second begin. -/
theorem Consistent.stop_le {k l : Nat} {c d : ModelComponent R M} (hc : m.components[k]? = some c)
    (hd : m.components[l]? = some d) (hkl : k < l) : c.outputs.stop ≤ d.outputs.start := by
  have hpairs := (hm.stacked .output).pairwise
  rw [List.pairwise_map] at hpairs
  obtain ⟨hk, rfl⟩ := List.getElem?_eq_some_iff.1 hc
  obtain ⟨hl, rfl⟩ := List.getElem?_eq_some_iff.1 hd
  exact List.pairwise_iff_getElem.1 hpairs k l hk hl hkl

/-- The outputs of the members of a group are apart. -/
theorem Consistent.pairwise_members (x : ModelGroup R) :
    x.members.Pairwise fun k l => ∀ c d, m.components[k]? = some c → m.components[l]? = some d →
      c.outputs.Apart d.outputs := by
  refine List.Pairwise.imp (fun hkl c d hc hd => ?_) (List.pairwise_lt_range' _ Nat.one_pos)
  exact Span.apart_of_le (hm.stop_le hc hd hkl)

/-- The outputs of a member are among those of the group. -/
theorem Consistent.within_outputsOf {x : ModelGroup R} {u : Span} (hu : m.outputsOf x = some u)
    {k : Nat} (hk : k ∈ x.members) {c : ModelComponent R M} (hc : m.components[k]? = some c) :
    c.outputs.Within u := by
  simp only [outputsOf, Option.bind_eq_bind, Option.bind_eq_some_iff] at hu
  obtain ⟨first, hfirst, last, hlast, hu⟩ := hu
  simp only [Span.between?, Option.ite_none_right_eq_some, Option.some.injEq] at hu
  obtain ⟨hle, rfl⟩ := hu
  rw [ModelGroup.members, Span.positions, List.mem_range'_1] at hk
  have hsize (d : ModelComponent R M) : d.outputs.stop = d.outputs.start + d.outputs.size := rfl
  constructor
  · change first.outputs.start ≤ c.outputs.start
    rcases hk.1.eq_or_lt with hstart | hlt
    · rw [hstart, hc] at hfirst
      cases hfirst
      exact Nat.le_refl _
    · have := hm.stop_le hfirst hc hlt
      have := hsize first
      omega
  · change c.outputs.stop ≤ first.outputs.start + (last.outputs.stop - first.outputs.start)
    have hstop : x.components.stop = x.components.start + x.components.size := rfl
    rcases (show k ≤ x.components.stop - 1 by omega).eq_or_lt with hlast' | hlt
    · rw [← hlast', hc] at hlast
      cases hlast
      omega
    · have := hm.stop_le hc hlast hlt
      have := hsize last
      omega

end Consistent

variable [DirectSolver R]

/-- **Newton iterations leave outputs that their inputs account for, but for imaginary parts.** When
an iteration over members that are pure or still ends without an error, converged or not, each member,
run again on its stored inputs, computes the real parts that are stored. In real arithmetic it finds
everything as it is. In complex arithmetic the imaginary parts that it computes differ from those that
are stored by the imaginary residual. -/
theorem recomputes_of_newton {g : Group R M} {settings : SetupSettings}
    (h : ofGroup g settings = .ok m) {x : ModelGroup R} {newton : NewtonSettings R} {scope : Span}
    {result : NewtonResult R}
    (hmembers : ∀ k ∈ x.members, ∀ c, m.components[k]? = some c →
      c.component.Pure c.outputs.size ∨ c.component.Still)
    (hs : m.Shaped s) (hn : (m.newton x newton mode scope).perform s = (.ok result, t)) :
    ∀ k ∈ x.members, ∃ c v, m.components[k]? = some c ∧ m.Recomputes mode t c v ∧
      v.real = t.outputs.real ∧ (m.isComplexIn mode = false → v = t.outputs) ∧
        (m.isComplexIn mode = true → ∀ i, c.outputs.contains i = true →
          t.residuals.entry .complex i = t.outputs.entry .complex i - v.entry .complex i) := by
  intro k hk
  have hm := consistent_of_ofGroup h
  have ht : m.Shaped t := (carried_shaped.newton x newton scope).of_ok hs hn
  unfold Model.newton at hn
  split at hn
  · rename_i hzero
    rw [ModelGroup.members, Span.positions, hzero] at hk
    cases hk
  obtain ⟨span, hspan, hn⟩ := Action.ofOutcome_bind_eq_ok.1 hn
  rw [Action.perform_get_bind] at hn
  obtain ⟨before, pulled, ran, hbefore, hexit⟩ := NewtonFrame.exit_of_solve carried_shaped hs hn
  obtain ⟨hinputs, hresiduals, -, hran⟩ := ranBetween_of_forEach
    (hbefore.congr hexit.outputs_pulled hexit.residuals_pulled) (hm.pairwise_members x) hexit.run
  obtain ⟨c, hc, u, v, memory, memory', hu, hagree, hv, heval⟩ := hran k hk
  have hwithin := hm.within_outputsOf ((Outcome.ofOption_eq_ok _ _).1 hspan) hk hc
  have hstop : c.outputs.stop ≤ m.outputLength :=
    ((hm.stacked .output).bounds.2 _ (List.mem_map_of_mem (List.mem_of_getElem? hc))).2
  -- the imaginary parts that the iteration leaves are those that the component found
  have hstored (hcomplex : m.isComplexIn mode = true) : t.outputs.imag.map c.outputs.slice =
      before.outputs.imag.map c.outputs.slice := by
    obtain ⟨old, computed, new, noted, hold, -, hnew, -, hentries⟩ :=
      shadows_of_exit hexit hcomplex hbefore
    rw [hold, hnew]
    exact congrArg some (Span.slice_eq_of_within hwithin
      (Span.slice_eq_iff.2 fun i hi => (hentries i hi).1))
  have hreal : c.outputs.slice t.outputs.real = c.outputs.slice v.real := hexit.real ▸ hv.1
  have himag : t.outputs.imag.map c.outputs.slice =
      (bif m.isComplexIn mode then u.outputs else v).imag.map c.outputs.slice := by
    cases hcomplex : m.isComplexIn mode with
    | false => exact hexit.imag hcomplex ▸ hv.2
    | true => exact (hstored hcomplex).trans ((hexit.outputs_pulled ▸ hagree.2).symm)
  obtain ⟨w, hreal', hsame, himag', hagain⟩ := Component.evaluate_again (hmembers k hk c hc)
    (hu.covers hstop) (ht.covers hstop) heval hreal himag
  refine ⟨c, w, hc, ?_, hreal', hsame, fun hcomplex i hi => ?_⟩
  · intro memory
    rw [hexit.inputs]
    exact hagain memory
  · obtain ⟨old, computed, new, noted, hold, hcomputed, hnew, hnoted, hentries⟩ :=
      shadows_of_exit hexit hcomplex hbefore
    have hbounds := Span.contains_iff.1 hi
    obtain ⟨hkept, hresidual⟩ := hentries i
      (Span.contains_iff.2 ⟨hwithin.1.trans hbounds.1, hbounds.2.trans_le hwithin.2⟩)
    have hw : w.entry .complex i = (computed[i]?).getD 0 := by
      have hslices := himag'.trans hv.2.symm
      rw [hcomputed] at hslices
      obtain ⟨im, him, hslice⟩ := Option.map_eq_some_iff.1 hslices
      rw [StateVector.entry, StateVector.lane, him, Option.getD_some, Span.slice_eq_iff.1 hslice i hi]
    rw [hw, StateVector.entry, StateVector.entry, StateVector.lane, StateVector.lane, hnoted, hnew,
      Option.getD_some, Option.getD_some, hkept]
    exact hresidual (hbounds.2.trans_le hstop)

section Triple

/-- Three times its input. -/
def triple : ExpressionComponent Float where
  inputs := [("x", .scalar 0.0)]
  outputs := [("y", .scalar 0.0, [.binaryReal .mul (.input "x" 0) 3.0])]
  partials := [(.all, .all, .ok (.approximated { Settings.finiteDifference with step := some 0.5 }))]
  checkSettings := none
  complexSafe := true
  analytic := []
  failures := []

theorem pure_triple : triple.toComponent.Pure 1 := by
  have hlayout : triple.layout.outputs.get? "y" = some ⟨0, 1⟩ := rfl
  have hsame {T : Type} [Number Float T] {x y y' : Array T} (hy : y.size = 1) (hy' : y'.size = 1) :
      triple.compute triple.layout x y = triple.compute triple.layout x y' := by
    obtain ⟨a, rfl⟩ := Array.size_eq_one_iff.1 hy
    obtain ⟨b, rfl⟩ := Array.size_eq_one_iff.1 hy'
    generalize triple.layout = l at hlayout
    simp [ExpressionComponent.compute, ExpressionComponent.checkFailures, triple,
      ExpressionComponent.writeEntries, Expression.eval, NamedValues.write?, NamedValues.position?,
      hlayout]
  exact ⟨hsame, hsame⟩

/-- An iteration that takes no step, and is content with that. -/
def noSteps : NewtonSettings Float := ⟨1e-10, 1e-10, 0, false⟩

/-- A source and three times its value, solved for together, with a complex step across them. -/
def tripleGroup : Group Float Unit where
  settings :=
    { connections := [("source.x", "triple.x")]
      solver := .newton noSteps
      approximation := some .complexStep }
  members := .component "source" (.independent () [("x", .scalar 1.0)]) <|
    .component "triple" triple.toComponent .empty

theorem isSome_triple : (ofGroup tripleGroup .standard).toOption.isSome = true := by decide +kernel

/-- The model of the group. -/
def tripleModel : Model Float Unit := (ofGroup tripleGroup .standard).toOption.get isSome_triple

theorem ofGroup_triple : ofGroup tripleGroup .standard = .ok tripleModel :=
  Except.eq_ok_of_toOption (Option.some_get isSome_triple).symm

theorem isSome_tripleStart : tripleModel.start.toOption.isSome = true := by decide +kernel

/-- The model at the start, with a complex step on the source under way. -/
def tripleStepped : ModelState Float Unit :=
  let s := tripleModel.start.toOption.get isSome_tripleStart
  ((tripleModel.perturb ModelGroup.rootLabel "source.x" 0 (.imag 0.5)).perform
    { s with stack := s.stack.push ModelGroup.rootLabel 0.5 }).2

/-- How the iteration on the group ends. -/
def tripleSolved : Outcome (ModelError Float) (NewtonResult Float) × ModelState Float Unit :=
  (tripleModel.newton tripleModel.root noSteps .complex tripleModel.root.components).perform
    tripleStepped

/-- The iteration ends with a result, on variables that have one entry each. -/
theorem evaluated_triple : tripleSolved.1.toOption.isSome = true ∧
    tripleModel.Shaped tripleStepped ∧ ∀ c ∈ tripleModel.components, c.outputs.size = 1 :=
  ⟨by decide +kernel, ⟨by decide +kernel, by decide +kernel, by decide +kernel⟩, by decide +kernel⟩

theorem shaped_triple : tripleModel.Shaped tripleStepped := evaluated_triple.2.1

theorem member_triple {k : Nat} {c : ModelComponent Float Unit}
    (hc : tripleModel.components[k]? = some c) :
    c.component.Pure c.outputs.size ∨ c.component.Still := by
  have hsize := evaluated_triple.2.2
  have hc := List.mem_of_getElem? hc
  have hmem : c.component ∈ tripleGroup.members.components := by
    rw [← components_of_ofGroup ofGroup_triple]
    exact List.mem_map_of_mem hc
  rw [hsize c hc]
  rcases List.mem_cons.1 hmem with h | hmem
  · exact .inr (h ▸ Component.still_independent _ _)
  · exact .inl (List.mem_singleton.1 hmem ▸ pure_triple)

theorem perform_triple : ∃ result,
    (tripleModel.newton tripleModel.root noSteps .complex tripleModel.root.components).perform
      tripleStepped = (.ok result, tripleSolved.2) :=
  ⟨_, Action.perform_eq_ok (Except.eq_ok_of_toOption (Option.some_get evaluated_triple.1).symm)⟩

/-- The component that triples its input computes its real output again, and an imaginary part that
the residual tells. -/
theorem recomputes_triple : ∃ result t, ofGroup tripleGroup .standard = .ok tripleModel ∧
    tripleModel.Shaped tripleStepped ∧
    (tripleModel.newton tripleModel.root noSteps .complex tripleModel.root.components).perform
      tripleStepped = (.ok result, t) ∧
    ∀ k ∈ tripleModel.root.members, ∃ c v, tripleModel.components[k]? = some c ∧
      tripleModel.Recomputes .complex t c v ∧ v.real = t.outputs.real ∧
        ∀ i, c.outputs.contains i = true →
          t.residuals.entry .complex i = t.outputs.entry .complex i - v.entry .complex i := by
  obtain ⟨result, hperform⟩ := perform_triple
  have hcomplex : tripleModel.isComplexIn .complex = true := by decide +kernel
  refine ⟨result, _, ofGroup_triple, shaped_triple, hperform, fun k hk => ?_⟩
  obtain ⟨c, v, hc, hv, hreal, -, himag⟩ := recomputes_of_newton ofGroup_triple
    (fun _ _ _ hc => member_triple hc) shaped_triple hperform k hk
  exact ⟨c, v, hc, hv, hreal, himag hcomplex⟩

/-- The component that triples its input does not find its imaginary output. -/
theorem exists_stale_triple : ∃ c, tripleModel.components[1]? = some c ∧
    ¬ tripleModel.Recomputes .complex tripleSolved.2 c tripleSolved.2.outputs := by
  have hstale : (tripleModel.components[1]?.map fun c =>
      decide (((c.component.evaluate tripleSolved.2.inputs c.inputs c.outputs
        (tripleModel.isComplexIn .complex)).perform ((), tripleSolved.2.outputs)).2.2.imag =
          tripleSolved.2.outputs.imag)) = some false := by decide +kernel
  obtain ⟨c, hc, hdiffers⟩ := Option.map_eq_some_iff.1 hstale
  refine ⟨c, hc, fun hagain => of_decide_eq_false hdiffers ?_⟩
  obtain ⟨memory, heval⟩ := hagain ()
  rw [heval]

/-- **Imaginary parts may be stale.** An iteration in complex arithmetic that ends without an error
may leave a member an imaginary part that is not what it computes from its stored inputs. -/
theorem exists_stale_shadow : ∃ (g : Group Float Unit) (m : Model Float Unit)
    (newton : NewtonSettings Float) (s t : ModelState Float Unit) (result : NewtonResult Float),
    ofGroup g .standard = .ok m ∧
    (∀ (k : Nat) (c : ModelComponent Float Unit), m.components[k]? = some c →
      c.component.Pure c.outputs.size ∨ c.component.Still) ∧
    m.Shaped s ∧ (m.newton m.root newton .complex m.root.components).perform s = (.ok result, t) ∧
    ∃ k ∈ m.root.members, ∃ c, m.components[k]? = some c ∧
      ¬ m.Recomputes .complex t c t.outputs := by
  obtain ⟨result, hperform⟩ := perform_triple
  have hmember : 1 ∈ tripleModel.root.members := by decide +kernel
  exact ⟨tripleGroup, tripleModel, noSteps, tripleStepped, tripleSolved.2, result, ofGroup_triple,
    fun _ _ => member_triple, shaped_triple, hperform, 1, hmember, exists_stale_triple⟩

end Triple

end Model

end Sensitivity
