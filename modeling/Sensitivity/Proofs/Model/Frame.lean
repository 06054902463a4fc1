import Sensitivity.Proofs.Approximation.Restoring
import Sensitivity.Proofs.Model.Deriving
import Sensitivity.Proofs.Model.Evaluating

/-!
# What derivatives leave alone

The point of a model is what a driver set and a run computed: the values of all its
variables, real and imaginary, its residuals, and the complex steps under way
(`ModelState.point`). Computing or checking derivatives perturbs the variables, runs
components, and iterates solvers, any of which may fail. It returns to the point all the
same (`Model.derivatives_keep_point`).

Linearizing a component works on copies, so that it never leaves the point
(`Model.keeps_linearizeAt`). Running a group leaves it, but keeps the shape of the
state: which vectors have a shadow, and the complex steps under way
(`Model.keeps_solveGroup`). Between states of one shape a restore is exact
(`ModelState.point_restore`), which makes a group a restoring target
(`Model.groupTarget_restoring`).
-/

namespace Sensitivity

variable {R M : Type}

namespace ModelState

/-- The values of all variables, the residuals, and the complex steps under way. -/
def point (s : ModelState R M) :
    StateVector R × StateVector R × StateVector R × ActivationStack R :=
  (s.inputs, s.outputs, s.residuals, s.stack)

/-- Which vectors have a shadow, and the complex steps under way. -/
def shape (s : ModelState R M) : Bool × Bool × Bool × ActivationStack R :=
  (s.inputs.isComplex, s.outputs.isComplex, s.residuals.isComplex, s.stack)

/-- The shape is part of the point. -/
theorem shape_eq_of_point {s t : ModelState R M} (h : s.point = t.point) : s.shape = t.shape := by
  simp only [point, Prod.mk.injEq] at h
  obtain ⟨hi, ho, hr, hs⟩ := h
  simp only [shape, hi, ho, hr, hs]

theorem keeps_shape_of_point {ε α : Type} {a : Action (ModelState R M) ε α}
    (h : a.Keeps point) : a.Keeps shape :=
  h.comp fun p => (p.1.isComplex, p.2.1.isComplex, p.2.2.1.isComplex, p.2.2.2)

end ModelState

namespace StateVector

@[simp] theorem isComplex_writeReal (v : StateVector R) (s : Span) (values : Array R) :
    (v.writeReal s values).isComplex = v.isComplex := rfl

@[simp] theorem isComplex_writeImag (v : StateVector R) (s : Span) (values : Array R) :
    (v.writeImag s values).isComplex = v.isComplex := by
  simp [writeImag, isComplex]

@[simp] theorem isComplex_copy (v w : StateVector R) (target source : Span) :
    (v.copy target w source).isComplex = v.isComplex := by
  rcases hv : v.imag with _ | im <;> rcases hw : w.imag with _ | other <;>
    simp [copy, isComplex, hv, hw]

section Scalar

variable [Scalar R]

@[simp] theorem isComplex_storeReal (v : StateVector R) (s : Span) (values : Array R) :
    (v.storeReal s values).isComplex = v.isComplex := by
  simp [storeReal]

omit [Scalar R] in
@[simp] theorem isComplex_storeComplex (v : StateVector R) (s : Span)
    (values : Array (ComplexNumber R)) :
    (v.storeComplex s values).isComplex = v.isComplex := by
  simp [storeComplex]

theorem isComplex_perturb {v w : StateVector R} {refusal : String} {i : Nat} {delta : Delta R}
    (h : v.perturb refusal i delta = .ok w) : w.isComplex = v.isComplex := by
  cases delta with
  | real x =>
    simp only [perturb, Outcome.ofOption_eq_ok, addReal?, Option.ite_none_right_eq_some,
      Option.some.injEq] at h
    obtain ⟨-, rfl⟩ := h
    rfl
  | imag x =>
    cases him : v.imag with
    | none => simp [perturb, isComplex, him, Outcome.fail] at h
    | some im =>
      simp only [perturb, isComplex, him, Option.isSome_some, if_true, Outcome.ofOption_eq_ok,
        addImag?, Option.bind_some, Option.ite_none_right_eq_some, Option.some.injEq] at h
      obtain ⟨-, rfl⟩ := h
      simp [isComplex, him]

/-- Between vectors that both have a shadow, or both have none, a restore is exact. -/
theorem restore_of_isComplex_eq {saved v : StateVector R} (h : v.isComplex = saved.isComplex) :
    saved.restore v = saved := by
  obtain ⟨re, im⟩ := saved
  cases hv : v.imag <;> cases im <;> simp_all [restore, isComplex]

end Scalar

end StateVector

namespace ModelState

@[simp] theorem point_modifyComponent (s : ModelState R M) (c : Nat)
    (f : ComponentState R M → ComponentState R M) : (s.modifyComponent c f).point = s.point := rfl

/-- **Between states of one shape a restore is exact.** -/
theorem point_restore [Scalar R] {saved s : ModelState R M} (h : s.shape = saved.shape) :
    (saved.restore s).point = saved.point := by
  simp only [shape, Prod.mk.injEq] at h
  obtain ⟨hi, ho, hr, hs⟩ := h
  simp only [restore, point, StateVector.restore_of_isComplex_eq hi,
    StateVector.restore_of_isComplex_eq ho, StateVector.restore_of_isComplex_eq hr, hs]

end ModelState

namespace Model

open ModelState

variable [Scalar R] (m : Model R M)

section Linearize

/-- A view of states in which neither what a component keeps nor notices are seen. -/
structure Outside {γ : Type} (c : Nat) (view : ModelState R M → γ) : Prop where
  component : ∀ s f, view (s.modifyComponent c f) = view s
  diagnostics : ∀ s d, view { s with diagnostics := d } = view s

omit [Scalar R] in
theorem outside_point (c : Nat) : Outside c (point : ModelState R M → _) :=
  ⟨fun _ _ => rfl, fun _ _ => rfl⟩

namespace Outside

variable {γ : Type} {c : Nat} {view : ModelState R M → γ} (hview : Outside c view)

include hview

omit [Scalar R] in
theorem storeBlocks (blocks : Jacobian R) :
    (Model.storeBlocks c blocks : ModelWork R M Unit).Keeps view := by
  intro v
  refine Action.preserves_forEach fun ((of, wrt), block) => ?_
  refine Action.preserves_bind (Action.preserves_read _) fun kept => ?_
  refine Action.preserves_bind (Action.preserves_ofOutcome _) fun partials => ?_
  exact Action.preserves_modify fun s hs => (hview.component s _).trans hs

/-- The work of a scheme on a component by itself is not seen where keeping its results is not. -/
theorem onComponent {α : Type} (component : ModelComponent R M) (x y : Array R)
    (scheme : Scheme R) (diagnostics : ModelState R M → Diagnostics)
    {keep : Scheme R → Diagnostics → ModelState R M → ModelState R M}
    (work : Scheme.Work R (ComponentScope R M) α)
    (hkeep : ∀ scheme diagnostics s, view (keep scheme diagnostics s) = view s) :
    (m.onComponent c component x y scheme diagnostics keep work).Keeps view := fun _ =>
  Action.preserves_bind (Action.preserves_read _) fun _ =>
    Action.preserves_on fun s hs _ => ((hkeep _ _ _).trans (hview.component s _)).trans hs

theorem approximatePartials (place : Nat) (partialPlaces : List Nat)
    (relevant : Option (List Bool)) (x y : Array R) :
    (m.approximatePartials c place partialPlaces relevant x y).Keeps view := by
  intro v
  unfold Model.approximatePartials
  refine Action.preserves_bind (Action.preserves_ofOutcome _) fun component => ?_
  refine Action.preserves_bind (Action.preserves_read _) fun kept => ?_
  refine Action.preserves_bind (Action.preserves_ofOutcome _) fun state => ?_
  refine Action.preserves_bind (Action.preserves_ofOutcome _) fun state => ?_
  refine Action.preserves_bind
    (Action.preserves_modify fun s hs => (hview.component s _).trans hs) fun _ => ?_
  dsimp only
  split
  · exact Action.preserves_pure _
  · refine Action.preserves_bind Action.preserves_get fun s => ?_
    refine Action.preserves_bind (hview.onComponent m component x y _ _ _ ?_ v) fun blocks =>
      hview.storeBlocks blocks v
    exact fun _ _ s => (hview.diagnostics _ _).trans (hview.component s _)

omit [Scalar R] in
theorem computePartials (component : ModelComponent R M) (x : Array R) :
    (Model.computePartials c component x : ModelWork R M Unit).Keeps view := fun _ =>
  Action.preserves_bind (Action.preserves_read _) fun _ =>
    Action.preserves_on fun s hs _ => (hview.component s _).trans hs

/-- **Linearizing a component is not seen from outside of it**, notices apart. -/
theorem linearizeAt (relevant : Option (List Bool)) (baseline : Option (Array R)) :
    (m.linearizeAt c relevant baseline).Keeps view := by
  intro v
  unfold Model.linearizeAt
  refine Action.preserves_bind (Action.preserves_ofOutcome _) fun component => ?_
  refine Action.preserves_bind Action.preserves_get fun s => ?_
  dsimp only
  split
  on_goal 1 => refine Action.preserves_bind (Action.preserves_fail _) fun _ => ?_
  all_goals
    refine Action.preserves_bind (hview.computePartials component _ v) fun _ => ?_
    exact Action.preserves_forEach fun _ => hview.approximatePartials m _ _ _ _ _ v

end Outside

/-- **Linearizing a component never leaves the point.** -/
theorem keeps_linearizeAt (c : Nat) (relevant : Option (List Bool))
    (baseline : Option (Array R)) : (m.linearizeAt c relevant baseline).Keeps point :=
  (outside_point c).linearizeAt m relevant baseline

end Linearize

section Solve

omit [Scalar R] in
theorem shape_pull (scope : Span) (component : ModelComponent R M) (s : ModelState R M) :
    (m.pull scope component s).shape = s.shape :=
  of_pull (P := fun t => t.shape = s.shape) (fun _ _ h => by simpa [shape] using h) scope component
    rfl

/-- Running a component writes into its outputs. -/
theorem isComplex_evaluate (c : Component R M) (inputs : StateVector R) (source target : Span)
    (complex : Bool) (s : M × StateVector R) :
    ((c.evaluate inputs source target complex).perform s).2.2.isComplex = s.2.isComplex := by
  obtain ⟨memory, outputs⟩ := s
  simp only [Component.evaluate, Action.perform_of]
  cases complex
  · rcases h : (c.computeReal (inputs.readReal source) (outputs.readReal target)).perform memory
      with ⟨_ | y, memory⟩ <;> simp
  · rcases h : (c.computeComplex (inputs.readComplex source)
      (outputs.readComplex target)).perform memory with ⟨_ | y, memory⟩ <;> simp

theorem keeps_compute (c : Nat) (mode : Mode) : (m.compute c mode).Keeps shape := by
  intro v
  unfold compute
  refine Action.preserves_bind (Action.preserves_ofOutcome _) fun component => ?_
  refine Action.preserves_bind (Action.preserves_read _) fun kept => ?_
  intro s hs _
  have h := isComplex_evaluate component.component s.inputs component.inputs component.outputs
    (m.isComplexIn mode) (kept.memory, s.outputs)
  rw [← hs]
  simp only [Action.perform_of, shape, ModelState.modifyComponent, h]

/-- **Evaluations carry the shape along**, and with it the complex steps under way. -/
theorem carried_shape (mode : Mode) (v : Bool × Bool × Bool × ActivationStack R) :
    m.Carried mode fun s => s.shape = v where
  pull scope component hs := (m.shape_pull scope component _).trans hs
  compute k := m.keeps_compute k mode v
  linearizeAt k baseline := keeps_shape_of_point (m.keeps_linearizeAt k none baseline) v
  outputs _ _ hs := by simpa [shape] using hs
  residuals _ _ hs := by simpa [shape] using hs
  imagOutputs _ _ _ _ hs := by simpa [shape] using hs
  imagResiduals _ _ _ _ hs := by simpa [shape] using hs
  diagnostics _ hs := hs

end Solve

variable [DirectSolver R]

/-- **Running a group keeps the shape of the state**, also when a component fails. -/
theorem keeps_solveGroup (g : ModelGroup R) (body : Schedule R) (active : ActiveSet)
    (mode : Mode) (scope : Span) : (m.solveGroup g body active mode scope).Keeps shape :=
  fun v => (m.carried_shape mode v).runSchedule active scope _

omit [DirectSolver R] in
theorem keeps_perturb (label name : String) (index : Nat) (delta : Delta R) :
    (m.perturb label name index delta).Keeps shape := by
  intro v
  unfold perturb
  refine Action.preserves_get_bind fun s hs => ?_
  suffices h : Action.Preserves (fun s : ModelState R M => s.shape = v) _ from h s hs
  refine Action.preserves_bind (Action.preserves_ofOutcome _) fun found => ?_
  refine Action.preserves_ofOutcome_bind fun w hw => Action.preserves_set ?_
  have hc := StateVector.isComplex_perturb hw
  cases hk : found.kind <;> simp_all [shape, setVector, vector]

/-- What happens between a save and a restore keeps the shape. -/
theorem shape_of_moved (g : ModelGroup R) (body : Schedule R) {s t : ModelState R M}
    (h : (m.groupTarget g body).Moved s t) : t.shape = s.shape := by
  induction h with
  | start => rfl
  | perturb name index delta _ ha ih => exact m.keeps_perturb g.label name index delta _ _ ih ha
  | evaluate active mode _ ha ih =>
    exact Action.preserves_mapError _ (m.keeps_solveGroup g body active mode _ _) _ ih ha
  | restore _ ih => exact shape_eq_of_point (point_restore ih)

/-- **A group is a restoring target**: whatever its components do, a restore returns to the
point. -/
theorem groupTarget_restoring (g : ModelGroup R) (body : Schedule R) :
    (m.groupTarget g body).Restoring point where
  restore h := point_restore (m.shape_of_moved g body h)
  leave {s t} owner step h := by
    have hm : t.shape = _ := m.shape_of_moved g body h
    simp only [shape, groupTarget, ActivationStack.push, Prod.mk.injEq] at hm
    obtain ⟨hi, ho, hr, hs⟩ := hm
    simp only [groupTarget, ModelState.restore, point, StateVector.restore_of_isComplex_eq hi,
      StateVector.restore_of_isComplex_eq ho, StateVector.restore_of_isComplex_eq hr, hs,
      ActivationStack.pop, List.tail_cons]

/-- The work of a scheme on a group returns to the point as far as keeping its results does. -/
theorem keeps_onGroup {α : Type} (g : ModelGroup R) (body : Schedule R) (scheme : Scheme R)
    {keep : Scheme R → ModelState R M → ModelState R M}
    {work : Target R (ModelState R M) → Scheme.Work R (ModelState R M) α}
    (hkeep : ∀ scheme s, (keep scheme s).point = s.point)
    (hwork : (work (m.groupTarget g body)).Keeps (Scheme.onSession point)) :
    (m.onGroup g body scheme keep work).Keeps point := by
  intro p
  refine Action.preserves_on fun s hs ha => (hkeep _ _).trans ?_
  have hw : Scheme.onSession point ⟨scheme, .empty, s⟩ = (scheme.identity, p) :=
    congrArg (scheme.identity, ·) hs
  exact congrArg Prod.snd (Action.preserves_mapError _ (hwork _) _ hw ha)

/-- Approximating across a group returns to the point. -/
theorem keeps_approximateGroup (g : ModelGroup R) (body : Schedule R) (scheme : Scheme R) :
    (m.approximateGroup g body scheme).Keeps point :=
  m.keeps_onGroup g body scheme (fun _ _ => rfl)
    (Scheme.keeps_computeJacobian (m.groupTarget_restoring g body))

theorem keeps_approximateAfresh (g : ModelGroup R) (body : Schedule R) (scheme : Scheme R) :
    (m.approximateAfresh g body scheme).Keeps point :=
  m.keeps_onGroup g body scheme (fun _ _ => rfl)
    (Scheme.keeps_computeJacobian (m.groupTarget_restoring g body))

omit [DirectSolver R] in
theorem keeps_prepareRoot (scheme : Scheme R) (requests : List (Request R)) :
    (m.prepareRoot scheme requests).Keeps point := by
  intro p
  unfold prepareRoot
  refine Action.preserves_bind Action.preserves_get fun s => ?_
  split
  · exact Action.preserves_pure _
  · refine Action.preserves_bind (Action.preserves_ofOutcome _) fun scheme => ?_
    exact Action.preserves_bind (Action.preserves_modify fun _ h => h) fun _ =>
      Action.preserves_pure _

omit [DirectSolver R] in
theorem keeps_freshPartials (c : Nat) (component : ModelComponent R M) (check : Settings R)
    (site : Site R) : (m.freshPartials c component check site).Keeps point := by
  intro p
  unfold freshPartials
  refine Action.preserves_bind (Action.preserves_ofOutcome _) fun scheme => ?_
  refine Action.preserves_bind Action.preserves_get fun s => ?_
  refine (outside_point c).onComponent m component _ _ scheme _ _ ?_ p
  exact fun _ _ _ => rfl

/-- **The point is undisturbed** by whatever derivatives are computed with. -/
theorem undisturbed_point (p : StateVector R × StateVector R × StateVector R × ActivationStack R) :
    m.Undisturbed (fun s => s.point = p) fun _ => True where
  linearizeAt c relevant := (m.keeps_linearizeAt c relevant none p).sustains
  freshPartials c component check site := (m.keeps_freshPartials c component check site p).sustains
  approximateGroup body hs _ := (m.keeps_approximateGroup _ body _ p).sustains _ hs
  approximatedTotals of wrt settings _ := m.sustains_approximatedTotals
    (fun scheme requests => (m.keeps_prepareRoot scheme requests p).sustains)
    (fun scheme => (m.keeps_approximateGroup m.root m.schedule scheme p).sustains) of wrt settings
  approximateAfresh g body scheme := (m.keeps_approximateAfresh g body scheme p).sustains

/-- Total derivatives are computed without a trace in the point. -/
theorem keeps_computeTotals (of wrt : List (DriverVariable R)) :
    (m.computeTotals of wrt).Keeps point := fun p =>
  ((m.undisturbed_point p).computeTotals of wrt).preserves

theorem keeps_computeScaledTotals (of wrt : List (DriverVariable R)) :
    (m.computeScaledTotals of wrt).Keeps point := fun p =>
  ((m.undisturbed_point p).computeScaledTotals of wrt).preserves

theorem keeps_checkPartials (settings : CheckSettings R) :
    (m.checkPartials settings).Keeps point := fun p =>
  ((m.undisturbed_point p).checkPartials settings).preserves

theorem keeps_checkTotals (of wrt : List (DriverVariable R)) (settings : CheckSettings R) :
    (m.checkTotals of wrt settings).Keeps point := fun p =>
  ((m.undisturbed_point p).checkTotals of wrt settings).preserves

/-- **Computing and checking derivatives returns to the point.** Whatever total derivatives or
checks are asked for, in whichever state, and whether the answer is a value or an error: the
values of all variables with their imaginary parts, the residuals and the complex steps under
way are what they were. -/
theorem derivatives_keep_point :
    (∀ of wrt, (m.computeTotals of wrt).Keeps point) ∧
    (∀ of wrt, (m.computeScaledTotals of wrt).Keeps point) ∧
    (∀ settings, (m.checkPartials settings).Keeps point) ∧
    ∀ of wrt settings, (m.checkTotals of wrt settings).Keeps point :=
  ⟨m.keeps_computeTotals, m.keeps_computeScaledTotals, m.keeps_checkPartials,
    m.keeps_checkTotals⟩

end Model

end Sensitivity
