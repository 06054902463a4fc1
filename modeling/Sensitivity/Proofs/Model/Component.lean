import Sensitivity.Proofs.Approximation.Response
import Sensitivity.Proofs.Model.Frame

/-!
# A component without state

A component is stateless when what it computes does not depend on its memory
(`Component.Stateless`). By itself, on copies of its variables, every component is a restoring
target: restoring returns to its variables and to the complex steps under way
(`ModelComponent.target_restoring`). A stateless one is an exact target: nothing else of its scope
can be told from its answers (`ModelComponent.target_exact`).
-/

namespace Sensitivity

variable {R M : Type}

/-- What a component computes depends on its inputs and its outputs before, and not on its memory. -/
structure Component.Stateless (c : Component R M) : Prop where
  real : ∀ x y μ ν, ((c.computeReal x y).perform μ).1 = ((c.computeReal x y).perform ν).1
  complex : ∀ x y μ ν, ((c.computeComplex x y).perform μ).1 = ((c.computeComplex x y).perform ν).1

/-- Running a stateless component leaves the same outputs, whatever its memory. -/
theorem Component.Stateless.evaluate [Scalar R] {c : Component R M} (hc : c.Stateless)
    (inputs outputs : StateVector R) (source target : Span) (complex : Bool) (μ ν : M) :
    ((c.evaluate inputs source target complex).perform (μ, outputs)).1 =
        ((c.evaluate inputs source target complex).perform (ν, outputs)).1 ∧
      ((c.evaluate inputs source target complex).perform (μ, outputs)).2.2 =
        ((c.evaluate inputs source target complex).perform (ν, outputs)).2.2 := by
  simp only [Component.evaluate, Action.perform_of]
  cases complex with
  | false =>
    have h := hc.real (inputs.readReal source) (outputs.readReal target) μ ν
    generalize (c.computeReal (inputs.readReal source) (outputs.readReal target)).perform μ = r at h ⊢
    generalize (c.computeReal (inputs.readReal source) (outputs.readReal target)).perform ν = q at h ⊢
    obtain ⟨r, μ'⟩ := r
    obtain ⟨q, ν'⟩ := q
    obtain rfl : r = q := h
    cases r <;> exact ⟨rfl, rfl⟩
  | true =>
    have h := hc.complex (inputs.readComplex source) (outputs.readComplex target) μ ν
    generalize (c.computeComplex (inputs.readComplex source)
      (outputs.readComplex target)).perform μ = r at h ⊢
    generalize (c.computeComplex (inputs.readComplex source)
      (outputs.readComplex target)).perform ν = q at h ⊢
    obtain ⟨r, μ'⟩ := r
    obtain ⟨q, ν'⟩ := q
    obtain rfl : r = q := h
    cases r <;> exact ⟨rfl, rfl⟩

namespace ComponentScope

/-- The variables, and the complex steps under way. -/
def view (s : ComponentScope R M) : StateVector R × StateVector R × ActivationStack R :=
  (s.inputs, s.outputs, s.stack)

/-- Which variables have a shadow, and the complex steps under way. -/
def shape (s : ComponentScope R M) : Bool × Bool × ActivationStack R :=
  (s.inputs.isComplex, s.outputs.isComplex, s.stack)

theorem view_eq_iff {s t : ComponentScope R M} :
    s.view = t.view ↔ s.inputs = t.inputs ∧ s.outputs = t.outputs ∧ s.stack = t.stack := by
  simp [view]

theorem view_setVector {s t : ComponentScope R M} (h : s.view = t.view) (kind : VariableKind)
    (v : StateVector R) : (s.setVector kind v).view = (t.setVector kind v).view := by
  obtain ⟨hi, ho, hs⟩ := view_eq_iff.1 h
  cases kind <;> simp [view, setVector, hi, ho, hs]

theorem vector_congr {s t : ComponentScope R M} (h : s.view = t.view) (kind : VariableKind) :
    s.vector kind = t.vector kind := by
  obtain ⟨hi, ho, -⟩ := view_eq_iff.1 h
  cases kind
  · exact hi
  · exact ho

end ComponentScope

namespace ModelComponent

open ComponentScope

variable [Scalar R] (c : ModelComponent R M) (enclosed : Bool)

theorem keeps_perturb (name : String) (index : Nat) (delta : Delta R) :
    (c.perturb name index delta).Keeps shape := by
  intro v
  unfold perturb
  refine Action.preserves_get_bind fun s hs => ?_
  suffices h : Action.Preserves (fun s : ComponentScope R M => s.shape = v) _ from h s hs
  refine Action.preserves_ofOutcome_bind fun found _ => ?_
  refine Action.preserves_ofOutcome_bind fun w hw => Action.preserves_set ?_
  have hc := StateVector.isComplex_perturb hw
  cases hk : found.1 <;> simp_all [shape, setVector, vector]

theorem keeps_evaluate (mode : Mode) : (c.evaluate mode).Keeps shape := by
  rintro v s rfl -
  have h := Model.isComplex_evaluate c.component s.inputs ⟨0, s.inputs.size⟩ ⟨0, s.outputs.size⟩
    (mode = .complex && s.inputs.isComplex) (s.memory, s.outputs)
  simp only [evaluate, Action.perform_of, shape, h]

/-- What happens between a save and a restore keeps the shape. -/
theorem shape_of_moved {s t : ComponentScope R M} (h : (c.target enclosed).Moved s t) :
    t.shape = s.shape := by
  induction h with
  | start => rfl
  | perturb name index delta _ ha ih => exact c.keeps_perturb name index delta _ _ ih ha
  | evaluate active mode _ ha ih => exact c.keeps_evaluate mode _ _ ih ha
  | restore _ ih =>
    simp only [shape, Prod.mk.injEq] at ih
    obtain ⟨hi, ho, hs⟩ := ih
    simp only [target, shape, StateVector.restore_of_isComplex_eq hi,
      StateVector.restore_of_isComplex_eq ho, hs]

/-- Runs of a stateless component cannot tell its memories apart. -/
theorem respects_evaluate (hc : c.component.Stateless) (mode : Mode) :
    (c.evaluate mode).Respects view := by
  intro s t h
  obtain ⟨hi, ho, hs⟩ := view_eq_iff.1 h
  obtain ⟨hanswer, houtputs⟩ := hc.evaluate t.inputs t.outputs ⟨0, t.inputs.size⟩
    ⟨0, t.outputs.size⟩ (mode = .complex && t.inputs.isComplex) s.memory t.memory
  simp only [evaluate, Action.perform_of, view, hi, ho, hs, hanswer, houtputs, and_self]

theorem respects_perturb (name : String) (index : Nat) (delta : Delta R) :
    (c.perturb name index delta).Respects view := by
  intro s t h
  unfold perturb
  rw [Action.perform_get_bind, Action.perform_get_bind, Action.perform_bind, Action.perform_bind,
    Action.perform_ofOutcome, Action.perform_ofOutcome]
  cases c.locate (R := R) name with
  | error e => exact ⟨rfl, h⟩
  | ok found =>
    dsimp only
    rw [Action.perform_bind, Action.perform_bind, Action.perform_ofOutcome,
      Action.perform_ofOutcome, vector_congr h]
    cases (t.vector found.1).perturb (shadowMissing c.path) (found.2.start + index) delta with
    | error e => exact ⟨rfl, h⟩
    | ok v => exact ⟨rfl, view_setVector h found.1 v⟩

/-- **A component is a restoring target**, whatever its memory does. -/
theorem target_restoring : (c.target enclosed).Restoring view where
  restore {s t} h := by
    have hshape := c.shape_of_moved enclosed h
    simp only [shape, Prod.mk.injEq] at hshape
    obtain ⟨hi, ho, hs⟩ := hshape
    simp only [target, view, StateVector.restore_of_isComplex_eq hi,
      StateVector.restore_of_isComplex_eq ho, hs]
  leave {s t} owner step h := by
    have hshape : t.shape = _ := c.shape_of_moved enclosed h
    simp only [shape, target, ActivationStack.push, Prod.mk.injEq] at hshape
    obtain ⟨hi, ho, hs⟩ := hshape
    simp only [target, view, StateVector.restore_of_isComplex_eq hi,
      StateVector.restore_of_isComplex_eq ho, hs, ActivationStack.pop, List.tail_cons]

theorem values_target {s t : ComponentScope R M} (h : s.view = t.view) (name : String) (part : Part) :
    (c.target enclosed).values s name part = (c.target enclosed).values t name part := by
  simp only [target, vector_congr h]

/-- **A stateless component is an exact target.** -/
theorem target_exact (hc : c.component.Stateless) : (c.target enclosed).Exact view where
  toRestoring := c.target_restoring enclosed
  size _ _ := rfl
  values := c.values_target enclosed
  perturb := c.respects_perturb
  evaluate _ mode := c.respects_evaluate hc mode
  enter {s t} h owner step := by
    obtain ⟨hi, ho, hs⟩ := view_eq_iff.1 h
    simp only [target, view, hi, ho, hs]
  complexCapable {s t} h := by
    simp only [target, (view_eq_iff.1 h).1]
  complexStepActive {s t} h := by
    simp only [target, (view_eq_iff.1 h).2.2]

end ModelComponent

end Sensitivity
