import Sensitivity.Proofs.Model.Evaluating
import Sensitivity.Proofs.Model.History

/-!
# No imaginary residue

Imaginary parts are for the time of a complex step only. Between operations every imaginary part
that is stored is zero, and no complex step is under way (`ModelState.Plain`): assignments and
evaluations in real arithmetic write zeros, whether or not a group iterates, a component fails or an
iteration ends with an error (`Model.carried_plain`), and derivatives return to the vectors that they
found. So nothing is left behind by any history (`Model.plain_of_reaches`).
-/

namespace Sensitivity

variable {R M : Type} [Scalar R]

namespace StateVector

/-- Every imaginary part that is stored is zero. -/
def IsReal (v : StateVector R) : Prop := ∀ im, v.imag = some im → ∀ x ∈ im, x = 0

variable {v w : StateVector R}

/-- Overwriting zeros with zeros leaves zeros. -/
theorem isReal_of_overwrite {im values : Array R} (him : ∀ x ∈ im, x = 0)
    (hvalues : ∀ x ∈ values, x = 0) (s : Span) : ∀ x ∈ s.overwrite im values, x = 0 := by
  intro x hx
  obtain ⟨i, hi, rfl⟩ := Array.mem_iff_getElem.1 hx
  rw [Span.size_overwrite] at hi
  simp only [Span.overwrite, Array.getElem_mapIdx]
  split
  · unfold Array.getD
    split
    · exact hvalues _ (Array.getElem_mem _)
    · exact him _ (Array.getElem_mem _)
  · exact him _ (Array.getElem_mem _)

theorem isReal_ofReal (values : Array R) (complex : Bool) : (ofReal values complex).IsReal := by
  intro im him x hx
  cases complex with
  | false => cases him
  | true =>
    cases him
    exact (Array.mem_replicate.1 hx).2

theorem isReal_zeros (n : Nat) (complex : Bool) : (zeros n complex : StateVector R).IsReal := by
  intro im him x hx
  cases complex with
  | false => cases him
  | true =>
    cases him
    exact (Array.mem_replicate.1 hx).2

theorem IsReal.writeReal (h : v.IsReal) (s : Span) (values : Array R) :
    (v.writeReal s values).IsReal := h

theorem IsReal.storeReal (h : v.IsReal) (s : Span) (values : Array R) :
    (v.storeReal s values).IsReal := by
  intro im him
  obtain ⟨old, hold, rfl⟩ := Option.map_eq_some_iff.1 him
  refine isReal_of_overwrite (h old hold) (fun x hx => ?_) s
  obtain ⟨-, -, rfl⟩ := Array.mem_map.1 hx
  rfl

theorem IsReal.copy (hv : v.IsReal) (hw : w.IsReal) (target source : Span) :
    (v.copy target w source).IsReal := by
  intro im him
  unfold StateVector.copy at him
  split at him
  · rename_i old other hold hother
    cases him
    refine isReal_of_overwrite (hv old hold) (fun x hx => hw other hother x ?_) target
    obtain ⟨i, hi, rfl⟩ := Array.mem_iff_getElem.1 hx
    simp only [Span.slice, Array.getElem_extract]
    exact Array.getElem_mem _
  · exact hv im him

end StateVector

/-- Nothing is left of a complex step: all imaginary parts are zero, and none is under way. -/
structure ModelState.Plain (s : ModelState R M) : Prop where
  inputs : s.inputs.IsReal
  outputs : s.outputs.IsReal
  residuals : s.residuals.IsReal
  stack : s.stack = .empty

namespace Model

variable {m : Model R M} {s t : ModelState R M}

theorem plain_pull (scope : Span) (c : ModelComponent R M) (hs : s.Plain) :
    (m.pull scope c s).Plain :=
  of_pull (fun _ _ hs => ⟨hs.inputs.copy hs.outputs _ _, hs.outputs, hs.residuals, hs.stack⟩)
    scope c hs

/-- Running a component in real arithmetic writes zeros, and nothing when it fails. -/
theorem plain_compute (k : Nat) : (m.compute k .real).Preserves ModelState.Plain := by
  refine Action.preserves_bind (Action.preserves_ofOutcome _) fun c => ?_
  refine Action.preserves_bind (Action.preserves_read _) fun kept => ?_
  intro s hs _
  have hreal : m.isComplexIn .real = false := rfl
  simp only [Action.perform_of, Component.evaluate, hreal, Bool.false_eq_true, if_false]
  rcases (c.component.computeReal (s.inputs.readReal c.inputs)
    (s.outputs.readReal c.outputs)).perform kept.memory with ⟨e | y, memory⟩
  · exact ⟨hs.inputs, hs.outputs, hs.residuals, hs.stack⟩
  · exact ⟨hs.inputs, hs.outputs.storeReal _ _, hs.residuals, hs.stack⟩

/-- What returns to the point brings nothing imaginary. -/
theorem plain_of_point (hs : s.Plain) (hpoint : t.point = s.point) : t.Plain := by
  simp only [ModelState.point, Prod.mk.injEq] at hpoint
  obtain ⟨hinputs, houtputs, hresiduals, hstack⟩ := hpoint
  exact ⟨hinputs ▸ hs.inputs, houtputs ▸ hs.outputs, hresiduals ▸ hs.residuals, hstack ▸ hs.stack⟩

/-- **An evaluation in real arithmetic leaves nothing imaginary**, at any of its steps. -/
theorem carried_plain : m.Carried .real ModelState.Plain where
  pull := plain_pull
  compute := plain_compute
  linearizeAt k baseline s hs ha :=
    plain_of_point hs (m.keeps_linearizeAt k none baseline s.point s rfl ha)
  outputs _ _ hs := ⟨hs.inputs, hs.outputs.writeReal _ _, hs.residuals, hs.stack⟩
  residuals _ _ hs := ⟨hs.inputs, hs.outputs, hs.residuals.writeReal _ _, hs.stack⟩
  imagOutputs h := by cases h
  imagResiduals h := by cases h
  diagnostics _ hs := ⟨hs.inputs, hs.outputs, hs.residuals, hs.stack⟩

theorem plain_setValue (name : String) (values : List R) :
    (m.setValue name values).Preserves ModelState.Plain := by
  refine (m.sustains_setValue_of_write (Q := fun _ => True) (fun kind _ _ hs => ?_)
    name values).preserves
  cases kind with
  | input => exact ⟨hs.inputs.writeReal _ _, hs.outputs, hs.residuals, hs.stack⟩
  | output => exact ⟨hs.inputs, hs.outputs.writeReal _ _, hs.residuals, hs.stack⟩

/-- A model starts without imaginary parts. -/
theorem plain_start (hs : m.start = .ok s) : s.Plain := by
  unfold start at hs
  obtain ⟨schemes, -, hs⟩ := Except.bind_eq_ok.1 hs
  cases hs
  exact ⟨StateVector.isReal_ofReal _ _, StateVector.isReal_ofReal _ _,
    StateVector.isReal_zeros _ _, rfl⟩

variable [DirectSolver R]

/-- No operation leaves anything imaginary, whether it ends with a value or with an error. -/
theorem plain_operation (op : Operation R) : (op.work m).Preserves ModelState.Plain :=
  op.preserves_of_point plain_of_point plain_setValue (carried_plain.runSchedule _ _ _)

/-- **No imaginary residue survives.** After every history of a model, whichever operations of it
failed, all imaginary parts of inputs, outputs and residuals are zero, and no complex step is under
way. -/
theorem plain_of_reaches {first : ModelState R M} (hstart : m.start = .ok first)
    {ops : List (Operation R)} (h : m.Reaches first ops s) : s.Plain := by
  have hfirst := plain_start hstart
  clear hstart
  induction h with
  | nil => exact hfirst
  | cons op ha _ ih => exact ih (plain_operation op _ hfirst ha)

section Ring

/-- Half of its own output, which it reads back, and what it is given. -/
def ring : ExpressionComponent Float where
  inputs := [("a", .scalar 1.0), ("x", .scalar 0.0)]
  outputs := [("y", .scalar 0.0,
    [.binary .add (.binaryReal .mul (.input "x" 0) 0.5) (.input "a" 0)])]
  partials := [(.all, .all, .ok (.approximated .complexStep))]
  checkSettings := none
  complexSafe := true
  analytic := []
  failures := []

/-- A source and a ring, solved for together, with a complex step across all of it. The iteration
may take no step, and giving up is an error. -/
def ringGroup : Group Float Unit where
  settings :=
    { connections := [("source.a", "ring.a"), ("ring.y", "ring.x")]
      solver := .newton ⟨1e-10, 1e-10, 0, true⟩
      approximation := some .complexStep }
  members := .component "source" (.independent () [("a", .scalar 1.0)]) <|
    .component "ring" ring.toComponent .empty

theorem isSome_ring : (ofGroup ringGroup .standard).toOption.isSome = true := by decide +kernel

/-- The model of the ring. -/
def ringModel : Model Float Unit := (ofGroup ringGroup .standard).toOption.get isSome_ring

theorem isSome_ringStart : ringModel.start.toOption.isSome = true := by decide +kernel

/-- The ring at the start. -/
def ringStart : ModelState Float Unit := ringModel.start.toOption.get isSome_ringStart

/-- The ring after an operation. -/
def ringAfter (op : Operation Float) (s : ModelState Float Unit) : ModelState Float Unit :=
  ((op.work ringModel).perform s).2

/-- How the derivative of the ring by its source is asked for. -/
def ringTotals : Operation Float := .computeTotals [.whole "ring.y"] [.whole "source.a"]

/-- A run of the ring and a complex step across it both end with an error, and leave no imaginary
part. -/
theorem plain_ring : ringModel.start = .ok ringStart ∧
    ringModel.Reaches ringStart [.run, ringTotals] (ringAfter ringTotals (ringAfter .run ringStart)) ∧
    ((Operation.run.work ringModel).perform ringStart).1.toOption = none ∧
    ((ringTotals.work ringModel).perform (ringAfter .run ringStart)).1.toOption = none ∧
    (ringAfter ringTotals (ringAfter .run ringStart)).Plain := by
  have hstart : ringModel.start = .ok ringStart :=
    Except.eq_ok_of_toOption (Option.some_get isSome_ringStart).symm
  have ha : ((Operation.run.work ringModel).perform ringStart).1.Answers ∧
      ((ringTotals.work ringModel).perform (ringAfter .run ringStart)).1.Answers := by decide +kernel
  have hreaches : ringModel.Reaches ringStart [.run, ringTotals]
      (ringAfter ringTotals (ringAfter .run ringStart)) := .cons _ ha.1 (.cons _ ha.2 (.nil _))
  exact ⟨hstart, hreaches, by decide +kernel, by decide +kernel, plain_of_reaches hstart hreaches⟩

end Ring

end Model

end Sensitivity
