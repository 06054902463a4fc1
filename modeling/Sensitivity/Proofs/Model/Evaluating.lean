import Sensitivity.Model.Run
import Sensitivity.Proofs.Breach

/-!
# What evaluations carry along

Evaluating a model pulls inputs, runs components, and where a group iterates also linearizes
components and writes outputs and residuals. A property of states that each of these steps leaves is
carried through every schedule (`Model.Carried.runSchedule`). Where it is also said what a breach of
a step leaves, it is known what a breach of an evaluation leaves (`Model.Sustained.runSchedule`).

Imaginary parts are written by an iteration in complex arithmetic only
(`NewtonFrame.isComplexIn_of_residual`).
-/

namespace Sensitivity

variable {R M : Type} [Scalar R]

namespace NewtonFrame

variable {m : Model R M} {frame : NewtonFrame R}

/-- Only a complex evaluation has an imaginary residual. -/
theorem isComplexIn_of_residual {s t : ModelState R M} {r : Residual R}
    (h : (frame.residual m).perform s = (.ok r, t)) {im : Array R} (him : r.im = some im) :
    m.isComplexIn frame.mode = true := by
  unfold residual at h
  rw [Action.perform_get_bind] at h
  obtain ⟨-, s₁, -, h⟩ := Action.bind_eq_ok.1 h
  obtain ⟨-, s₂, -, h⟩ := Action.bind_eq_ok.1 h
  rw [Action.perform_get_bind] at h
  obtain ⟨-, s₃, -, h⟩ := Action.bind_eq_ok.1 h
  dsimp only at h
  split at h
  · cases h
    cases him
  · rename_i hmode
    simpa using hmode

end NewtonFrame

namespace Model

omit [Scalar R] in
/-- Pulling only copies outputs to inputs. -/
theorem of_pull {m : Model R M} {P : ModelState R M → Prop}
    (hcopy : ∀ {s} input source, P s → P { s with inputs := s.inputs.copy input s.outputs source })
    (scope : Span) (component : ModelComponent R M) {s : ModelState R M} (hs : P s) :
    P (m.pull scope component s) := by
  unfold pull
  induction component.inputIds generalizing s with
  | nil => exact hs
  | cons id rest ih =>
    refine ih ?_
    unfold pullInput
    split
    · split
      · exact hcopy _ _ hs
      · exact hs
    · exact hs

/-- A property of states that no step of an evaluation ends. -/
structure Carried (m : Model R M) (mode : Mode) (P : ModelState R M → Prop) : Prop where
  pull : ∀ {s} scope component, P s → P (m.pull scope component s)
  compute : ∀ k, (m.compute k mode).Preserves P
  linearizeAt : ∀ k baseline, (m.linearizeAt k none baseline).Preserves P
  outputs : ∀ {s} u values, P s → P { s with outputs := s.outputs.writeReal u values }
  residuals : ∀ {s} u values, P s → P { s with residuals := s.residuals.writeReal u values }
  imagOutputs : m.isComplexIn mode = true →
    ∀ {s} u values, P s → P { s with outputs := s.outputs.writeImag u values }
  imagResiduals : m.isComplexIn mode = true →
    ∀ {s} u values, P s → P { s with residuals := s.residuals.writeImag u values }
  diagnostics : ∀ {s} d, P s → P { s with diagnostics := d }

/-- A property of states that no step of an evaluation ends, unless it breaches and leaves a state
with `Q`. -/
structure Sustained (m : Model R M) (mode : Mode) (P Q : ModelState R M → Prop) : Prop where
  pull : ∀ {s} scope component, P s → P (m.pull scope component s)
  compute : ∀ k, (m.compute k mode).Sustains P Q
  linearizeAt : ∀ k baseline, (m.linearizeAt k none baseline).Sustains P Q
  outputs : ∀ {s} u values, P s → P { s with outputs := s.outputs.writeReal u values }
  residuals : ∀ {s} u values, P s → P { s with residuals := s.residuals.writeReal u values }
  imagOutputs : m.isComplexIn mode = true →
    ∀ {s} u values, P s → P { s with outputs := s.outputs.writeImag u values }
  imagResiduals : m.isComplexIn mode = true →
    ∀ {s} u values, P s → P { s with residuals := s.residuals.writeImag u values }
  diagnostics : ∀ {s} d, P s → P { s with diagnostics := d }

namespace Sustained

variable {m : Model R M} {frame : NewtonFrame R} {mode : Mode} {P Q : ModelState R M → Prop}

theorem residual (hP : m.Sustained frame.mode P Q) : (frame.residual m).Sustains P Q := by
  unfold NewtonFrame.residual
  refine Action.sustains_bind Action.sustains_get fun before => ?_
  refine Action.sustains_bind (Action.sustains_forEach fun c => ?_) fun _ => ?_
  · exact Action.sustains_bind (Action.sustains_ofOutcome _) fun component =>
      Action.sustains_modify fun _ => hP.pull _ _
  refine Action.sustains_bind (Action.sustains_forEach hP.compute) fun _ => ?_
  refine Action.sustains_get_bind fun s hs => ?_
  suffices h : Action.Sustains P Q _ from h s hs
  refine Action.sustains_bind
    (Action.sustains_set (hP.residuals (s := { s with outputs := _ }) _ _ (hP.outputs _ _ hs)))
    fun _ => ?_
  dsimp only
  split
  · exact Action.sustains_pure _
  · rename_i hmode
    have hcomplex : m.isComplexIn frame.mode = true := by simpa using hmode
    exact Action.sustains_bind (Action.sustains_modify fun t ht =>
      hP.imagResiduals hcomplex (s := { t with outputs := _ }) _ _ (hP.imagOutputs hcomplex _ _ ht))
      fun _ => Action.sustains_pure _

theorem addPartials (hP : m.Sustained mode P Q) (computed : Array R) (components : List Nat)
    (matrix : DenseMatrix R) : (frame.addPartials m computed components matrix).Sustains P Q := by
  induction components generalizing matrix with
  | nil => exact Action.sustains_pure _
  | cons c rest ih =>
    unfold NewtonFrame.addPartials
    refine Action.sustains_bind (Action.sustains_ofOutcome _) fun component => ?_
    refine Action.sustains_bind (hP.linearizeAt c _) fun _ => ?_
    refine Action.sustains_bind (Action.sustains_read _) fun kept => ?_
    exact Action.sustains_bind (Action.sustains_ofOutcome _) fun matrix => ih matrix

variable [DirectSolver R]

theorem advance (hP : m.Sustained frame.mode P Q) {r : Residual R}
    (hr : ∀ im, r.im = some im → m.isComplexIn frame.mode = true) :
    (frame.advance m r).Sustains P Q := by
  have hcorrection (matrix : DenseMatrix R) (residual : Array R) :
      (NewtonFrame.correction matrix residual : ModelWork R M (Array R)).Sustains P Q :=
    Action.sustains_bind (Action.sustains_ofOutcome _) fun _ => Action.sustains_pure _
  unfold NewtonFrame.advance
  refine Action.sustains_bind (hP.addPartials _ _ _) fun matrix => ?_
  refine Action.sustains_bind (hcorrection _ _) fun d => ?_
  refine Action.sustains_bind (Action.sustains_modify fun _ => hP.outputs _ _) fun _ => ?_
  split
  · exact Action.sustains_pure _
  · rename_i im him
    exact Action.sustains_bind (hcorrection _ _) fun d =>
      Action.sustains_modify fun _ => hP.imagOutputs (hr im him) _ _

theorem iterate (hP : m.Sustained frame.mode P Q) (first : Option R) (remaining : Nat) :
    (frame.iterate m first remaining).Sustains P Q := by
  have hstore (values : Array R) (result : NewtonResult R) :
      ((modify fun s : ModelState R M =>
          { s with outputs := s.outputs.writeReal frame.unknowns values }) >>= fun _ =>
        (pure result : ModelWork R M (NewtonResult R))).Sustains P Q :=
    Action.sustains_bind (Action.sustains_modify fun _ => hP.outputs _ _) fun _ =>
      Action.sustains_pure _
  induction remaining generalizing first with
  | zero =>
    unfold NewtonFrame.iterate
    refine Action.sustains_bind hP.residual fun r => ?_
    dsimp only
    split <;> exact hstore _ _
  | succ n ih =>
    unfold NewtonFrame.iterate
    refine Action.sustains_bind_of_value hP.residual fun r s t hr => ?_
    dsimp only
    split
    · exact hstore _ _
    · exact Action.sustains_bind
        (hP.advance fun im => NewtonFrame.isComplexIn_of_residual hr) fun _ => ih _

theorem newton (hP : m.Sustained mode P Q) (g : ModelGroup R) (settings : NewtonSettings R)
    (scope : Span) : (m.newton g settings mode scope).Sustains P Q := by
  have hframe (unknowns : Span) (step : Option R) : m.Sustained (NewtonFrame.mode
      ⟨settings, g.label, g.members, unknowns, mode, scope, step⟩) P Q := hP
  unfold Model.newton
  split
  · exact Action.sustains_pure _
  refine Action.sustains_bind (Action.sustains_ofOutcome _) fun unknowns => ?_
  refine Action.sustains_bind Action.sustains_get fun s => ?_
  dsimp only
  unfold NewtonFrame.solve
  refine Action.sustains_bind ((hframe unknowns _).iterate _ _) fun result => ?_
  split
  · exact Action.sustains_pure _
  dsimp only
  split
  on_goal 1 => refine Action.sustains_bind (Action.sustains_fail _) fun _ => ?_
  all_goals
    exact Action.sustains_bind (Action.sustains_modify fun _ => hP.diagnostics _) fun _ =>
      Action.sustains_pure _

/-- **What no step ends, no schedule ends**, wherever it is broken off. -/
theorem runSchedule (hP : m.Sustained mode P Q) (active : ActiveSet) (scope : Span)
    (schedule : Schedule R) : (m.runSchedule active mode scope schedule).Sustains P Q := by
  induction schedule with
  | done => exact Action.sustains_pure _
  | component c rest ih =>
    unfold Model.runSchedule
    dsimp only
    split
    · refine Action.sustains_bind (Action.sustains_ofOutcome _) fun component => ?_
      refine Action.sustains_bind (Action.sustains_modify fun _ => hP.pull _ _) fun _ => ?_
      exact Action.sustains_bind (hP.compute c) fun _ => ih
    · exact ih
  | group g body rest ihBody ihRest =>
    unfold Model.runSchedule
    dsimp only
    split
    · exact Action.sustains_bind ihBody fun _ => ihRest
    · split
      · exact Action.sustains_bind (Action.sustains_discard (hP.newton g _ scope)) fun _ => ihRest
      · exact ihRest

end Sustained

namespace Carried

variable {m : Model R M} {frame : NewtonFrame R} {mode : Mode} {P : ModelState R M → Prop}

/-- What is carried is sustained, whatever a breach leaves. -/
theorem sustained (hP : m.Carried mode P) : m.Sustained mode P fun _ => True where
  pull := hP.pull
  compute k := (hP.compute k).sustains
  linearizeAt k baseline := (hP.linearizeAt k baseline).sustains
  outputs := hP.outputs
  residuals := hP.residuals
  imagOutputs := hP.imagOutputs
  imagResiduals := hP.imagResiduals
  diagnostics := hP.diagnostics

theorem residual (hP : m.Carried frame.mode P) : (frame.residual m).Preserves P :=
  hP.sustained.residual.preserves

variable [DirectSolver R]

theorem advance (hP : m.Carried frame.mode P) {r : Residual R}
    (hr : ∀ im, r.im = some im → m.isComplexIn frame.mode = true) :
    (frame.advance m r).Preserves P :=
  (hP.sustained.advance hr).preserves

theorem newton (hP : m.Carried mode P) (g : ModelGroup R) (settings : NewtonSettings R)
    (scope : Span) : (m.newton g settings mode scope).Preserves P :=
  (hP.sustained.newton g settings scope).preserves

/-- **What is carried survives every schedule**, whether its iterations converge, give up or fail. -/
theorem runSchedule (hP : m.Carried mode P) (active : ActiveSet) (scope : Span)
    (schedule : Schedule R) : (m.runSchedule active mode scope schedule).Preserves P :=
  (hP.sustained.runSchedule active scope schedule).preserves

end Carried

end Model

end Sensitivity
