import Sensitivity.Proofs.Model.Linearizing

/-!
# Solving in matched states

Running the components of a steady model, and solving for its groups, answers the same in matched
states and leaves them matched (`Model.twins_solveGroup`): components have no state, and a Newton
step linearizes afresh. So no operation of a group as a target tells matched states apart
(`Model.groupTarget_coupled`), and schemes in one role approximate the same blocks across it,
whatever they kept (`Model.twins_onGroup`).
-/

namespace Sensitivity

variable {R M : Type} [Scalar R] [DirectSolver R]

namespace Model

variable {m : Model R M} {anchors : ModelState R M × ModelState R M}

theorem Matched.mapOutputs {s t : ModelState R M} (h : m.Matched anchors s t)
    (f : StateVector R → StateVector R) :
    m.Matched anchors { s with outputs := f s.outputs } { t with outputs := f t.outputs } :=
  h.congr rfl rfl h.inputs_eq (congrArg f h.outputs_eq) h.stack_eq

theorem Matched.vector_eq {s t : ModelState R M} (h : m.Matched anchors s t) (kind : VariableKind) :
    s.vector kind = t.vector kind := by
  cases kind
  · exact h.inputs_eq
  · exact h.outputs_eq

theorem Matched.setVector {s t : ModelState R M} (h : m.Matched anchors s t) (kind : VariableKind)
    (v : StateVector R) : m.Matched anchors (s.setVector kind v) (t.setVector kind v) := by
  cases kind
  · exact h.congr rfl rfl rfl h.outputs_eq h.stack_eq
  · exact h.congr rfl rfl h.inputs_eq rfl h.stack_eq

theorem Matched.pullInput {s t : ModelState R M} (h : m.Matched anchors s t) (scope : Span)
    (id : Nat) : m.Matched anchors (m.pullInput scope s id) (m.pullInput scope t id) := by
  unfold Model.pullInput
  split
  · split
    · exact h.congr rfl rfl (by rw [h.inputs_eq, h.outputs_eq]) h.outputs_eq h.stack_eq
    · exact h
  · exact h

theorem Matched.pull {s t : ModelState R M} (h : m.Matched anchors s t) (scope : Span)
    (component : ModelComponent R M) :
    m.Matched anchors (m.pull scope component s) (m.pull scope component t) := by
  unfold Model.pull
  induction component.inputIds generalizing s t with
  | nil => exact h
  | cons id rest ih => exact ih (h.pullInput scope id)

variable (hm : m.Steady)

include hm

/-- **Running a component** has the same outcome, whatever its memory. -/
theorem twins_compute (c : Nat) (mode : Mode) :
    Action.Twins (m.Matched anchors) (m.compute c mode) (m.compute c mode) := by
  refine couples_component_bind fun component hcomponent => ?_
  refine couples_kept_bind (fun s t hs => hs.isSome_eq c) fun s t k l hs _ _ => ?_
  obtain ⟨hanswer, houtputs⟩ := (hm.stateless component (List.mem_of_getElem? hcomponent)).evaluate
    t.inputs t.outputs component.inputs component.outputs (m.isComplexIn mode) k.memory l.memory
  rw [Action.perform_of, Action.perform_of, hs.inputs_eq, hs.outputs_eq]
  generalize (component.component.evaluate t.inputs component.inputs component.outputs
    (m.isComplexIn mode)).perform (k.memory, t.outputs) = r at hanswer houtputs
  generalize (component.component.evaluate t.inputs component.inputs component.outputs
    (m.isComplexIn mode)).perform (l.memory, t.outputs) = q at hanswer houtputs
  obtain ⟨answer, μ, outputs⟩ := r
  obtain ⟨answer', ν, outputs'⟩ := q
  obtain rfl : answer = answer' := hanswer
  obtain rfl : outputs = outputs' := houtputs
  have hran := hs.agreeing (c := c) |>.remember
    (f := fun k => { k with memory := μ, runs := k.runs + 1 })
    (g := fun l => { l with memory := ν, runs := l.runs + 1 }) (fun _ => ⟨rfl, rfl⟩)
    fun _ => ⟨rfl, rfl⟩
  have hend : m.Matched anchors
      { s.modifyComponent c fun k => { k with memory := μ, runs := k.runs + 1 } with
        outputs := outputs }
      { t.modifyComponent c fun l => { l with memory := ν, runs := l.runs + 1 } with
        outputs := outputs } :=
    hran.toMatched.congr rfl rfl hs.inputs_eq rfl hs.stack_eq
  rcases answer with (e | _) | ⟨⟩
  · exact .error hend
  · exact .breach
  · exact .value ⟨rfl, hend⟩

end Model

namespace NewtonFrame

variable {m : Model R M} {anchors : ModelState R M × ModelState R M} (hm : m.Steady)
  (frame : NewtonFrame R)

include hm

theorem twins_residual :
    Action.Twins (m.Matched anchors) (frame.residual m) (frame.residual m) := by
  unfold residual
  refine Action.twins_get_bind fun s t hs => ?_
  rw [hs.outputs_eq]
  refine Action.twins_bind (Action.twins_forEach fun c _ => ?_) fun _ => ?_
  · exact Model.couples_component_bind fun component _ =>
      Action.twins_modify fun _ _ h => h.pull frame.scope component
  refine Action.twins_bind (Action.twins_forEach fun c _ => Model.twins_compute hm c frame.mode)
    fun _ => ?_
  refine Action.twins_get_bind fun u v hu => ?_
  rw [hu.outputs_eq]
  refine Action.twins_bind (Action.twins_set ?_) fun _ => ?_
  · exact hu.congr rfl rfl hu.inputs_eq rfl hu.stack_eq
  dsimp only
  split
  · exact Action.twins_pure _
  · refine Action.twins_bind (Action.twins_modify fun w z h => ?_) fun _ => Action.twins_pure _
    exact h.congr rfl rfl h.inputs_eq (congrArg (StateVector.writeImag · _ _) h.outputs_eq)
      h.stack_eq

/-- **The partials in the matrix of a Newton step** are the same, whatever blocks the components held
before. -/
theorem twins_addPartials (computed : Array R) (components : List Nat) (matrix : DenseMatrix R) :
    Action.Twins (m.Matched anchors) (frame.addPartials m computed components matrix)
      (frame.addPartials m computed components matrix) := by
  induction components generalizing matrix with
  | nil => exact Action.twins_pure _
  | cons c rest ih =>
    unfold addPartials
    refine Model.couples_component_bind fun component hcomponent => ?_
    refine Action.couples_bind (Model.couples_linearizeAt hm none _) fun _ _ => ?_
    refine Model.couples_kept_bind (fun s t hs => (hs component hcomponent).isSome_eq c)
      fun s t k l hs hk hl => ?_
    replace hs := hs component hcomponent
    rw [hs.blocks_eq hm hcomponent (fun _ _ hon => by cases hon) hk hl]
    exact Action.twins_bind (Action.twins_ofOutcome _) (fun matrix => ih matrix) s t hs.toMatched

theorem twins_advance (r : Residual R) :
    Action.Twins (m.Matched anchors) (frame.advance m r) (frame.advance m r) := by
  have hsolve (matrix : DenseMatrix R) (b : Array R) : Action.Twins (m.Matched anchors)
      (correction matrix b : ModelWork R M (Array R)) (correction matrix b) :=
    Action.twins_bind (Action.twins_ofOutcome _) fun _ => Action.twins_pure _
  let u := frame.unknowns
  unfold advance
  refine Action.twins_bind (twins_addPartials hm frame _ _ _) fun matrix => ?_
  refine Action.twins_bind (hsolve _ _) fun d => ?_
  refine Action.twins_bind (Action.twins_modify fun s t h =>
    h.mapOutputs fun y => y.writeReal u (Array.zipWith (· + ·) (y.readReal u) d)) fun _ => ?_
  split
  · exact Action.twins_pure _
  · exact Action.twins_bind (hsolve _ _) fun d => Action.twins_modify fun s t h =>
      h.mapOutputs fun y => y.writeImag u (Array.zipWith (· + ·) (y.readImag u) d)

theorem twins_iterate (norm : Option R) (remaining : Nat) :
    Action.Twins (m.Matched anchors) (frame.iterate m norm remaining)
      (frame.iterate m norm remaining) := by
  let store (values : Array R) (result : NewtonResult R) : ModelWork R M (NewtonResult R) := do
    modify fun s => { s with outputs := s.outputs.writeReal frame.unknowns values }
    return result
  have hstore (values : Array R) (result : NewtonResult R) :
      Action.Twins (m.Matched anchors) (store values result) (store values result) :=
    Action.twins_bind (Action.twins_modify fun s t h => h.mapOutputs (·.writeReal _ values))
      fun _ => Action.twins_pure _
  induction remaining generalizing norm with
  | zero =>
    unfold iterate
    refine Action.twins_bind (twins_residual hm frame) fun r => ?_
    dsimp only
    split <;> exact hstore _ _
  | succ n ih =>
    unfold iterate
    refine Action.twins_bind (twins_residual hm frame) fun r => ?_
    dsimp only
    split
    · exact hstore _ _
    · exact Action.twins_bind (twins_advance hm frame r) fun _ => ih _

theorem twins_solve : Action.Twins (m.Matched anchors) (frame.solve m) (frame.solve m) := by
  unfold solve
  refine Action.twins_bind (twins_iterate hm frame _ _) fun result => ?_
  let giveUp : ModelWork R M (NewtonResult R) := do
    modify fun s => { s with
      diagnostics := s.diagnostics.push frame.label .nonConvergence
        (unconvergedDetail result.iterations result.norm) }
    return result
  have hgiveUp : Action.Twins (m.Matched anchors) giveUp giveUp :=
    Action.twins_bind (Action.twins_modify fun s t h =>
      h.congr rfl rfl h.inputs_eq h.outputs_eq h.stack_eq) fun _ => Action.twins_pure _
  split
  · exact Action.twins_pure _
  · split
    · exact Action.twins_bind (Action.twins_fail _) fun _ => hgiveUp
    · exact hgiveUp

end NewtonFrame

namespace Model

variable {m : Model R M} {anchors : ModelState R M × ModelState R M} (hm : m.Steady)

include hm

theorem twins_newton (g : ModelGroup R) (settings : NewtonSettings R) (mode : Mode)
    (scope : Span) : Action.Twins (m.Matched anchors) (m.newton g settings mode scope)
      (m.newton g settings mode scope) := by
  unfold newton
  split
  · exact Action.twins_pure _
  · refine Action.twins_bind (Action.twins_ofOutcome _) fun unknowns => ?_
    refine Action.twins_get_bind fun s t hs => ?_
    rw [hs.stack_eq]
    exact NewtonFrame.twins_solve hm _

theorem twins_runSchedule (active : ActiveSet) (mode : Mode) (scope : Span)
    (schedule : Schedule R) : Action.Twins (m.Matched anchors)
      (m.runSchedule active mode scope schedule) (m.runSchedule active mode scope schedule) := by
  induction schedule with
  | done => exact Action.twins_pure _
  | component c rest ih =>
    unfold runSchedule
    dsimp only
    split
    · refine couples_component_bind fun component _ => ?_
      exact Action.twins_bind (Action.twins_modify fun _ _ h => h.pull scope component) fun _ =>
        Action.twins_bind (twins_compute hm c mode) fun _ => ih
    · exact ih
  | group g body rest ihBody ihRest =>
    unfold runSchedule
    dsimp only
    split
    · exact Action.twins_bind ihBody fun _ => ihRest
    · split
      · exact Action.twins_bind (Action.twins_discard (twins_newton hm g _ mode scope)) fun _ =>
          ihRest
      · exact ihRest

/-- **Running a group** has the same outcome in matched states. -/
theorem twins_solveGroup (g : ModelGroup R) (body : Schedule R) (active : ActiveSet) (mode : Mode)
    (scope : Span) : Action.Twins (m.Matched anchors) (m.solveGroup g body active mode scope)
      (m.solveGroup g body active mode scope) := twins_runSchedule hm active mode scope _

omit hm in
theorem twins_setValue (name : String) (values : List R) :
    Action.Twins (m.Matched anchors) (m.setValue name values) (m.setValue name values) := by
  have hwrite (v : ModelVariable R) : Action.Twins (m.Matched anchors)
      (modify fun s => s.setVector v.kind ((s.vector v.kind).writeReal v.span values.toArray) :
        ModelWork R M Unit)
      (modify fun s => s.setVector v.kind ((s.vector v.kind).writeReal v.span values.toArray)) :=
    Action.twins_modify fun s t h => by
      rw [h.vector_eq]
      exact h.setVector v.kind _
  unfold setValue
  refine Action.twins_bind (Action.twins_ofOutcome _) fun v => ?_
  split
  · exact Action.twins_bind (Action.twins_fail _) fun _ => hwrite v
  · exact hwrite v

omit hm in
theorem twins_perturb (label name : String) (index : Nat) (delta : Delta R) :
    Action.Twins (m.Matched anchors) (m.perturb label name index delta)
      (m.perturb label name index delta) := by
  unfold perturb
  refine Action.twins_get_bind fun s t hs => ?_
  refine Action.twins_bind (Action.twins_ofOutcome _) fun found => ?_
  rw [hs.vector_eq]
  exact Action.twins_bind (Action.twins_ofOutcome _) fun v => Action.twins_set (hs.setVector _ v)

/-- **No operation of a group tells matched states apart.** -/
theorem groupTarget_coupled (g : ModelGroup R) (body : Schedule R) :
    (m.groupTarget g body).Coupled (m.Matched anchors) where
  size _ _ := rfl
  values hs name part := by
    simp only [groupTarget, hs.vector_eq]
  perturb := twins_perturb g.label
  evaluate active mode := Action.twins_mapError _ (twins_solveGroup hm g body active mode _)
  restore hs hs' _ _ := hs'.congr rfl rfl
    (by simp only [groupTarget, ModelState.restore, hs.inputs_eq, hs'.inputs_eq])
    (by simp only [groupTarget, ModelState.restore, hs.outputs_eq, hs'.outputs_eq]) hs'.stack_eq
  enter hs owner step := hs.congr rfl rfl hs.inputs_eq hs.outputs_eq
    (congrArg (ActivationStack.push · owner step) hs.stack_eq)
  leave hs hs' _ _ := hs'.congr rfl rfl
    (by simp only [groupTarget, ModelState.restore, hs.inputs_eq, hs'.inputs_eq])
    (by simp only [groupTarget, ModelState.restore, hs.outputs_eq, hs'.outputs_eq])
    (congrArg ActivationStack.pop hs'.stack_eq)
  complexCapable _ := rfl
  complexStepActive hs := by simp only [groupTarget, hs.stack_eq]
  graph _ := rfl

/-- **The work of schemes in one role on a group** has the same outcome in matched states, as far as
keeping the schemes leaves them matched. -/
theorem twins_onGroup (g : ModelGroup R) (body : Schedule R) {ρ : Scheme.Role R} {a b : Scheme R}
    (hρ : ρ.policy ≠ .reject)
    (ha : a.role = ρ ∧ a.Current (m.groupTarget m.root m.schedule))
    (hb : b.role = ρ ∧ b.Current (m.groupTarget m.root m.schedule))
    {keep : Scheme R → ModelState R M → ModelState R M}
    (hkeep : ∀ a b s t, a.role = ρ ∧ a.Current (m.groupTarget m.root m.schedule) →
      b.role = ρ ∧ b.Current (m.groupTarget m.root m.schedule) → m.Matched anchors s t →
        m.Matched anchors (keep a s) (keep b t)) :
    Action.Twins (m.Matched anchors) (m.onGroup g body a keep Scheme.computeJacobian)
      (m.onGroup g body b keep Scheme.computeJacobian) := by
  have hcoupled : (m.groupTarget g body).Coupled (m.Matched anchors) := groupTarget_coupled hm g body
  have hwork := Scheme.twins_computeJacobian (fun _ _ => rfl) hcoupled hρ
  have hgraph (s : ModelState R M) :
      (m.groupTarget m.root m.schedule).graph s = (m.groupTarget g body).graph s := rfl
  refine Action.twins_on (Action.twins_mapError _ hwork)
    (fun s t hs => ⟨⟨ha.1, hb.1, hs⟩, ha.2.of_graph hgraph, hb.2.of_graph hgraph⟩)
    fun s t w v _ hw => ?_
  exact hkeep _ _ _ _ ⟨hw.left, hw.currentLeft.of_graph fun s => (hgraph s).symm⟩
    ⟨hw.right, hw.currentRight.of_graph fun s => (hgraph s).symm⟩
    (hw.target.congr rfl rfl hw.target.inputs_eq hw.target.outputs_eq hw.target.stack_eq)

end Model

end Sensitivity
