import Sensitivity.Model.GroupScope
import Sensitivity.Proofs.Approximation.Relaxing

/-!
# Models that refuse nothing

A model whose schemes refuse entries outside patterns and the model that takes no notice of them
(`Model.relaxed`) differ in what they refuse only: whatever the operations of a group do in one, from
any state, they do in the other from the state with its schemes relaxed (`Model.groupTarget_carried`).
The schemes of groups do not take part in evaluations, so a relaxed state is without them.
-/

namespace Sensitivity

variable {R M : Type}

def MethodState.relaxed (s : MethodState R) : MethodState R := { s with scheme := s.scheme.relaxed }

def ComponentState.relaxed (k : ComponentState R M) : ComponentState R M :=
  { k with methods := k.methods.map MethodState.relaxed }

/-- The state with all schemes of components relaxed, and those of groups left out. -/
def ModelState.relaxed (s : ModelState R M) : ModelState R M :=
  { s with components := s.components.map ComponentState.relaxed, schemes := [], rootRequests := none }

/-- The model with schemes that refuse nothing. -/
def Model.relaxed (m : Model R M) : Model R M := { m with policy := m.policy.relaxed }

namespace ModelState

theorem relaxed_vector (s : ModelState R M) (kind : VariableKind) :
    s.relaxed.vector kind = s.vector kind := by cases kind <;> rfl

theorem relaxed_setVector (s : ModelState R M) (kind : VariableKind) (v : StateVector R) :
    s.relaxed.setVector kind v = (s.setVector kind v).relaxed := by cases kind <;> rfl

theorem getElem?_relaxed (s : ModelState R M) (c : Nat) :
    s.relaxed.components[c]? = s.components[c]?.map ComponentState.relaxed := List.getElem?_map ..

/-- A change that does the same to relaxed components. -/
theorem relaxed_modifyComponent (s : ModelState R M) (c : Nat)
    {f g : ComponentState R M → ComponentState R M} (h : ∀ k, g k.relaxed = (f k).relaxed) :
    s.relaxed.modifyComponent c g = (s.modifyComponent c f).relaxed := by
  have hcomponents : (s.components.map ComponentState.relaxed).modify c g =
      (s.components.modify c f).map ComponentState.relaxed := by
    refine List.ext_getElem? fun n => ?_
    simp only [List.getElem?_modify, List.getElem?_map, Option.map_eq_map, Option.map_map]
    congr 1
    funext k
    simp only [Function.comp_apply]
    split
    · exact h k
    · rfl
  simp only [modifyComponent, relaxed, hcomponents]

end ModelState

theorem ComponentState.relaxed_modify (methods : List (MethodState R)) (place : Nat)
    {f g : MethodState R → MethodState R} (h : ∀ a, g a.relaxed = (f a).relaxed) :
    (methods.map MethodState.relaxed).modify place g =
      (methods.modify place f).map MethodState.relaxed := by
  refine List.ext_getElem? fun n => ?_
  simp only [List.getElem?_modify, List.getElem?_map, Option.map_eq_map, Option.map_map]
  congr 1
  funext a
  simp only [Function.comp_apply]
  split
  · exact h a
  · rfl

section Requests

variable [Scalar R]

theorem Scheme.relaxed_addRequests {s t : Scheme R} {qs : List (Request R)}
    (h : s.addRequests qs = .ok t) : s.relaxed.addRequests qs = .ok t.relaxed := by
  induction qs generalizing s with
  | nil =>
    cases h
    rfl
  | cons q rest ih =>
    unfold addRequests at h ⊢
    rw [List.foldlM_cons] at h ⊢
    obtain ⟨u, hu, hrest⟩ := Except.bind_eq_ok.1 h
    refine Except.bind_eq_ok.2 ⟨u.relaxed, ?_, ih hrest⟩
    unfold addRequest at hu ⊢
    cases hvalid : q.settings.validate with
    | error issue =>
      rw [hvalid] at hu
      cases hu
    | ok =>
      rw [hvalid] at hu
      cases hu
      rfl

/-- A selection does the same to relaxed schemes. -/
theorem MethodState.relaxed_select {s t : MethodState R} {partials : List (DeclaredPartial R)}
    {places : List Nat} {relevant : Option (List Bool)}
    (h : s.select partials places relevant = .ok t) :
    s.relaxed.select partials places relevant = .ok t.relaxed := by
  unfold select at h ⊢
  dsimp only at h ⊢
  split at h
  · rename_i hsame
    cases h
    exact if_pos hsame
  · rename_i hother
    obtain ⟨scheme, hscheme, h⟩ := Except.bind_eq_ok.1 h
    cases h
    refine (if_neg hother).trans (Except.bind_eq_ok.2 ⟨scheme.relaxed, ?_, rfl⟩)
    exact Scheme.relaxed_addRequests hscheme

end Requests

namespace Model

variable (m : Model R M)

theorem carries_kept (c : Nat) :
    Action.Carries ModelState.relaxed ComponentState.relaxed (kept c : ModelWork R M _) (kept c) :=
  Action.carries_read fun s k hk => by
    rw [Outcome.ofOption_eq_ok] at hk ⊢
    rw [s.getElem?_relaxed, hk]
    rfl

theorem carries_component (c : Nat) :
    Action.Carries ModelState.relaxed id (m.component c) (m.relaxed.component c) :=
  Action.carries_ofOutcome fun _ h => h

theorem relaxed_pull (scope : Span) (component : ModelComponent R M) (s : ModelState R M) :
    m.relaxed.pull scope component s.relaxed = (m.pull scope component s).relaxed := by
  unfold pull
  induction component.inputIds generalizing s with
  | nil => rfl
  | cons id rest ih =>
    have hone : m.relaxed.pullInput scope s.relaxed id = (m.pullInput scope s id).relaxed := by
      have hvariable (id : Nat) : m.relaxed.variableAt? id = m.variableAt? id := rfl
      have hsource : (m.relaxed.source? id).bind m.relaxed.variableAt? =
          (m.source? id).bind m.variableAt? := rfl
      unfold pullInput
      rw [hvariable, hsource]
      cases m.variableAt? id with
      | none => rfl
      | some input =>
        cases (m.source? id).bind m.variableAt? with
        | none => rfl
        | some source =>
          dsimp only
          by_cases hscope : scope.contains source.owner = true
          · rw [if_pos hscope, if_pos hscope]
            rfl
          · rw [if_neg hscope, if_neg hscope]
    rw [List.foldl_cons, List.foldl_cons, hone, ih]

variable [Scalar R]

theorem carries_compute (c : Nat) (mode : Mode) :
    Action.Carries ModelState.relaxed id (m.compute c mode) (m.relaxed.compute c mode) := by
  refine Action.carries_bind (m.carries_component c) fun component => ?_
  refine Action.carries_bind (carries_kept c) fun kept => ?_
  intro s x t h
  simp only [Action.perform_of, Prod.mk.injEq] at h ⊢
  obtain ⟨hanswer, rfl⟩ := h
  refine ⟨hanswer, ?_⟩
  let r := (component.component.evaluate s.inputs component.inputs component.outputs
    (m.isComplexIn mode)).perform (kept.memory, s.outputs)
  have hcounted := s.relaxed_modifyComponent c
    (f := fun k => { k with memory := r.2.1, runs := k.runs + 1 })
    (g := fun k => { k with memory := r.2.1, runs := k.runs + 1 }) fun _ => rfl
  exact congrArg (fun u : ModelState R M => { u with outputs := r.2.2 }) hcounted

theorem carries_perturb (label name : String) (index : Nat) (delta : Delta R) :
    Action.Carries ModelState.relaxed id (m.perturb label name index delta)
      (m.relaxed.perturb label name index delta) := by
  refine Action.carries_bind Action.carries_get fun s => ?_
  refine Action.carries_bind (g := id) (Action.carries_ofOutcome fun _ h => h) fun found => ?_
  refine Action.carries_bind (g := id) (Action.carries_ofOutcome fun v h => ?_) fun v =>
    Action.carries_set (s.relaxed_setVector _ _)
  rw [id, s.relaxed_vector]
  exact h

omit [Scalar R] in
/-- A component fills in the same partials. -/
theorem carries_computePartials (c : Nat) (component : ModelComponent R M) (x : Array R) :
    Action.Carries ModelState.relaxed id (computePartials c component x)
      (computePartials c component x) := by
  refine Action.carries_bind (carries_kept c) fun kept => ?_
  refine Action.carries_on (Action.carries_refl _) (fun _ => rfl) fun s r =>
    s.relaxed_modifyComponent c ?_
  exact fun _ => rfl

omit [Scalar R] in
theorem carries_storeBlocks (c : Nat) (blocks : Jacobian R) :
    Action.Carries ModelState.relaxed id (storeBlocks c blocks : ModelWork R M Unit)
      (storeBlocks c blocks) := by
  refine Action.carries_forEach fun e _ => ?_
  refine Action.carries_bind (carries_kept c) fun kept => ?_
  refine Action.carries_bind (g := id) (Action.carries_ofOutcome fun _ h => h) fun partials => ?_
  refine Action.carries_modify fun s => s.relaxed_modifyComponent c ?_
  exact fun _ => rfl

/-- The work of a scheme on a component by itself carries over to the relaxed scheme, as far as keeping
its results does. -/
theorem carries_onComponent (c : Nat) (component : ModelComponent R M) (x y : Array R)
    (scheme : Scheme R) (enclosed : Bool)
    {keep : Scheme R → Diagnostics → ModelState R M → ModelState R M}
    (hkeep : ∀ a d s, keep a.relaxed d s.relaxed = (keep a d s).relaxed) :
    Action.Carries ModelState.relaxed id
      (m.onComponent c component x y scheme ModelState.diagnostics keep
        (Scheme.computeJacobian (component.target enclosed)))
      (m.relaxed.onComponent c component x y scheme.relaxed ModelState.diagnostics keep
        (Scheme.computeJacobian (component.target enclosed))) := by
  refine Action.carries_bind (carries_kept c) fun kept => ?_
  refine Action.carries_on (Action.carries_mapError _ Scheme.carries_computeJacobian)
    (fun _ => rfl) fun s w => ?_
  have hran := s.relaxed_modifyComponent c
    (f := fun k => { k with memory := w.target.memory, runs := w.target.runs })
    (g := fun k => { k with memory := w.target.memory, runs := w.target.runs }) fun _ => rfl
  exact (congrArg (keep w.scheme.relaxed w.diagnostics) hran).trans (hkeep _ _ _)

theorem carries_approximatePartials (c place : Nat) (places : List Nat)
    (relevant : Option (List Bool)) (x y : Array R) :
    Action.Carries ModelState.relaxed id (m.approximatePartials c place places relevant x y)
      (m.relaxed.approximatePartials c place places relevant x y) := by
  have hstore (s : ModelState R M) {f g : MethodState R → MethodState R}
      (h : ∀ a, g a.relaxed = (f a).relaxed) :
      s.relaxed.modifyComponent c (fun k => { k with methods := k.methods.modify place g }) =
        (s.modifyComponent c fun k => { k with methods := k.methods.modify place f }).relaxed :=
    s.relaxed_modifyComponent c fun k => congrArg (fun l => { k.relaxed with methods := l })
      (ComponentState.relaxed_modify k.methods place h)
  refine Action.carries_bind (m.carries_component c) fun component => ?_
  refine Action.carries_bind (carries_kept c) fun kept => ?_
  refine Action.carries_bind (g := MethodState.relaxed) (Action.carries_ofOutcome fun a ha => ?_)
    fun state => ?_
  · rw [Outcome.ofOption_eq_ok] at ha ⊢
    simp only [ComponentState.relaxed, List.getElem?_map, ha, Option.map_some]
  refine Action.carries_bind (g := MethodState.relaxed) (Action.carries_ofOutcome fun a ha => ?_)
    fun chosen => ?_
  · rw [Outcome.mapError_eq_ok, Outcome.ofExcept_eq_ok] at ha ⊢
    exact MethodState.relaxed_select ha
  refine Action.carries_bind (Action.carries_modify fun s => hstore s fun _ => rfl) fun _ => ?_
  by_cases hempty : chosen.scheme.requests.isEmpty = true
  · rw [if_pos hempty, if_pos (show chosen.relaxed.scheme.requests.isEmpty = true from hempty)]
    exact Action.carries_pure _
  rw [if_neg hempty, if_neg (show ¬ chosen.relaxed.scheme.requests.isEmpty = true from hempty)]
  refine Action.carries_bind Action.carries_get fun s => ?_
  refine Action.carries_bind (m.carries_onComponent c component x y chosen.scheme s.stack.isActive
    fun a d s => ?_) fun blocks => carries_storeBlocks c blocks
  exact congrArg (fun u : ModelState R M => { u with diagnostics := d })
    (hstore s (f := fun k => { k with scheme := a }) (g := fun k => { k with scheme := a.relaxed })
      fun _ => rfl)

theorem carries_linearizeAt (c : Nat) (relevant : Option (List Bool))
    (baseline : Option (Array R)) :
    Action.Carries ModelState.relaxed id (m.linearizeAt c relevant baseline)
      (m.relaxed.linearizeAt c relevant baseline) := by
  refine Action.carries_bind (m.carries_component c) fun component => ?_
  refine Action.carries_bind Action.carries_get fun s => ?_
  have hrest (x y : Array R) : Action.Carries ModelState.relaxed id
      (computePartials c component x >>= fun _ => Action.forEach component.methods.zipIdx fun z =>
        m.approximatePartials c z.2 z.1.2 relevant x y)
      (computePartials c component x >>= fun _ => Action.forEach component.methods.zipIdx fun z =>
        m.relaxed.approximatePartials c z.2 z.1.2 relevant x y) :=
    Action.carries_bind (carries_computePartials c component x) fun _ =>
      Action.carries_forEach fun z _ => m.carries_approximatePartials c z.2 z.1.2 relevant x y
  by_cases hsize :
      (baseline.getD (s.outputs.readReal component.outputs)).size ≠ component.outputs.size
  · intro _ _ _ h
    rw [if_pos hsize] at h
    cases h
  · rw [if_neg hsize, if_neg (show ¬ (baseline.getD (s.relaxed.outputs.readReal
      (id component).outputs)).size ≠ (id component).outputs.size from hsize)]
    exact hrest _ _

end Model

namespace NewtonFrame

variable [Scalar R] (m : Model R M) (frame : NewtonFrame R)

theorem carries_residual : Action.Carries ModelState.relaxed id (frame.residual m)
    (frame.residual m.relaxed) := by
  refine Action.carries_bind Action.carries_get fun before => ?_
  refine Action.carries_bind (Action.carries_forEach fun c _ => ?_) fun _ => ?_
  · exact Action.carries_bind (m.carries_component c) fun component =>
      Action.carries_modify (m.relaxed_pull frame.scope component)
  refine Action.carries_bind (Action.carries_forEach fun c _ => m.carries_compute c _) fun _ => ?_
  refine Action.carries_bind Action.carries_get fun s => ?_
  refine Action.carries_bind (Action.carries_set rfl) fun _ => ?_
  by_cases hmode : (!m.isComplexIn frame.mode) = true
  · rw [if_pos hmode, if_pos (show (!m.relaxed.isComplexIn frame.mode) = true from hmode)]
    exact Action.carries_pure _
  · rw [if_neg hmode, if_neg (show ¬ (!m.relaxed.isComplexIn frame.mode) = true from hmode)]
    exact Action.carries_bind (Action.carries_modify fun _ => rfl) fun _ => Action.carries_pure _

theorem carries_addPartials (computed : Array R) (components : List Nat) (matrix : DenseMatrix R) :
    Action.Carries ModelState.relaxed id (frame.addPartials m computed components matrix)
      (frame.addPartials m.relaxed computed components matrix) := by
  induction components generalizing matrix with
  | nil => exact Action.carries_pure matrix
  | cons c rest ih =>
    refine Action.carries_bind (m.carries_component c) fun component => ?_
    refine Action.carries_bind (m.carries_linearizeAt c none _) fun _ => ?_
    refine Action.carries_bind (Model.carries_kept c) fun kept => ?_
    exact Action.carries_bind (g := id) (Action.carries_ofOutcome fun _ h => h) fun matrix =>
      ih matrix

variable [DirectSolver R]

theorem carries_advance (r : Residual R) : Action.Carries ModelState.relaxed id (frame.advance m r)
    (frame.advance m.relaxed r) := by
  have hcorrection (matrix : DenseMatrix R) (b : Array R) : Action.Carries ModelState.relaxed id
      (correction matrix b : ModelWork R M (Array R)) (correction matrix b) :=
    Action.carries_bind (g := id) (Action.carries_ofOutcome fun _ h => h) fun _ =>
      Action.carries_pure _
  refine Action.carries_bind (carries_addPartials m frame r.computed _ _) fun matrix => ?_
  refine Action.carries_bind (hcorrection matrix r.re) fun d => ?_
  refine Action.carries_bind (Action.carries_modify fun _ => rfl) fun _ => ?_
  cases r.im with
  | none => exact Action.carries_pure ()
  | some im =>
    exact Action.carries_bind (hcorrection matrix im) fun d => Action.carries_modify fun _ => rfl

theorem carries_iterate (first : Option R) (remaining : Nat) :
    Action.Carries ModelState.relaxed id (frame.iterate m first remaining)
      (frame.iterate m.relaxed first remaining) := by
  induction remaining generalizing first with
  | zero =>
    refine Action.carries_bind (frame.carries_residual m) fun r => ?_
    dsimp only [id]
    split
    all_goals
      exact Action.carries_bind (Action.carries_modify fun _ => rfl) fun _ => Action.carries_pure _
  | succ n ih =>
    refine Action.carries_bind (frame.carries_residual m) fun r => ?_
    dsimp only [id]
    split
    · exact Action.carries_bind (Action.carries_modify fun _ => rfl) fun _ => Action.carries_pure _
    · exact Action.carries_bind (frame.carries_advance m r) fun _ => ih _

theorem carries_solve : Action.Carries ModelState.relaxed id (frame.solve m)
    (frame.solve m.relaxed) := by
  refine Action.carries_bind (frame.carries_iterate m none _) fun result => ?_
  dsimp only [id]
  split
  · exact Action.carries_pure result
  split
  · exact Action.carries_bind (g := id) (Action.carries_fail _ _) fun _ =>
      Action.carries_bind (Action.carries_modify fun _ => rfl) fun _ => Action.carries_pure result
  · exact Action.carries_bind (Action.carries_modify fun _ => rfl) fun _ =>
      Action.carries_pure result

end NewtonFrame

namespace Model

variable [Scalar R] [DirectSolver R] (m : Model R M)

theorem carries_newton (g : ModelGroup R) (settings : NewtonSettings R) (mode : Mode)
    (scope : Span) : Action.Carries ModelState.relaxed id (m.newton g settings mode scope)
      (m.relaxed.newton g settings mode scope) := by
  unfold newton
  split
  · exact Action.carries_pure _
  · refine Action.carries_bind (g := id) (Action.carries_ofOutcome fun _ h => h) fun unknowns => ?_
    exact Action.carries_bind Action.carries_get fun s => NewtonFrame.carries_solve m _

theorem carries_runSchedule (active : ActiveSet) (mode : Mode) (scope : Span)
    (schedule : Schedule R) :
    Action.Carries ModelState.relaxed id (m.runSchedule active mode scope schedule)
      (m.relaxed.runSchedule active mode scope schedule) := by
  induction schedule with
  | done => exact Action.carries_pure ()
  | component c rest ih =>
    unfold runSchedule
    dsimp only
    split
    · refine Action.carries_bind (m.carries_component c) fun component => ?_
      refine Action.carries_bind (Action.carries_modify (m.relaxed_pull scope component)) fun _ => ?_
      exact Action.carries_bind (m.carries_compute c mode) fun _ => ih
    · exact ih
  | group g body rest ihbody ihrest =>
    unfold runSchedule
    cases g.solver with
    | runOnce => exact Action.carries_bind ihbody fun _ => ihrest
    | newton settings =>
      dsimp only
      split
      · exact Action.carries_bind (Action.carries_discard (m.carries_newton g settings mode scope))
          fun _ => ihrest
      · exact ihrest

/-- **A group does without refusals what it does with them**, as far as it is not refused. -/
theorem groupTarget_carried (g : ModelGroup R) (body : Schedule R) :
    (m.groupTarget g body).Carried ModelState.relaxed (m.relaxed.groupTarget g body) where
  values s name part := by
    change (m.locate name >>= fun found =>
      pure ((s.relaxed.vector found.kind).readPart found.span part)) = _
    simp only [s.relaxed_vector]
    rfl
  perturb := m.carries_perturb g.label
  evaluate active mode :=
    Action.carries_mapError _ (m.carries_runSchedule active mode g.components (.group g body .done))
  restore _ _ := rfl
  enter _ _ _ := rfl
  leave _ := rfl

end Model

end Sensitivity
