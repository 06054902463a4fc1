import Sensitivity.Proofs.Model.Component
import Sensitivity.Proofs.Model.Pruning

/-!
# Groups without a memory

A group whose members run once and remember nothing answers by the vectors of the model alone, so it
is an exact target (`Model.groupTarget_exact`): evaluated again from the same values it gives the
same values.
-/

namespace Sensitivity

variable {R M : Type}

/-- What evaluations depend on, if no component remembers anything. -/
def ModelState.outlook (s : ModelState R M) :
    (StateVector R × StateVector R × StateVector R × ActivationStack R) × Nat :=
  (s.point, s.components.length)

namespace ModelState

variable {s t : ModelState R M}

theorem outlook_eq_iff : s.outlook = t.outlook ↔ s.inputs = t.inputs ∧ s.outputs = t.outputs ∧
    s.residuals = t.residuals ∧ s.stack = t.stack ∧ s.components.length = t.components.length := by
  simp only [outlook, point, Prod.mk.injEq, and_assoc]

theorem vector_congr (h : s.outlook = t.outlook) (kind : VariableKind) :
    s.vector kind = t.vector kind := by
  cases kind
  · exact (outlook_eq_iff.1 h).1
  · exact (outlook_eq_iff.1 h).2.1

theorem outlook_setVector (h : s.outlook = t.outlook) (kind : VariableKind) (v : StateVector R) :
    (s.setVector kind v).outlook = (t.setVector kind v).outlook := by
  obtain ⟨hi, ho, hr, hs, hc⟩ := outlook_eq_iff.1 h
  cases kind
  · exact outlook_eq_iff.2 ⟨rfl, ho, hr, hs, hc⟩
  · exact outlook_eq_iff.2 ⟨hi, rfl, hr, hs, hc⟩

end ModelState

namespace Model

variable (m : Model R M)

theorem outlook_pull (scope : Span) (c : ModelComponent R M) {s t : ModelState R M}
    (h : s.outlook = t.outlook) : (m.pull scope c s).outlook = (m.pull scope c t).outlook := by
  unfold pull
  induction c.inputIds generalizing s t with
  | nil => exact h
  | cons id rest ih =>
    refine ih ?_
    obtain ⟨hi, ho, hr, hs, hc⟩ := ModelState.outlook_eq_iff.1 h
    unfold pullInput
    split
    · split
      · exact ModelState.outlook_eq_iff.2 ⟨by simp only [hi, ho], ho, hr, hs, hc⟩
      · exact h
    · exact h

theorem components_pull (scope : Span) (c : ModelComponent R M) (s : ModelState R M) :
    (m.pull scope c s).components = s.components :=
  of_pull (P := fun t => t.components = s.components) (fun _ _ h => h) scope c rfl

variable {m}

/-- A group runs once when its members do and it does itself. -/
theorem once_of_group {g : ModelGroup R} {body : Schedule R} (hg : g.solver = .runOnce)
    (honce : ∀ x ∈ body.groups, x.1.solver = .runOnce) :
    ∀ x ∈ (Schedule.group g body .done).groups, x.1.solver = .runOnce := by
  intro x hx
  simp only [Schedule.groups, List.append_nil, List.mem_cons] at hx
  rcases hx with rfl | hx
  · exact hg
  · exact honce x hx

variable [Scalar R] {mode : Mode}

/-- A component that remembers nothing does the same with the same values. -/
theorem respects_compute (hm : ∀ c ∈ m.components, c.component.Stateless) (k : Nat) :
    (m.compute k mode).Respects ModelState.outlook := by
  intro s t h
  obtain ⟨hi, ho, hr, hs, hlength⟩ := ModelState.outlook_eq_iff.1 h
  unfold compute component
  rw [Action.perform_bind, Action.perform_bind, Action.perform_ofOutcome, Action.perform_ofOutcome]
  cases hc : m.components[k]? with
  | none => exact ⟨rfl, h⟩
  | some c =>
    simp only [Outcome.ofOption, Action.perform_bind, kept, Action.perform_read]
    have hkept : s.components[k]?.isSome = t.components[k]?.isSome := by
      rw [Bool.eq_iff_iff]
      simp only [Option.isSome_iff_ne_none, ne_eq, List.getElem?_eq_none_iff, hlength]
    rcases hl : s.components[k]? with _ | l <;> rcases hl' : t.components[k]? with _ | l' <;>
      simp only [hl, hl', Option.isSome_none, Option.isSome_some, reduceCtorEq] at hkept
    · exact ⟨rfl, h⟩
    · obtain ⟨hanswer, houtputs⟩ := (hm c (List.mem_of_getElem? hc)).evaluate t.inputs t.outputs
        c.inputs c.outputs (m.isComplexIn mode) l.memory l'.memory
      simp only [Action.perform_of, hi, ho, hanswer]
      refine ⟨trivial, ModelState.outlook_eq_iff.2 ⟨hi, houtputs, hr, hs, ?_⟩⟩
      simp only [ModelState.modifyComponent, List.length_modify, hlength]

theorem keeps_length_compute (k : Nat) :
    (m.compute k mode).Keeps fun s => s.components.length := fun n => by
  refine Action.preserves_bind (Action.preserves_ofOutcome _) fun c => ?_
  refine Action.preserves_bind (Action.preserves_read _) fun l s hs _ => ?_
  exact (List.length_modify ..).trans hs

theorem keeps_length_perturb (label name : String) (index : Nat) (delta : Delta R) :
    (m.perturb label name index delta).Keeps fun s => s.components.length := fun n => by
  unfold perturb
  refine Action.preserves_get_bind fun s hs => ?_
  suffices h : Action.Preserves (fun s : ModelState R M => s.components.length = n) _ from h s hs
  refine Action.preserves_bind (Action.preserves_ofOutcome _) fun v => ?_
  refine Action.preserves_bind (Action.preserves_ofOutcome _) fun w => Action.preserves_set ?_
  cases v.kind <;> exact hs

theorem respects_perturb (label name : String) (index : Nat) (delta : Delta R) :
    (m.perturb label name index delta).Respects ModelState.outlook := by
  intro s t h
  unfold perturb
  rw [Action.perform_get_bind, Action.perform_get_bind, Action.perform_bind, Action.perform_bind,
    Action.perform_ofOutcome, Action.perform_ofOutcome]
  cases m.locate name with
  | error e => exact ⟨rfl, h⟩
  | ok v =>
    dsimp only
    rw [Action.perform_bind, Action.perform_bind, Action.perform_ofOutcome,
      Action.perform_ofOutcome, ModelState.vector_congr h]
    cases (t.vector v.kind).perturb (shadowMissing label) (v.start + index) delta with
    | error e => exact ⟨rfl, h⟩
    | ok w => exact ⟨rfl, ModelState.outlook_setVector h v.kind w⟩

variable [DirectSolver R] {active : ActiveSet} {scope : Span}

/-- What pulling and running components keep up, a run of members that run once keeps up. -/
theorem preserves_runSchedule {P : ModelState R M → Prop}
    (hpull : ∀ c s, P s → P (m.pull scope c s)) (hcompute : ∀ k, (m.compute k mode).Preserves P)
    {schedule : Schedule R} (honce : ∀ x ∈ schedule.groups, x.1.solver = .runOnce) :
    (m.runSchedule active mode scope schedule).Preserves P := by
  induction schedule with
  | done => exact Action.preserves_pure _
  | component k rest ih =>
    unfold runSchedule
    dsimp only
    split
    · refine Action.preserves_bind (Action.preserves_ofOutcome _) fun c => ?_
      refine Action.preserves_bind (Action.preserves_modify fun s => hpull c s) fun _ => ?_
      exact Action.preserves_bind (hcompute k) fun _ => ih honce
    · exact ih honce
  | group g body rest ihbody ihrest =>
    rw [runSchedule_group (honce (g, body) List.mem_cons_self)]
    refine Action.preserves_bind (ihbody fun x hx => ?_) fun _ => ihrest fun x hx => ?_
    · exact honce x (List.mem_cons_of_mem _ (List.mem_append_left _ hx))
    · exact honce x (List.mem_cons_of_mem _ (List.mem_append_right _ hx))

/-- **Members that run once and remember nothing** do the same with the same values. -/
theorem respects_runSchedule (hm : ∀ c ∈ m.components, c.component.Stateless) {schedule : Schedule R}
    (honce : ∀ x ∈ schedule.groups, x.1.solver = .runOnce) :
    (m.runSchedule active mode scope schedule).Respects ModelState.outlook := by
  induction schedule with
  | done => exact Action.respects_pure _
  | component k rest ih =>
    unfold runSchedule
    dsimp only
    split
    · refine Action.respects_bind (fun s t h => ⟨rfl, h⟩) fun c => ?_
      refine Action.respects_bind (fun s t h => ⟨rfl, m.outlook_pull scope c h⟩) fun _ => ?_
      exact Action.respects_bind (respects_compute hm k) fun _ => ih honce
    · exact ih honce
  | group g body rest ihbody ihrest =>
    rw [runSchedule_group (honce (g, body) List.mem_cons_self)]
    refine Action.respects_bind (ihbody fun x hx => ?_) fun _ => ihrest fun x hx => ?_
    · exact honce x (List.mem_cons_of_mem _ (List.mem_append_left _ hx))
    · exact honce x (List.mem_cons_of_mem _ (List.mem_append_right _ hx))

section Target

variable {g : ModelGroup R} {body : Schedule R} (hg : g.solver = .runOnce)
  (honce : ∀ x ∈ body.groups, x.1.solver = .runOnce)

include hg honce

theorem respects_evaluateGroup (hm : ∀ c ∈ m.components, c.component.Stateless) :
    ((m.groupTarget g body).evaluate active mode).Respects ModelState.outlook := by
  have hsolve : (m.solveGroup g body active mode g.components).Respects ModelState.outlook :=
    respects_runSchedule hm (once_of_group hg honce)
  intro s t h
  obtain ⟨hanswer, hview⟩ := hsolve s t h
  simp only [groupTarget, Action.perform_mapError, hanswer, hview, and_self]

/-- Moving and evaluating a group leaves the number of components. -/
theorem length_of_moved {s t : ModelState R M} (h : (m.groupTarget g body).Moved s t) :
    t.components.length = s.components.length := by
  induction h with
  | start => rfl
  | perturb name index delta _ ha ih => exact keeps_length_perturb g.label name index delta _ _ ih ha
  | evaluate active mode _ ha ih =>
    exact Action.preserves_mapError _ (preserves_runSchedule
      (fun c s hs => (congrArg List.length (m.components_pull _ c s)).trans hs)
      (fun k => keeps_length_compute k _) (once_of_group hg honce)) _ ih ha
  | restore _ ih => exact ih

/-- **A group whose members run once and remember nothing is an exact target.** -/
theorem groupTarget_exact (hm : ∀ c ∈ m.components, c.component.Stateless) :
    (m.groupTarget g body).Exact ModelState.outlook where
  restore h := by
    have hlength := length_of_moved hg honce h
    exact Prod.ext ((m.groupTarget_restoring g body).restore h) hlength
  leave owner step h := by
    have hlength := length_of_moved hg honce h
    exact Prod.ext ((m.groupTarget_restoring g body).leave owner step h) hlength
  size _ _ := rfl
  values {s t} h name part := by
    simp only [groupTarget, ModelState.vector_congr h]
  perturb := respects_perturb g.label
  evaluate _ _ := respects_evaluateGroup hg honce hm
  enter {s t} h owner step := by
    obtain ⟨hi, ho, hr, hs, hc⟩ := ModelState.outlook_eq_iff.1 h
    exact ModelState.outlook_eq_iff.2 ⟨hi, ho, hr, congrArg (·.push owner step) hs, hc⟩
  complexCapable _ := rfl
  complexStepActive {s t} h := congrArg (·.isActive) (ModelState.outlook_eq_iff.1 h).2.2.2.1

end Target

end Model

end Sensitivity
