import Sensitivity.Approximation.Scheme
import Sensitivity.Proofs.Action

/-!
# Targets that return

A target is restoring for a view of its state when, whatever was perturbed and
evaluated since a state, restoring that state brings its view back
(`Target.Restoring`). `Target.Moved` is what happens in between: perturbations,
evaluations and restores, each of them successful or not.

Approximating on such a target leaves the view alone: a finite difference
(`Stencil.keeps_difference`), a complex step (`StepEngine.keeps_runIdle`) and a
whole computation of a scheme (`Scheme.keeps_computeJacobian`), also when it ends
with an error.
-/

namespace Sensitivity

variable {R σ γ : Type}

namespace Target

variable (T : Target R σ)

/-- The states that perturbing, evaluating and restoring `s` lead to from `s`. -/
inductive Moved (s : σ) : σ → Prop
  | start : Moved s s
  | perturb {t : σ} (name : String) (index : Nat) (delta : Delta R) (h : Moved s t)
      (ha : ((T.perturb name index delta).perform t).1.Answers) :
      Moved s ((T.perturb name index delta).perform t).2
  | evaluate {t : σ} (active : ActiveSet) (mode : Mode) (h : Moved s t)
      (ha : ((T.evaluate active mode).perform t).1.Answers) :
      Moved s ((T.evaluate active mode).perform t).2
  | restore {t : σ} (h : Moved s t) : Moved s (T.restore s t)

/-- Restoring a state returns its view, also out of a complex step begun there. -/
structure Restoring (view : σ → γ) : Prop where
  restore : ∀ {s t}, T.Moved s t → view (T.restore s t) = view s
  leave : ∀ {s t} owner h, T.Moved (T.enter owner h s) t →
    view (T.leave (T.restore s t)) = view s

variable {T}

theorem preserves_moved_perturb (s : σ) (name : String) (index : Nat) (delta : Delta R) :
    (T.perturb name index delta).Preserves (T.Moved s) :=
  fun _ h ha => .perturb name index delta h ha

theorem preserves_moved_evaluate (s : σ) (active : ActiveSet) (mode : Mode) :
    (T.evaluate active mode).Preserves (T.Moved s) :=
  fun _ h ha => .evaluate active mode h ha

end Target

namespace Stencil

variable [Scalar R] {T : Target R σ} {view : σ → γ}

theorem preserves_moved_evaluatePoint (s : σ) (perturbations : List (Perturbation R)) (offset : R)
    (active : ActiveSet) (of : List String) :
    (evaluatePoint T perturbations offset active of).Preserves (T.Moved s) :=
  Action.preserves_bind
    (Action.preserves_forEach fun p => Target.preserves_moved_perturb s p.name p.index _) fun _ =>
      Action.preserves_bind (Target.preserves_moved_evaluate s active .real) fun _ =>
        Action.preserves_read _

/-- After each point the target is back at the saved state. -/
theorem preserves_sumPoints (hT : T.Restoring view) (s : σ) (perturbations : List (Perturbation R))
    (active : ActiveSet) (of : List String) (points : List (R × R))
    (sums : Table String (List R)) :
    (sumPoints T s perturbations active of points sums).Preserves
      fun t => T.Moved s t ∧ view t = view s := by
  induction points generalizing sums with
  | nil => exact Action.preserves_pure sums
  | cons point rest ih =>
    obtain ⟨offset, weight⟩ := point
    refine Action.preserves_bind (fun t ht ha => ?_) fun _ => ih _
    have hm := preserves_moved_evaluatePoint s perturbations offset active of t ht.1 ha
    exact ⟨.restore hm, hT.restore hm⟩

/-- **A finite difference returns to its point**, also when an evaluation fails. -/
theorem keeps_difference (hT : T.Restoring view) (st : Stencil R)
    (perturbations : List (Perturbation R)) (active : ActiveSet) (of : List String)
    (baseline : Table String (List R)) :
    (st.difference T perturbations active of baseline).Keeps view := by
  intro c
  refine Action.preserves_bind (Action.preserves_ofOutcome _) fun start =>
    Action.preserves_get_bind fun s hs ha => ?_
  have h : ((sumPoints T s perturbations active of st.points start >>= fun sums =>
      pure (sums.map fun _ vs => vs.map fun v => v / st.denominator)) :
        Action σ (ApproximationError R) _).Preserves fun t => T.Moved s t ∧ view t = view s :=
    Action.preserves_bind (preserves_sumPoints hT s perturbations active of _ start) fun _ =>
      Action.preserves_pure _
  exact (h s ⟨.start, rfl⟩ ha).2.trans hs

end Stencil

namespace StepEngine

/-- In an allowed phase a direction goes on. -/
theorem perform_require_bind {α : Type} {allowed : Phase → Bool} {d : Driven σ}
    (h : allowed d.engine.phase = true)
    (f : Unit → Action (Driven σ) (ApproximationError R) α) :
    (require allowed >>= f).perform d = (f ()).perform d := by
  rw [Action.perform_bind, require, Action.perform_read, h]
  rfl

/-- In any other phase it breaches, and nothing has happened. -/
theorem breach_require_bind {α : Type} {allowed : Phase → Bool} {d : Driven σ}
    (h : allowed d.engine.phase = false)
    (f : Unit → Action (Driven σ) (ApproximationError R) α) :
    (require allowed >>= f).perform d = (.error .breach, d) := by
  rw [Action.perform_bind, require, Action.perform_read, h]
  rfl

variable [Scalar R] {T : Target R σ} {view : σ → γ}

/-- A direction is under way that began at `s`: its state is saved, and the target moved on from
there within a complex step. -/
def UnderWay (T : Target R σ) (s : σ) (d : Driven σ) : Prop :=
  d.engine.phase ≠ .idle ∧ d.engine.saved = some s ∧
    ∃ owner h, T.Moved (T.enter owner h s) d.target

omit [Scalar R] in
theorem preserves_underWay_onTarget {α : Type} {s : σ} {a : Action σ (ApproximationError R) α}
    (ha : ∀ owner h, a.Preserves (T.Moved (T.enter owner h s))) :
    (onTarget a).Preserves (UnderWay T s) :=
  Action.preserves_on fun d ⟨hp, hs, owner, h, hm⟩ hb =>
    ⟨hp, hs, owner, h, ha owner h d.target hm hb⟩

/-- A direction that begins at an idle engine is under way afterwards. -/
theorem underWay_start {s : σ} (owner : String) (perturbations : List (Perturbation R))
    (ha : ((start T owner perturbations).perform ⟨idle, s⟩).1.Answers) :
    UnderWay T s ((start T owner perturbations).perform ⟨idle, s⟩).2 := by
  let step := Scalar.maximum (perturbations.map Perturbation.step)
  let entered : Driven σ := ⟨⟨.perturbed, some s⟩, T.enter owner step s⟩
  have hstart : UnderWay T s entered := ⟨by simp [entered], rfl, owner, step, .start⟩
  have h : (Action.forEach perturbations fun p =>
      onTarget (T.perturb p.name p.index (.imag p.step))).Preserves (UnderWay T s) :=
    Action.preserves_forEach fun p => preserves_underWay_onTarget fun _ _ =>
      Target.preserves_moved_perturb _ p.name p.index _
  exact h entered hstart ha

omit [Scalar R] in
theorem preserves_underWay_capture (s : σ) (active : ActiveSet) (of : List String) :
    (capture T active of).Preserves (UnderWay T s) :=
  Action.preserves_bind (Action.preserves_read _) fun _ =>
    Action.preserves_bind
      (preserves_underWay_onTarget fun _ _ => Target.preserves_moved_evaluate _ active .complex)
      fun _ => Action.preserves_bind
        (preserves_underWay_onTarget fun _ _ => Action.preserves_read _) fun _ =>
          Action.preserves_bind
            (Action.preserves_modify fun _ ⟨_, hs, hm⟩ => ⟨by simp, hs, hm⟩) fun _ =>
              Action.preserves_pure _

omit [Scalar R] in
/-- Ending a direction under way returns to where it began. -/
theorem view_finish (hT : T.Restoring view) {s : σ} {d : Driven σ} (h : UnderWay T s d) :
    view ((finish T).perform d).2.target = view s := by
  obtain ⟨hp, hs, owner, step, hm⟩ := h
  have hr : (decide (d.engine.phase ≠ .idle)) = true := by simpa using hp
  simp only [finish, require, Action.perform_bind, Action.perform_read, hr, if_true,
    Action.perform_modify, hs]
  exact hT.leave owner step hm

/-- An attempt at a step leaves it under way, also when it fails. -/
theorem underWay_attempt (s : σ) (owner : String) (perturbations : List (Perturbation R))
    (active : ActiveSet) (of : List String)
    (h : ((Action.attempt (start T owner perturbations >>= fun _ => capture T active of) :
      Action (Driven σ) (ApproximationError R) _).perform ⟨idle, s⟩).1.Answers) :
    UnderWay T s ((Action.attempt (start T owner perturbations >>= fun _ =>
      capture T active of) : Action (Driven σ) (ApproximationError R) _).perform ⟨idle, s⟩).2 :=
  Action.inv_attempt (Action.inv_bind (underWay_start owner perturbations) fun _ =>
    preserves_underWay_capture s active of) h

/-- **A complex step returns to its point**, also when the evaluation fails. -/
theorem keeps_runIdle (hT : T.Restoring view) (owner : String)
    (perturbations : List (Perturbation R)) (active : ActiveSet) (of : List String) :
    (runIdle T owner perturbations active of).Keeps view := by
  intro c
  refine Action.preserves_on fun s hs ha => ?_
  have hway := underWay_attempt (T := T) s owner perturbations active of
  have hrun : (run T owner perturbations active of).perform ⟨idle, s⟩ =
      ((Action.attempt (start T owner perturbations >>= fun _ => capture T active of) >>=
        fun captured => finish T >>= fun _ =>
          Action.ofOutcome (.ofExcept captured)).perform ⟨idle, s⟩) := rfl
  rw [hrun, Action.perform_bind] at ha ⊢
  rcases ho : (Action.attempt (start T owner perturbations >>= fun _ =>
    capture T active of)).perform ⟨idle, s⟩ with ⟨f | captured, d⟩
  · cases f with
    | error e => exact absurd (congrArg Prod.fst ho) (Action.attempt_ne_error _ _ _)
    | breach => simp [ho] at ha
  · simp only [ho] at hway ⊢
    have hd : view ((finish T).perform d).2.target = view s :=
      view_finish hT (hway (by simp))
    rw [Action.perform_bind]
    rcases hf : (finish (R := R) T).perform d with ⟨_ | _, u⟩ <;> simpa [hf, hs] using hd

end StepEngine

namespace Scheme

variable {T : Target R σ} {view : σ → γ}

/-- What makes a scheme the one it is: all of it that no computation changes. -/
def identity (s : Scheme R) :
    String × Site R × List (Request R) × Nat × PatternPolicy × R :=
  (s.owner, s.site, s.requests, s.version, s.policy, s.tolerance)

/-- The identity of a scheme at work, with the view of its target. -/
def onSession (view : σ → γ) (w : Session R σ) :
    (String × Site R × List (Request R) × Nat × PatternPolicy × R) × γ :=
  (w.scheme.identity, view w.target)

theorem keeps_modifyScheme {f : Scheme R → Scheme R} (hf : ∀ s, (f s).identity = s.identity) :
    (modifyScheme f : Work R σ Unit).Keeps (onSession view) :=
  fun _ => Action.preserves_modify fun w h => (congrArg (·, view w.target) (hf w.scheme)).trans h

theorem keeps_notice (kind : NoticeKind) (detail : String) :
    (notice kind detail : Work R σ Unit).Keeps (onSession view) :=
  fun _ => Action.preserves_modify fun _ h => h

theorem keeps_onTarget {α : Type} {a : Action σ (ApproximationError R) α} (ha : a.Keeps view) :
    (onTarget a).Keeps (onSession view) :=
  fun _ => Action.preserves_on fun w hw h =>
    (congrArg (w.scheme.identity, ·) (ha _ w.target rfl h)).trans hw

variable [Scalar R]

theorem keeps_takePlan : (takePlan T).Keeps (onSession view) := by
  intro c
  unfold takePlan
  refine Action.preserves_bind Action.preserves_get fun w => ?_
  refine Action.preserves_bind (Action.preserves_ofOutcome _) fun sizes => ?_
  refine Action.preserves_bind (keeps_modifyScheme (fun _ => rfl) c) fun _ => ?_
  dsimp only
  split
  · exact Action.preserves_pure _
  · exact Action.preserves_bind (Action.preserves_ofOutcome _) fun _ =>
      Action.preserves_bind (keeps_modifyScheme (fun _ => rfl) c) fun _ => Action.preserves_pure _

theorem keeps_effective (s : Settings R) : (effective T s).Keeps (onSession view) := by
  intro c
  have hwarn (f : Scheme R → Scheme R) (hf : ∀ s, (f s).identity = s.identity)
      (kind : NoticeKind) (detail : String) :
      (modifyScheme f >>= fun _ => notice kind detail >>= fun _ =>
        (pure (fallback s) : Work R σ (Settings R))).Preserves fun w => onSession view w = c :=
    Action.preserves_bind (keeps_modifyScheme hf c) fun _ =>
      Action.preserves_bind (keeps_notice kind detail c) fun _ => Action.preserves_pure _
  unfold effective
  split
  · exact Action.preserves_pure _
  · refine Action.preserves_bind Action.preserves_get fun w => ?_
    split
    · split
      · exact hwarn (fun s => { s with nestedWarned := true }) (fun _ => rfl) _ _
      · exact Action.preserves_pure _
    · split
      · split
        · exact hwarn (fun s => { s with fallbackWarned := true }) (fun _ => rfl) _ _
        · exact Action.preserves_pure _
      · exact Action.preserves_pure _

theorem keeps_chooseMethods (settings : List (Settings R)) :
    (chooseMethods T settings).Keeps (onSession view) := by
  intro c
  induction settings with
  | nil => exact Action.preserves_pure _
  | cons s rest ih =>
    exact Action.preserves_bind (keeps_effective s c) fun _ =>
      Action.preserves_bind ih fun _ => Action.preserves_pure _

theorem keeps_runDirection (hT : T.Restoring view) (frame : Frame R) (a : Assembler R)
    (d : Direction) (index : Nat) :
    (runDirection T frame a d index).Keeps (onSession view) := by
  intro c
  unfold runDirection
  refine Action.preserves_bind Action.preserves_get fun w => ?_
  refine Action.preserves_bind (Action.preserves_ofOutcome _) fun (settings, stencil) => ?_
  refine Action.preserves_bind (Action.preserves_ofOutcome _) fun perturbations => ?_
  refine Action.preserves_bind (Action.preserves_ofOutcome _) fun active => ?_
  refine Action.preserves_bind (keeps_onTarget ?_ c) fun numerators => ?_
  · cases stencil with
    | some st => exact Stencil.keeps_difference hT st perturbations active _ frame.baseline
    | none => exact StepEngine.keeps_runIdle hT _ perturbations active _
  · exact Action.preserves_bind (Action.preserves_ofOutcome _) fun _ => Action.preserves_pure _

theorem keeps_runDirections (hT : T.Restoring view) (frame : Frame R)
    (ds : List (Direction × Nat)) (a : Assembler R) :
    (runDirections T frame ds a).Keeps (onSession view) := by
  intro c
  induction ds generalizing a with
  | nil => exact Action.preserves_pure _
  | cons di rest ih =>
    exact Action.preserves_bind (keeps_runDirection hT frame a di.1 di.2 c) fun a => ih a

theorem keeps_evaluateRank (hT : T.Restoring view) (c : CachedPlan R) (rank ranks : Nat) :
    (evaluateRank T c rank ranks).Keeps (onSession view) := by
  intro v
  unfold evaluateRank
  refine Action.preserves_bind Action.preserves_get fun w => ?_
  refine Action.preserves_bind (Action.preserves_ofOutcome _) fun a => ?_
  refine Action.preserves_bind (keeps_chooseMethods _ v) fun chosen => ?_
  refine Action.preserves_bind (Action.preserves_ofOutcome _) fun methods => ?_
  refine Action.preserves_bind (Action.preserves_read _) fun (nominal, baseline) => ?_
  exact keeps_runDirections hT _ _ _ v

/-- Evaluating the directions of a rank leaves the view alone. -/
theorem keeps_computePartition (hT : T.Restoring view) (rank ranks : Nat) :
    (computePartition T rank ranks).Keeps (onSession view) := fun v =>
  Action.preserves_bind (keeps_takePlan v) fun c =>
    Action.preserves_bind (Action.preserves_attempt (keeps_evaluateRank hT c rank ranks v))
      fun _ => Action.preserves_bind (keeps_modifyScheme (fun _ => rfl) v) fun _ =>
        Action.preserves_ofOutcome _

theorem keeps_applyPolicy (mismatches : List (Mismatch R)) :
    (applyPolicy mismatches : Work R σ Unit).Keeps (onSession view) := by
  intro c
  induction mismatches with
  | nil => exact Action.preserves_pure _
  | cons m rest ih =>
    unfold applyPolicy
    refine Action.preserves_bind Action.preserves_get fun w => ?_
    dsimp only
    split
    · exact Action.preserves_pure _
    · exact Action.preserves_bind (keeps_notice _ _ c) fun _ => ih
    · exact Action.preserves_bind (Action.preserves_fail _) fun _ => ih

theorem keeps_finish (a : Assembler R) :
    (finish a : Work R σ (Jacobian R)).Keeps (onSession view) := by
  intro c
  unfold finish
  refine Action.preserves_bind (Action.preserves_ofOutcome _) fun (jacobian, mismatches) => ?_
  refine Action.preserves_bind Action.preserves_get fun w => ?_
  refine Action.preserves_bind (keeps_modifyScheme (fun _ => rfl) c) fun _ => ?_
  dsimp only
  split
  · exact Action.preserves_bind (keeps_applyPolicy _ c) fun _ => Action.preserves_pure _
  · exact Action.preserves_pure _

/-- **A computation returns to its point**, whatever fails in it. -/
theorem keeps_computeJacobian (hT : T.Restoring view) :
    (computeJacobian T).Keeps (onSession view) := fun v =>
  Action.preserves_bind (keeps_computePartition hT 0 1 v) fun a => keeps_finish a v

end Scheme

end Sensitivity
