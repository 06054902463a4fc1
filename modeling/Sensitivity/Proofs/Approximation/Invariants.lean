import Sensitivity.Approximation.Scheme
import Sensitivity.Proofs.Breach

/-!
# Invariants of a target

A property of the state of a target is an invariant when no operation of the target ends it
(`Target.Invariant`). Approximating then does not end it either, whatever fails on the way
(`Scheme.preserves_computeJacobian`): a finite difference, a complex step and a whole computation of a
scheme do nothing to the target but by its operations.

Unlike a view that a restore brings back, an invariant is about what a restore leaves as it is, such
as what the evaluated scope keeps for later.

More generally one property may hold out of complex steps and another one within them, and what a
breach leaves may be said apart (`Target.Sustained`). A scheme at work takes complex steps one after
another, each of them out of the others, so it sustains the first property too
(`Scheme.sustains_computeJacobian`).
-/

namespace Sensitivity

variable {R σ : Type}

/-- A property of states that no operation of a target ends. -/
structure Target.Invariant (T : Target R σ) (P : σ → Prop) : Prop where
  perturb : ∀ name index delta, (T.perturb name index delta).Preserves P
  evaluate : ∀ active mode, (T.evaluate active mode).Preserves P
  restore : ∀ saved {s}, P s → P (T.restore saved s)
  enter : ∀ owner h {s}, P s → P (T.enter owner h s)
  leave : ∀ {s}, P s → P (T.leave s)

/-- A property `P` of states that real operations of a target do not end, a property `S` that takes
its place within a complex step, and a property `Q` of what a breach leaves. -/
structure Target.Sustained (T : Target R σ) (P S Q : σ → Prop) : Prop where
  perturb : ∀ name index h, (T.perturb name index (.real h)).Sustains P Q
  evaluate : ∀ active, (T.evaluate active .real).Sustains P Q
  restore : ∀ saved {s}, P s → P (T.restore saved s)
  enter : ∀ owner h {s}, P s → S (T.enter owner h s)
  perturbStep : ∀ name index h, (T.perturb name index (.imag h)).Sustains S Q
  evaluateStep : ∀ active, (T.evaluate active .complex).Sustains S Q
  restoreStep : ∀ saved {s}, S s → S (T.restore saved s)
  leave : ∀ {s}, S s → P (T.leave s)
  breach : ∀ {s}, S s → Q s
  restoreBreach : ∀ saved {s}, Q s → Q (T.restore saved s)

/-- An invariant is sustained out of complex steps and within them. -/
theorem Target.Invariant.sustained {T : Target R σ} {P : σ → Prop} (hT : T.Invariant P) :
    T.Sustained P P fun _ => True where
  perturb name index _ := (hT.perturb name index _).sustains
  evaluate active := (hT.evaluate active .real).sustains
  restore := hT.restore
  enter := hT.enter
  perturbStep name index _ := (hT.perturb name index _).sustains
  evaluateStep active := (hT.evaluate active .complex).sustains
  restoreStep := hT.restore
  leave := hT.leave
  breach _ := trivial
  restoreBreach _ _ _ := trivial

variable [Scalar R] {T : Target R σ} {P S Q : σ → Prop}

namespace Stencil

theorem sustains_evaluatePoint (hT : T.Sustained P S Q) (perturbations : List (Perturbation R))
    (offset : R) (active : ActiveSet) (of : List String) :
    (evaluatePoint T perturbations offset active of).Sustains P Q :=
  Action.sustains_bind (Action.sustains_forEach fun p => hT.perturb p.name p.index _) fun _ =>
    Action.sustains_bind (hT.evaluate active) fun _ => Action.sustains_read _

theorem sustains_difference (hT : T.Sustained P S Q) (st : Stencil R)
    (perturbations : List (Perturbation R)) (active : ActiveSet) (of : List String)
    (baseline : Table String (List R)) :
    (st.difference T perturbations active of baseline).Sustains P Q := by
  have hsum (saved : σ) (points : List (R × R)) (sums : Table String (List R)) :
      (sumPoints T saved perturbations active of points sums).Sustains P Q := by
    induction points generalizing sums with
    | nil => exact Action.sustains_pure sums
    | cons point rest ih =>
      refine Action.sustains_bind (fun s hs => ?_) fun _ => ih _
      exact (sustains_evaluatePoint hT perturbations point.1 active of s hs).imp (hT.restore saved)
        fun hbreach => ⟨hbreach.1, hT.restoreBreach saved hbreach.2⟩
  exact Action.sustains_bind (Action.sustains_ofOutcome _) fun start =>
    Action.sustains_bind Action.sustains_get fun saved =>
      Action.sustains_bind (hsum saved st.points start) fun _ => Action.sustains_pure _

end Stencil

namespace StepEngine

omit [Scalar R] in
/-- Work on the target alone leaves what it leaves there. -/
theorem sustains_onTarget {α : Type} {a : Action σ (ApproximationError R) α} {P Q : σ → Prop}
    (ha : a.Sustains P Q) : (onTarget a).Sustains (fun d => P d.target) fun d => Q d.target :=
  Action.sustains_on ha (fun _ h => h) (fun _ _ _ h => h) fun _ _ _ h => h

/-- Beginning leads into a complex step, and reading goes on within it. -/
theorem ends_start_capture (hT : T.Sustained P S Q) (owner : String)
    (perturbations : List (Perturbation R)) (active : ActiveSet) (of : List String) {s : σ}
    (hs : P s) : Action.Ends (fun d => S d.target) (fun d => Q d.target)
      ((start T owner perturbations >>= fun _ => capture T active of).perform ⟨idle, s⟩) := by
  let step := Scalar.maximum (perturbations.map Perturbation.step)
  let entered : Driven σ := ⟨⟨.perturbed, some s⟩, T.enter owner step s⟩
  have hwork : ((Action.forEach perturbations fun p =>
      onTarget (T.perturb p.name p.index (.imag p.step))) >>= fun _ =>
        capture T active of).Sustains (fun d => S d.target) fun d => Q d.target := by
    refine Action.sustains_bind (Action.sustains_forEach fun p =>
      sustains_onTarget (hT.perturbStep p.name p.index _)) fun _ => ?_
    refine Action.sustains_bind (Action.sustains_read _) fun _ => ?_
    refine Action.sustains_bind (sustains_onTarget (hT.evaluateStep active)) fun _ => ?_
    refine Action.sustains_bind (sustains_onTarget (Action.sustains_read _)) fun _ => ?_
    exact Action.sustains_bind (Action.sustains_modify fun _ h => h) fun _ => Action.sustains_pure _
  exact hwork entered (hT.enter owner step hs)

omit [Scalar R] in
/-- Ending a direction leads out of its complex step. -/
theorem ends_finish (hT : T.Sustained P S Q) {d : Driven σ} (hd : S d.target) :
    Action.Ends (fun d => P d.target) (fun d => Q d.target)
      ((finish T : Action (Driven σ) (ApproximationError R) Unit).perform d) := by
  by_cases hidle : d.engine.phase = .idle
  · have hbreach : ((finish T : Action (Driven σ) (ApproximationError R) Unit).perform d) =
        (.error .breach, d) := by
      simp [finish, require, Action.perform_bind, hidle, Outcome.breach]
    rw [hbreach]
    exact .inr ⟨rfl, hT.breach hd⟩
  · simp only [finish, require, Action.perform_bind, Action.perform_read, Action.perform_modify,
      ne_eq, hidle, not_false_eq_true, decide_true, if_true]
    refine .inl ?_
    dsimp only
    split
    · exact hT.leave (hT.restoreStep _ hd)
    · exact hT.leave hd

/-- **A complex step** leads back out of itself, unless it is broken off. -/
theorem sustains_runIdle (hT : T.Sustained P S Q) (owner : String)
    (perturbations : List (Perturbation R)) (active : ActiveSet) (of : List String) :
    (runIdle T owner perturbations active of).Sustains P Q := by
  intro s hs
  have hattempt : Action.Ends (fun d => S d.target) (fun d => Q d.target)
      ((Action.attempt (start T owner perturbations >>= fun _ => capture T active of) :
        Action (Driven σ) (ApproximationError R) _).perform ⟨idle, s⟩) :=
    Action.ends_attempt (ends_start_capture hT owner perturbations active of hs)
  suffices hrun : Action.Ends (fun d => P d.target) (fun d => Q d.target)
      ((run T owner perturbations active of).perform ⟨idle, s⟩) from hrun
  unfold run
  rw [Action.perform_bind]
  rcases ho : (Action.attempt (start T owner perturbations >>= fun _ =>
    capture T active of)).perform ⟨idle, s⟩ with ⟨f | captured, d⟩
  · cases f with
    | error e => exact absurd (congrArg Prod.fst ho) (Action.attempt_ne_error _ _ _)
    | breach =>
      rw [ho] at hattempt
      exact .inr ⟨rfl, hattempt.of_imp fun _ h => hT.breach h⟩
  · rw [ho] at hattempt
    exact Action.ends_bind (ends_finish hT (hattempt.of_answers (Outcome.answers_ok _)))
      fun _ t _ ht => Action.sustains_ofOutcome _ t ht

end StepEngine

namespace Scheme

/-- Properties of sessions that evaluating directions sustains: warnings do not end them, and
neither do finite differences and complex steps. -/
structure Borne (T : Target R σ) (P Q : Session R σ → Prop) : Prop where
  warned : ∀ {w} nested fallback, P w →
    P { w with scheme := { w.scheme with nestedWarned := nested, fallbackWarned := fallback } }
  noticed : ∀ {w} d, P w → P { w with diagnostics := d }
  difference : ∀ (st : Stencil R) perturbations active of baseline,
    (onTarget (st.difference T perturbations active of baseline)).Sustains P Q
  step : ∀ owner perturbations active of,
    (onTarget (StepEngine.runIdle T owner perturbations active of)).Sustains P Q

section Borne

variable {P Q : Session R σ → Prop} (h : Borne T P Q)

include h

theorem Borne.effective (s : Settings R) : (Scheme.effective T s).Sustains P Q := by
  have hnotice (kind : NoticeKind) (detail : String) :
      (notice kind detail >>= fun _ => (pure (fallback s) : Work R σ (Settings R))).Sustains P Q :=
    Action.sustains_bind (Action.sustains_modify fun _ => h.noticed _) fun _ =>
      Action.sustains_pure _
  unfold Scheme.effective
  split
  · exact Action.sustains_pure _
  · refine Action.sustains_bind Action.sustains_get fun w => ?_
    split
    · split
      · exact Action.sustains_bind
          (Action.sustains_modify fun v => h.warned true v.scheme.fallbackWarned) fun _ =>
            hnotice _ _
      · exact Action.sustains_pure _
    · split
      · split
        · exact Action.sustains_bind
            (Action.sustains_modify fun v => h.warned v.scheme.nestedWarned true) fun _ =>
              hnotice _ _
        · exact Action.sustains_pure _
      · exact Action.sustains_pure _

theorem Borne.chooseMethods (settings : List (Settings R)) :
    (Scheme.chooseMethods T settings).Sustains P Q := by
  induction settings with
  | nil => exact Action.sustains_pure _
  | cons s rest ih =>
    exact Action.sustains_bind (h.effective s) fun _ =>
      Action.sustains_bind ih fun _ => Action.sustains_pure _

theorem Borne.runDirection (frame : Frame R) (a : Assembler R) (d : Direction) (index : Nat) :
    (Scheme.runDirection T frame a d index).Sustains P Q := by
  unfold Scheme.runDirection
  refine Action.sustains_bind Action.sustains_get fun w => ?_
  refine Action.sustains_bind (Action.sustains_ofOutcome _) fun (settings, stencil) => ?_
  refine Action.sustains_bind (Action.sustains_ofOutcome _) fun perturbations => ?_
  refine Action.sustains_bind (Action.sustains_ofOutcome _) fun active => ?_
  refine Action.sustains_bind ?_ fun numerators => ?_
  · cases stencil with
    | some st => exact h.difference st perturbations active _ frame.baseline
    | none => exact h.step _ perturbations active _
  · exact Action.sustains_bind (Action.sustains_ofOutcome _) fun _ => Action.sustains_pure _

theorem Borne.runDirections (frame : Frame R) (ds : List (Direction × Nat)) (a : Assembler R) :
    (Scheme.runDirections T frame ds a).Sustains P Q := by
  induction ds generalizing a with
  | nil => exact Action.sustains_pure _
  | cons di rest ih =>
    exact Action.sustains_bind (h.runDirection frame a di.1 di.2) fun a => ih a

/-- **Evaluating the directions of a rank** sustains what each evaluation does. -/
theorem Borne.evaluateRank (c : CachedPlan R) (rank ranks : Nat) :
    (Scheme.evaluateRank T c rank ranks).Sustains P Q := by
  unfold Scheme.evaluateRank
  refine Action.sustains_bind Action.sustains_get fun w => ?_
  refine Action.sustains_bind (Action.sustains_ofOutcome _) fun a => ?_
  refine Action.sustains_bind (h.chooseMethods _) fun chosen => ?_
  refine Action.sustains_bind (Action.sustains_ofOutcome _) fun methods => ?_
  refine Action.sustains_bind (Action.sustains_read _) fun (nominal, baseline) => ?_
  exact h.runDirections _ _ _

end Borne

/-- What is sustained on the target is sustained at work. -/
theorem borne_target (hT : T.Sustained P S Q) :
    Borne T (fun w => P w.target) fun w => Q w.target where
  warned _ _ hw := hw
  noticed _ hw := hw
  difference st perturbations active of baseline :=
    Action.sustains_on (Stencil.sustains_difference hT st perturbations active of baseline)
      (fun _ h => h) (fun _ _ _ h => h) fun _ _ _ h => h
  step owner perturbations active of :=
    Action.sustains_on (StepEngine.sustains_runIdle hT owner perturbations active of)
      (fun _ h => h) (fun _ _ _ h => h) fun _ _ _ h => h

/-- Finishing leaves the target alone, and of the scheme all but what it notes there. -/
theorem sustains_finish {P Q : Session R σ → Prop}
    (hnoted : ∀ {w} computations mismatches, P w → P { w with
      scheme := { w.scheme with computations := computations, mismatches := mismatches } })
    (hnoticed : ∀ {w} d, P w → P { w with diagnostics := d }) (a : Assembler R) :
    (finish a : Work R σ (Jacobian R)).Sustains P Q := by
  have hpolicy (mismatches : List (Mismatch R)) :
      (applyPolicy mismatches : Work R σ Unit).Sustains P Q := by
    induction mismatches with
    | nil => exact Action.sustains_pure _
    | cons m rest ih =>
      unfold applyPolicy
      refine Action.sustains_bind Action.sustains_get fun w => ?_
      dsimp only
      split
      · exact Action.sustains_pure _
      · exact Action.sustains_bind (Action.sustains_modify fun _ => hnoticed _) fun _ => ih
      · exact Action.sustains_bind (Action.sustains_fail _) fun _ => ih
  unfold finish
  refine Action.sustains_bind (Action.sustains_ofOutcome _) fun (jacobian, mismatches) => ?_
  refine Action.sustains_bind Action.sustains_get fun w => ?_
  refine Action.sustains_bind (Action.sustains_modify fun v => hnoted _ _) fun _ => ?_
  dsimp only
  split
  · exact Action.sustains_bind (hpolicy _) fun _ => Action.sustains_pure _
  · exact Action.sustains_pure _

omit [Scalar R] in
/-- Changing the scheme leaves the target alone. -/
theorem sustains_target_modifyScheme (f : Scheme R → Scheme R) :
    (modifyScheme f : Work R σ Unit).Sustains (fun w => P w.target) fun w => Q w.target :=
  Action.sustains_modify fun _ h => h

/-- Taking a plan leaves the target alone. -/
theorem sustains_target_takePlan :
    (takePlan T).Sustains (fun w => P w.target) fun w => Q w.target := by
  unfold takePlan
  refine Action.sustains_bind Action.sustains_get fun w => ?_
  refine Action.sustains_bind (Action.sustains_ofOutcome _) fun sizes => ?_
  refine Action.sustains_bind (sustains_target_modifyScheme _) fun _ => ?_
  dsimp only
  split
  · exact Action.sustains_pure _
  · exact Action.sustains_bind (Action.sustains_ofOutcome _) fun c =>
      Action.sustains_bind (sustains_target_modifyScheme _) fun _ => Action.sustains_pure _

/-- **A computation sustains what each operation of its target does.** -/
theorem sustains_computeJacobian (hT : T.Sustained P S Q) :
    (computeJacobian T).Sustains (fun w => P w.target) fun w => Q w.target := by
  have hpartition : (computePartition T 0 1).Sustains (fun w => P w.target) fun w => Q w.target :=
    Action.sustains_bind sustains_target_takePlan fun c => Action.sustains_bind
      (Action.sustains_attempt ((borne_target hT).evaluateRank c 0 1)) fun _ =>
        Action.sustains_bind (sustains_target_modifyScheme _) fun _ => Action.sustains_ofOutcome _
  exact Action.sustains_bind hpartition fun a =>
    sustains_finish (fun _ _ h => h) (fun _ h => h) a

/-- **A computation does not end an invariant of its target**, whatever fails in it. -/
theorem preserves_computeJacobian (hT : T.Invariant P) :
    (computeJacobian T).Preserves fun w => P w.target :=
  (sustains_computeJacobian hT.sustained).preserves

end Scheme

end Sensitivity
