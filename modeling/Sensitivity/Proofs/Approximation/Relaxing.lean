import Sensitivity.Proofs.Approximation.Quotients
import Sensitivity.Proofs.Carrying

/-!
# Schemes that refuse nothing

A scheme that refuses entries outside patterns does so in its first computation, and whatever it
computes without refusing it would compute as well if it took no notice of them
(`Scheme.carries_computeJacobian`).

What a direction measures carries over from one target to another when the operations of the targets do
(`Scheme.carries_measure`).
-/

namespace Sensitivity

variable {R σ τ : Type}

/-- The policy that takes no notice where the given one would refuse. -/
def PatternPolicy.relaxed : PatternPolicy → PatternPolicy
  | .ignore => .ignore
  | .warn => .warn
  | .reject => .ignore

theorem PatternPolicy.relaxed_ne_reject (p : PatternPolicy) : p.relaxed ≠ .reject := by
  cases p <;> decide

/-- A scheme that refuses nothing. -/
def Scheme.relaxed (s : Scheme R) : Scheme R := { s with policy := s.policy.relaxed }

/-- The same work by a scheme that refuses nothing. -/
def Session.relaxed (w : Session R σ) : Session R σ := { w with scheme := w.scheme.relaxed }

/-- A target whose operations carry over to those of another one along a map of their states. -/
structure Target.Carried (f : σ → τ) (T : Target R σ) (T' : Target R τ) : Prop where
  values : ∀ s name part, T'.values (f s) name part = T.values s name part
  perturb : ∀ name index delta, Action.Carries f id (T.perturb name index delta)
    (T'.perturb name index delta)
  evaluate : ∀ active mode, Action.Carries f id (T.evaluate active mode) (T'.evaluate active mode)
  restore : ∀ s t, T'.restore (f s) (f t) = f (T.restore s t)
  enter : ∀ owner h s, T'.enter owner h (f s) = f (T.enter owner h s)
  leave : ∀ s, T'.leave (f s) = f (T.leave s)

theorem Target.Carried.readAll {f : σ → τ} {T : Target R σ} {T' : Target R τ} (h : T.Carried f T')
    (names : List String) (part : Part) :
    Action.Carries f id (T.readAll names part) (T'.readAll names part) :=
  Action.carries_read fun s x hx => by simpa only [h.values, id] using hx

variable [Scalar R]

section Measure

variable {f : σ → τ} {T : Target R σ} {T' : Target R τ} (hT : T.Carried f T')

include hT

namespace Stencil

theorem carries_evaluatePoint (perturbations : List (Perturbation R)) (offset : R)
    (active : ActiveSet) (of : List String) :
    Action.Carries f id (evaluatePoint T perturbations offset active of)
      (evaluatePoint T' perturbations offset active of) :=
  Action.carries_bind (Action.carries_forEach fun p _ => hT.perturb p.name p.index _) fun _ =>
    Action.carries_bind (hT.evaluate active .real) fun _ => hT.readAll of .real

theorem carries_sumPoints (saved : σ) (perturbations : List (Perturbation R)) (active : ActiveSet)
    (of : List String) (points : List (R × R)) (sums : Table String (List R)) :
    Action.Carries f id (sumPoints T saved perturbations active of points sums)
      (sumPoints T' (f saved) perturbations active of points sums) := by
  induction points generalizing sums with
  | nil => exact Action.carries_pure sums
  | cons point rest ih =>
    refine Action.carries_bind (g := id) (fun s x t h => ?_) fun point => ih _
    simp only [Target.thenRestore, Action.perform_of, Prod.mk.injEq] at h ⊢
    obtain ⟨hx, rfl⟩ := h
    rw [carries_evaluatePoint hT perturbations point.1 active of s x _ (Action.perform_eq_ok hx)]
    exact ⟨rfl, hT.restore _ _⟩

theorem carries_difference (st : Stencil R) (perturbations : List (Perturbation R))
    (active : ActiveSet) (of : List String) (baseline : Table String (List R)) :
    Action.Carries f id (st.difference T perturbations active of baseline)
      (st.difference T' perturbations active of baseline) :=
  Action.carries_bind (g := id) (Action.carries_ofOutcome fun _ h => h) fun start =>
    Action.carries_bind Action.carries_get fun saved =>
      Action.carries_bind (g := id) (carries_sumPoints hT saved perturbations active of st.points start)
        fun _ => Action.carries_pure _

end Stencil

namespace StepEngine

omit [Scalar R] hT in
/-- An engine at work on the image of its target. -/
def Driven.image (f : σ → τ) (d : Driven σ) : Driven τ :=
  ⟨⟨d.engine.phase, d.engine.saved.map f⟩, f d.target⟩

omit [Scalar R] hT in
theorem carries_onTarget {α : Type} {a : Action σ (ApproximationError R) α}
    {b : Action τ (ApproximationError R) α} (h : Action.Carries f id a b) :
    Action.Carries (Driven.image f) id (onTarget a) (onTarget b) :=
  Action.carries_on h (fun _ => rfl) fun _ _ => rfl

omit [Scalar R] hT in
theorem carries_require (allowed : Phase → Bool) :
    Action.Carries (Driven.image f) id (require (R := R) allowed) (require allowed) :=
  Action.carries_read fun _ _ h => h

theorem carries_runIdle (owner : String) (perturbations : List (Perturbation R))
    (active : ActiveSet) (of : List String) :
    Action.Carries f id (runIdle T owner perturbations active of)
      (runIdle T' owner perturbations active of) := by
  have hstart : Action.Carries (Driven.image f) id (start T owner perturbations)
      (start T' owner perturbations) :=
    Action.carries_bind (carries_require _) fun _ => Action.carries_bind
      (Action.carries_modify fun d => by simp only [Driven.image, hT.enter, Option.map_some])
        fun _ => Action.carries_forEach fun p _ => carries_onTarget (hT.perturb p.name p.index _)
  have hcapture : Action.Carries (Driven.image f) id (capture T active of)
      (capture T' active of) :=
    Action.carries_bind (carries_require _) fun _ =>
      Action.carries_bind (carries_onTarget (hT.evaluate active .complex)) fun _ =>
        Action.carries_bind (g := id) (carries_onTarget (hT.readAll of .imag)) fun _ =>
          Action.carries_bind (Action.carries_modify fun _ => rfl) fun _ => Action.carries_pure _
  have hfinish : Action.Carries (Driven.image f) id
      (finish T : Action (Driven σ) (ApproximationError R) Unit) (finish T') := by
    refine Action.carries_bind (carries_require _) fun _ => Action.carries_modify fun d => ?_
    obtain ⟨⟨phase, saved⟩, target⟩ := d
    cases saved with
    | none => exact congrArg (Driven.mk idle) (hT.leave target)
    | some s =>
      refine congrArg (Driven.mk idle) ?_
      exact (congrArg T'.leave (hT.restore s target)).trans (hT.leave _)
  refine Action.carries_on (k := Driven.image f) ?_ (fun _ => rfl) fun _ _ => rfl
  refine Action.carries_attempt_bind (Action.carries_bind hstart fun _ => hcapture)
    (fun e s y t h => ?_) fun x => Action.carries_bind hfinish fun _ =>
      Action.carries_ofOutcome fun _ h => h
  obtain ⟨_, _, -, h⟩ := Action.bind_eq_ok.1 h
  cases h

end StepEngine

namespace Scheme

/-- **What a direction measures** carries over. -/
theorem carries_measure (active : ActiveSet) (owner : String) (stencil : Option (Stencil R))
    (perturbations : List (Perturbation R)) (of : List String) (baseline : Table String (List R)) :
    Action.Carries f id (measure (T.focus active) owner stencil perturbations of baseline)
      (measure (T'.focus active) owner stencil perturbations of baseline) := by
  have hfocus : (T.focus active).Carried f (T'.focus active) :=
    { hT with evaluate := fun _ mode => hT.evaluate active mode }
  cases stencil with
  | some st => exact Stencil.carries_difference hfocus st perturbations .all of baseline
  | none => exact StepEngine.carries_runIdle hfocus owner perturbations .all of

end Scheme

end Measure

namespace Scheme

section Relaxed

variable {σ : Type} {T : Target R σ}

omit [Scalar R] in
theorem carries_modifyScheme {g : Scheme R → Scheme R} (hg : ∀ s, g s.relaxed = (g s).relaxed) :
    Action.Carries Session.relaxed id (modifyScheme g : Work R σ Unit) (modifyScheme g) :=
  Action.carries_modify fun w => by simp only [Session.relaxed, hg]

omit [Scalar R] in
theorem carries_notice (kind : NoticeKind) (detail : String) :
    Action.Carries Session.relaxed id (notice kind detail : Work R σ Unit) (notice kind detail) :=
  Action.carries_modify fun _ => rfl

omit [Scalar R] in
theorem carries_onTarget {α : Type} (a : Action σ (ApproximationError R) α) :
    Action.Carries Session.relaxed id (onTarget a) (onTarget a) :=
  Action.carries_on (Action.carries_refl a) (fun _ => rfl) fun _ _ => rfl

theorem carries_takePlan : Action.Carries Session.relaxed id (takePlan T) (takePlan T) := by
  refine Action.carries_bind Action.carries_get fun w => ?_
  refine Action.carries_bind (g := id) (Action.carries_ofOutcome fun _ h => h) fun sizes => ?_
  refine Action.carries_bind (carries_modifyScheme fun _ => rfl) fun _ => ?_
  -- a kept plan fits a scheme with another policy when it fits the scheme
  have hfitting : (w.relaxed.scheme.cache.filter fun c =>
      c.version = w.relaxed.scheme.version && c.sizes.sameEntries (id sizes)) =
        w.scheme.cache.filter fun c => c.version = w.scheme.version && c.sizes.sameEntries sizes := rfl
  dsimp only
  rw [hfitting]
  generalize w.scheme.cache.filter _ = fitting
  cases fitting with
  | none => exact Action.carries_bind (g := id) (Action.carries_ofOutcome fun _ h => h) fun c =>
      Action.carries_bind (carries_modifyScheme fun _ => rfl) fun _ => Action.carries_pure c
  | some c => exact Action.carries_pure c

theorem carries_effective (s : Settings R) :
    Action.Carries Session.relaxed id (effective T s) (effective T s) := by
  unfold effective
  split
  · exact Action.carries_pure _
  refine Action.carries_bind Action.carries_get fun w => ?_
  dsimp only [Session.relaxed, relaxed]
  split
  · split
    · exact Action.carries_bind (carries_modifyScheme fun _ => rfl) fun _ =>
        Action.carries_bind (carries_notice _ _) fun _ => Action.carries_pure _
    · exact Action.carries_pure _
  split
  · split
    · exact Action.carries_bind (carries_modifyScheme fun _ => rfl) fun _ =>
        Action.carries_bind (carries_notice _ _) fun _ => Action.carries_pure _
    · exact Action.carries_pure _
  · exact Action.carries_pure _

theorem carries_chooseMethods (settings : List (Settings R)) :
    Action.Carries Session.relaxed id (chooseMethods T settings) (chooseMethods T settings) := by
  induction settings with
  | nil => exact Action.carries_pure _
  | cons s rest ih =>
    exact Action.carries_bind (carries_effective s) fun _ =>
      Action.carries_bind ih fun _ => Action.carries_pure _

theorem carries_runDirections (frame : Frame R) (ds : List (Direction × Nat)) (a : Assembler R) :
    Action.Carries Session.relaxed id (runDirections T frame ds a) (runDirections T frame ds a) := by
  induction ds generalizing a with
  | nil => exact Action.carries_pure _
  | cons d rest ih =>
    refine Action.carries_bind (g := id) ?_ fun a => ih a
    refine Action.carries_bind Action.carries_get fun w => ?_
    refine Action.carries_bind (g := id) (Action.carries_ofOutcome fun _ h => h) fun method => ?_
    refine Action.carries_bind (g := id) (Action.carries_ofOutcome fun _ h => h)
      fun perturbations => ?_
    refine Action.carries_bind (g := id) (Action.carries_ofOutcome fun _ h => h) fun active => ?_
    refine Action.carries_bind (carries_onTarget _) fun numerators => ?_
    exact Action.carries_bind (g := id) (Action.carries_ofOutcome fun _ h => h) fun _ =>
      Action.carries_pure _

theorem carries_evaluateRank (c : CachedPlan R) (rank ranks : Nat) :
    Action.Carries Session.relaxed id (evaluateRank T c rank ranks) (evaluateRank T c rank ranks) := by
  refine Action.carries_bind Action.carries_get fun w => ?_
  refine Action.carries_bind (g := id) (Action.carries_ofOutcome fun _ h => h) fun a => ?_
  refine Action.carries_bind (carries_chooseMethods _) fun chosen => ?_
  refine Action.carries_bind (g := id) (Action.carries_ofOutcome fun _ h => h) fun methods => ?_
  exact Action.carries_bind (g := id) (Action.carries_read fun _ _ h => h) fun values =>
    carries_runDirections _ _ _

theorem carries_computePartition (rank ranks : Nat) :
    Action.Carries Session.relaxed id (computePartition T rank ranks)
      (computePartition T rank ranks) := by
  refine Action.carries_bind carries_takePlan fun c => ?_
  refine Action.carries_attempt_bind (carries_evaluateRank c rank ranks) (fun e s y t h => ?_)
    fun a => Action.carries_bind (carries_modifyScheme fun _ => rfl) fun _ =>
      Action.carries_ofOutcome fun _ h => h
  obtain ⟨_, _, -, h⟩ := Action.bind_eq_ok.1 h
  cases h

/-- What a scheme does not refuse is not refused by one that refuses nothing. -/
theorem carries_applyPolicy (mismatches : List (Mismatch R)) :
    Action.Carries Session.relaxed id (applyPolicy mismatches : Work R σ Unit)
      (applyPolicy mismatches) := by
  induction mismatches with
  | nil => exact Action.carries_pure _
  | cons m rest ih =>
    refine Action.carries_bind Action.carries_get fun w => ?_
    cases hpolicy : w.scheme.policy with
    | ignore =>
      simp only [Session.relaxed, relaxed, hpolicy, PatternPolicy.relaxed]
      exact Action.carries_pure _
    | warn =>
      simp only [Session.relaxed, relaxed, hpolicy, PatternPolicy.relaxed]
      exact Action.carries_bind (carries_notice _ _) fun _ => ih
    | reject =>
      intro s x t h
      simp only [hpolicy] at h
      cases h

theorem carries_finish (a : Assembler R) :
    Action.Carries Session.relaxed id (finish a : Work R σ (Jacobian R)) (finish a) := by
  refine Action.carries_bind (g := id) (Action.carries_ofOutcome fun _ h => h) fun found => ?_
  refine Action.carries_bind Action.carries_get fun w => ?_
  refine Action.carries_bind (carries_modifyScheme fun _ => rfl) fun _ => ?_
  dsimp only [id]
  by_cases hfirst : w.scheme.computations = 0
  · rw [if_pos hfirst, if_pos (show w.relaxed.scheme.computations = 0 from hfirst)]
    exact Action.carries_bind (carries_applyPolicy _) fun _ => Action.carries_pure _
  · rw [if_neg hfirst, if_neg (show w.relaxed.scheme.computations ≠ 0 from hfirst)]
    exact Action.carries_pure _

/-- **A scheme that refuses nothing computes whatever a scheme computes without refusing it.** -/
theorem carries_computeJacobian :
    Action.Carries Session.relaxed id (computeJacobian T) (computeJacobian T) :=
  Action.carries_bind (carries_computePartition 0 1) carries_finish

end Relaxed

end Scheme

end Sensitivity
