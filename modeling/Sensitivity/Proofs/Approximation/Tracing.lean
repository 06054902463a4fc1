import Sensitivity.Proofs.Approximation.Relaxing
import Sensitivity.Proofs.Mirroring

/-!
# Computations that note their evaluations

`Target.traced` is a target that notes every evaluation it makes: which entries were perturbed, which
components were to run, in which arithmetic, and how it failed if it did (`Evaluation`). It differs
from the target by its notes alone: forgetting them is a map of states along which the operations of
the traced target are mirrored (`Target.mirrored_traced`), and then so is a whole computation
(`Scheme.mirrors_computeJacobian`). What is noted of a traced computation is therefore true of the one
without notes.
-/

namespace Sensitivity

variable {R σ τ : Type}

/-- A target whose operations are mirrored by those of another one along a map of their states. -/
structure Target.Mirrored (f : σ → τ) (T : Target R σ) (U : Target R τ) : Prop where
  size : ∀ s, U.size (f s) = T.size s
  values : ∀ s name part, U.values (f s) name part = T.values s name part
  perturb : ∀ name index delta, Action.Mirrors f (T.perturb name index delta)
    (U.perturb name index delta)
  evaluate : ∀ active mode, Action.Mirrors f (T.evaluate active mode) (U.evaluate active mode)
  restore : ∀ s t, U.restore (f s) (f t) = f (T.restore s t)
  complexCapable : ∀ s, U.complexCapable (f s) = T.complexCapable s
  complexStepActive : ∀ s, U.complexStepActive (f s) = T.complexStepActive s
  enter : ∀ owner h s, U.enter owner h (f s) = f (T.enter owner h s)
  leave : ∀ s, U.leave (f s) = f (T.leave s)
  graph : ∀ s, U.graph (f s) = T.graph s

/-- A scheme at work on the image of its target. -/
def Session.image (f : σ → τ) (w : Session R σ) : Session R τ :=
  ⟨w.scheme, w.diagnostics, f w.target⟩

section Mirrored

variable {f : σ → τ} {T : Target R σ} {U : Target R τ} (hT : T.Mirrored f U)

include hT

theorem Target.Mirrored.readAll (names : List String) (part : Part) :
    Action.Mirrors f (T.readAll names part) (U.readAll names part) :=
  Action.mirrors_read fun s => by simp only [hT.values]

variable [Scalar R]

namespace Stencil

theorem mirrors_sumPoints (saved : σ) (perturbations : List (Perturbation R)) (active : ActiveSet)
    (of : List String) (points : List (R × R)) (sums : Table String (List R)) :
    Action.Mirrors f (sumPoints T saved perturbations active of points sums)
      (sumPoints U (f saved) perturbations active of points sums) := by
  induction points generalizing sums with
  | nil => exact Action.mirrors_pure sums
  | cons point rest ih =>
    have hpoint : Action.Mirrors f (evaluatePoint T perturbations point.1 active of)
        (evaluatePoint U perturbations point.1 active of) :=
      Action.mirrors_bind (Action.mirrors_forEach fun p => hT.perturb p.name p.index _) fun _ =>
        Action.mirrors_bind (hT.evaluate active .real) fun _ => hT.readAll of .real
    refine Action.mirrors_bind (fun s => ?_) fun point => ih _
    simp only [Target.thenRestore, Action.perform_of, hpoint s, hT.restore]

theorem mirrors_difference (st : Stencil R) (perturbations : List (Perturbation R))
    (active : ActiveSet) (of : List String) (baseline : Table String (List R)) :
    Action.Mirrors f (st.difference T perturbations active of baseline)
      (st.difference U perturbations active of baseline) :=
  Action.mirrors_bind (Action.mirrors_ofOutcome _) fun start =>
    Action.mirrors_get_bind fun saved => Action.mirrors_bind
      (mirrors_sumPoints hT saved perturbations active of st.points start) fun _ =>
        Action.mirrors_pure _

end Stencil

namespace StepEngine

omit [Scalar R] hT in
theorem mirrors_onTarget {α : Type} {a : Action σ (ApproximationError R) α}
    {b : Action τ (ApproximationError R) α} (h : Action.Mirrors f a b) :
    Action.Mirrors (Driven.image f) (onTarget a) (onTarget b) :=
  Action.mirrors_on h (fun _ => rfl) fun _ _ => rfl

theorem mirrors_runIdle (owner : String) (perturbations : List (Perturbation R))
    (active : ActiveSet) (of : List String) :
    Action.Mirrors f (runIdle T owner perturbations active of)
      (runIdle U owner perturbations active of) := by
  have hrequire (allowed : Phase → Bool) :
      Action.Mirrors (Driven.image f) (require (R := R) allowed) (require allowed) :=
    Action.mirrors_read fun _ => rfl
  have hstart : Action.Mirrors (Driven.image f) (start T owner perturbations)
      (start U owner perturbations) :=
    Action.mirrors_bind (hrequire _) fun _ => Action.mirrors_bind
      (Action.mirrors_modify fun d => by simp only [Driven.image, hT.enter, Option.map_some])
        fun _ => Action.mirrors_forEach fun p => mirrors_onTarget (hT.perturb p.name p.index _)
  have hcapture : Action.Mirrors (Driven.image f) (capture T active of) (capture U active of) :=
    Action.mirrors_bind (hrequire _) fun _ =>
      Action.mirrors_bind (mirrors_onTarget (hT.evaluate active .complex)) fun _ =>
        Action.mirrors_bind (mirrors_onTarget (hT.readAll of .imag)) fun _ =>
          Action.mirrors_bind (Action.mirrors_modify fun _ => rfl) fun _ => Action.mirrors_pure _
  have hfinish : Action.Mirrors (Driven.image f)
      (finish T : Action (Driven σ) (ApproximationError R) Unit) (finish U) := by
    refine Action.mirrors_bind (hrequire _) fun _ => Action.mirrors_modify fun d => ?_
    obtain ⟨⟨phase, saved⟩, target⟩ := d
    cases saved with
    | none => exact congrArg (Driven.mk idle) (hT.leave target)
    | some s =>
      exact congrArg (Driven.mk idle) ((congrArg U.leave (hT.restore s target)).trans (hT.leave _))
  refine Action.mirrors_on (k := Driven.image f) ?_ (fun _ => rfl) fun _ _ => rfl
  exact Action.mirrors_bind (Action.mirrors_attempt (Action.mirrors_bind hstart fun _ => hcapture))
    fun _ => Action.mirrors_bind hfinish fun _ => Action.mirrors_ofOutcome _

end StepEngine

namespace Scheme

omit [Scalar R] hT in
theorem mirrors_modifyScheme (g : Scheme R → Scheme R) :
    Action.Mirrors (Session.image f) (modifyScheme g) (modifyScheme g) :=
  Action.mirrors_modify fun _ => rfl

omit [Scalar R] hT in
theorem mirrors_notice (kind : NoticeKind) (detail : String) :
    Action.Mirrors (Session.image f) (notice kind detail : Work R σ Unit) (notice kind detail) :=
  Action.mirrors_modify fun _ => rfl

omit [Scalar R] hT in
theorem mirrors_onTarget {α : Type} {a : Action σ (ApproximationError R) α}
    {b : Action τ (ApproximationError R) α} (h : Action.Mirrors f a b) :
    Action.Mirrors (Session.image f) (onTarget a) (onTarget b) :=
  Action.mirrors_on h (fun _ => rfl) fun _ _ => rfl

theorem mirrors_takePlan : Action.Mirrors (Session.image f) (takePlan T) (takePlan U) := by
  refine Action.mirrors_get_bind fun w => ?_
  have hsizes : (w.image f).scheme.sizes U (w.image f).target = w.scheme.sizes T w.target := by
    simp only [Session.image, sizes, hT.size]
  have hplan (sizes : Sizes) : (w.image f).scheme.makePlan U (w.image f).target sizes =
      w.scheme.makePlan T w.target sizes := by
    simp only [Session.image, makePlan, hT.graph]
  rw [hsizes]
  refine Action.mirrors_bind (Action.mirrors_ofOutcome _) fun sizes => ?_
  refine Action.mirrors_bind (mirrors_modifyScheme _) fun _ => ?_
  have hfitting : ((w.image f).scheme.cache.filter fun c =>
      c.version = (w.image f).scheme.version && c.sizes.sameEntries sizes) =
        w.scheme.cache.filter fun c => c.version = w.scheme.version && c.sizes.sameEntries sizes := rfl
  dsimp only
  rw [hfitting, hplan]
  generalize w.scheme.cache.filter _ = fitting
  cases fitting with
  | some c => exact Action.mirrors_pure c
  | none => exact Action.mirrors_bind (Action.mirrors_ofOutcome _) fun c =>
      Action.mirrors_bind (mirrors_modifyScheme _) fun _ => Action.mirrors_pure c

theorem mirrors_effective (s : Settings R) :
    Action.Mirrors (Session.image f) (effective T s) (effective U s) := by
  have hnotice (g : Scheme R → Scheme R) (kind : NoticeKind) (detail : String) :
      Action.Mirrors (Session.image f)
        (modifyScheme g >>= fun _ => notice kind detail >>= fun _ =>
          (pure (fallback s) : Work R σ (Settings R)))
        (modifyScheme g >>= fun _ => notice kind detail >>= fun _ => pure (fallback s)) :=
    Action.mirrors_bind (mirrors_modifyScheme g) fun _ =>
      Action.mirrors_bind (mirrors_notice kind detail) fun _ => Action.mirrors_pure _
  unfold effective
  split
  · exact Action.mirrors_pure s
  refine Action.mirrors_get_bind fun w => ?_
  dsimp only [Session.image]
  rw [hT.complexStepActive, hT.complexCapable]
  split
  · split
    · exact hnotice _ _ _
    · exact Action.mirrors_pure _
  · split
    · split
      · exact hnotice _ _ _
      · exact Action.mirrors_pure _
    · exact Action.mirrors_pure s

theorem mirrors_chooseMethods (settings : List (Settings R)) :
    Action.Mirrors (Session.image f) (chooseMethods T settings) (chooseMethods U settings) := by
  induction settings with
  | nil => exact Action.mirrors_pure _
  | cons s rest ih =>
    exact Action.mirrors_bind (mirrors_effective hT s) fun _ =>
      Action.mirrors_bind ih fun _ => Action.mirrors_pure _

theorem mirrors_runDirections (frame : Frame R) (ds : List (Direction × Nat)) (a : Assembler R) :
    Action.Mirrors (Session.image f) (runDirections T frame ds a) (runDirections U frame ds a) := by
  induction ds generalizing a with
  | nil => exact Action.mirrors_pure a
  | cons d rest ih =>
    refine Action.mirrors_bind ?_ fun a => ih a
    refine Action.mirrors_get_bind fun w => ?_
    refine Action.mirrors_bind (Action.mirrors_ofOutcome _) fun (settings, stencil) => ?_
    refine Action.mirrors_bind (Action.mirrors_ofOutcome _) fun perturbations => ?_
    refine Action.mirrors_bind (Action.mirrors_ofOutcome _) fun active => ?_
    refine Action.mirrors_bind (mirrors_onTarget ?_) fun numerators =>
      Action.mirrors_bind (Action.mirrors_ofOutcome _) fun _ => Action.mirrors_pure _
    cases stencil with
    | some st => exact Stencil.mirrors_difference hT st perturbations active _ frame.baseline
    | none => exact StepEngine.mirrors_runIdle hT _ perturbations active _

theorem mirrors_computePartition (rank ranks : Nat) :
    Action.Mirrors (Session.image f) (computePartition T rank ranks)
      (computePartition U rank ranks) := by
  have hrank (c : CachedPlan R) : Action.Mirrors (Session.image f) (evaluateRank T c rank ranks)
      (evaluateRank U c rank ranks) := by
    refine Action.mirrors_get_bind fun w => ?_
    refine Action.mirrors_bind (Action.mirrors_ofOutcome _) fun a => ?_
    refine Action.mirrors_bind (mirrors_chooseMethods hT _) fun chosen => ?_
    refine Action.mirrors_bind (Action.mirrors_ofOutcome _) fun methods => ?_
    refine Action.mirrors_bind (Action.mirrors_read fun w => ?_) fun values =>
      mirrors_runDirections hT _ _ _
    simp only [Session.image, readValues, hT.values]
  exact Action.mirrors_bind (mirrors_takePlan hT) fun c =>
    Action.mirrors_bind (Action.mirrors_attempt (hrank c)) fun _ =>
      Action.mirrors_bind (mirrors_modifyScheme _) fun _ => Action.mirrors_ofOutcome _

omit hT in
theorem mirrors_finish (a : Assembler R) :
    Action.Mirrors (Session.image f) (finish a : Work R σ (Jacobian R)) (finish a) := by
  have hpolicy (mismatches : List (Mismatch R)) :
      Action.Mirrors (Session.image f) (applyPolicy mismatches : Work R σ Unit)
        (applyPolicy mismatches) := by
    induction mismatches with
    | nil => exact Action.mirrors_pure _
    | cons m rest ih =>
      refine Action.mirrors_get_bind fun w => ?_
      dsimp only [Session.image]
      cases w.scheme.policy with
      | ignore => exact Action.mirrors_pure _
      | warn => exact Action.mirrors_bind (mirrors_notice _ _) fun _ => ih
      | reject => exact Action.mirrors_bind (Action.mirrors_fail _) fun _ => ih
  refine Action.mirrors_bind (Action.mirrors_ofOutcome _) fun (jacobian, mismatches) => ?_
  refine Action.mirrors_get_bind fun w => ?_
  refine Action.mirrors_bind (mirrors_modifyScheme _) fun _ => ?_
  dsimp only
  by_cases hfirst : w.scheme.computations = 0
  · rw [if_pos hfirst, if_pos (show (w.image f).scheme.computations = 0 from hfirst)]
    exact Action.mirrors_bind (hpolicy _) fun _ => Action.mirrors_pure _
  · rw [if_neg hfirst, if_neg (show (w.image f).scheme.computations ≠ 0 from hfirst)]
    exact Action.mirrors_pure _

/-- **A computation on a target is mirrored on its image.** -/
theorem mirrors_computeJacobian :
    Action.Mirrors (Session.image f) (computeJacobian T) (computeJacobian U) :=
  Action.mirrors_bind (mirrors_computePartition hT 0 1) mirrors_finish

end Scheme

end Mirrored

/-- The fault of an outcome that has no value. -/
def Outcome.fault? {ε α : Type} : Outcome ε α → Option (Fault ε)
  | .ok _ => none
  | .error f => some f

/-- An evaluation as it is planned. -/
structure Trial where
  /-- The entries that are perturbed, one after another. -/
  perturbed : List (String × Nat)
  /-- The components that are to run. -/
  active : ActiveSet
  mode : Mode

/-- An evaluation that was made. -/
structure Evaluation (R : Type) extends Trial where
  /-- How it failed, if it did. -/
  fault : Option (Fault (ApproximationError R))

/-- What is noted of the work on a target. -/
structure Notes (R : Type) where
  /-- The entries that have been perturbed since a restore. -/
  perturbed : List (String × Nat)
  evaluations : List (Evaluation R)

/-- Nothing is noted. -/
def Notes.empty : Notes R := ⟨[], []⟩

namespace Target

/-- A target that notes its evaluations behind its state, with the entries that are perturbed then. -/
def traced (T : Target R σ) : Target R (σ × Notes R) where
  size s := T.size s.1
  values s := T.values s.1
  perturb name index delta := .of fun s =>
    let r := (T.perturb name index delta).perform s.1
    (r.1, r.2, { s.2 with perturbed := s.2.perturbed ++ [(name, index)] })
  evaluate active mode := .of fun s =>
    let r := (T.evaluate active mode).perform s.1
    (r.1, r.2, { s.2 with
      evaluations := s.2.evaluations ++ [⟨⟨s.2.perturbed, active, mode⟩, r.1.fault?⟩] })
  restore saved s := (T.restore saved.1 s.1, { s.2 with perturbed := saved.2.perturbed })
  complexCapable s := T.complexCapable s.1
  complexStepActive s := T.complexStepActive s.1
  enter owner h s := (T.enter owner h s.1, s.2)
  leave s := (T.leave s.1, s.2)
  graph s := T.graph s.1

/-- **Taking notes changes nothing else.** -/
theorem mirrored_traced (T : Target R σ) : T.traced.Mirrored Prod.fst T where
  size _ := rfl
  values _ _ _ := rfl
  perturb _ _ _ _ := rfl
  evaluate _ _ _ := rfl
  restore _ _ := rfl
  complexCapable _ := rfl
  complexStepActive _ := rfl
  enter _ _ _ := rfl
  leave _ := rfl
  graph _ := rfl

end Target

end Sensitivity
