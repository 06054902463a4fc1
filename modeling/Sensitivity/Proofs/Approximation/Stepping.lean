import Sensitivity.Proofs.Approximation.Partition

/-!
# The protocol of complex steps

An engine may be called in any order. A call out of turn breaches and changes nothing; one in its turn
does with the target what it is for (`StepEngine.Call.work`), and its outcome is that of these
operations (`StepEngine.Call.perform_action`), whichever of them fails.

So whatever was called, as long as nothing has breached, the target is in one more complex step than
at first exactly while the engine is not idle, which is while it holds a saved state; and ending a
step, or running one as a whole, returns the target to where the step began
(`StepEngine.protocol_of_engaged`).
-/

namespace Sensitivity

variable {R σ γ : Type}

/-- A target that notes complex steps on a stack, which nothing else changes, and whose view returns
when the state is restored that a complex step began in. -/
structure Target.Nests (T : Target R σ) (view : σ → γ) (stack : σ → ActivationStack R) : Prop where
  restore : ∀ {s t} owner h, T.Moved (T.enter owner h s) t → view (T.restore s t) = view s
  leave : ∀ t, view (T.leave t) = view t
  push : ∀ owner h t, stack (T.enter owner h t) = (stack t).push owner h
  pop : ∀ t, stack (T.leave t) = (stack t).pop
  stack_restore : ∀ s t, stack (T.restore s t) = stack t
  stack_perturb : ∀ name index delta, (T.perturb name index delta).Keeps stack
  stack_evaluate : ∀ active mode, (T.evaluate active mode).Keeps stack

/-- A target moves on within the complex steps that are under way. -/
theorem Target.Nests.stack_of_moved {T : Target R σ} {view : σ → γ} {stack : σ → ActivationStack R}
    (hT : T.Nests view stack) {s t : σ} (h : T.Moved s t) : stack t = stack s := by
  induction h with
  | start => rfl
  | perturb name index delta _ ha ih => exact hT.stack_perturb name index delta _ _ ih ha
  | evaluate active mode _ ha ih => exact hT.stack_evaluate active mode _ _ ih ha
  | restore _ ih => exact (hT.stack_restore _ _).trans ih

/-- Leaving a complex step returns to where it began. -/
theorem Target.Nests.returned {T : Target R σ} {view : σ → γ} {stack : σ → ActivationStack R}
    (hT : T.Nests view stack) {s t : σ} {owner : String} {h : R}
    (hmoved : T.Moved (T.enter owner h s) t) :
    view (T.leave (T.restore s t)) = view s ∧ stack (T.leave (T.restore s t)) = stack s := by
  constructor
  · rw [hT.leave, hT.restore owner h hmoved]
  · rw [hT.pop, hT.stack_restore, hT.stack_of_moved hmoved, hT.push]
    rfl

namespace StepEngine

/-- What an engine can be called to do. -/
inductive Call (R : Type) where
  | start (owner : String) (perturbations : List (Perturbation R))
  | capture (active : ActiveSet) (of : List String)
  | finish
  | run (owner : String) (perturbations : List (Perturbation R)) (active : ActiveSet)
    (of : List String)

section OnTarget

variable {α β : Type}

/-- Actions on the target one after another are one action on the target. -/
theorem onTarget_bind (a : Action σ (ApproximationError R) α)
    (f : α → Action σ (ApproximationError R) β) :
    onTarget (a >>= f) = onTarget a >>= fun x => onTarget (f x) := by
  refine Action.ext_perform fun d => ?_
  simp only [onTarget, Action.perform_on, Action.perform_bind]
  rcases a.perform d.target with ⟨_ | x, t⟩ <;> rfl

theorem onTarget_forEach (xs : List α) (f : α → Action σ (ApproximationError R) Unit) :
    onTarget (Action.forEach xs f) = Action.forEach xs fun x => onTarget (f x) := by
  induction xs with
  | nil => rfl
  | cons x rest ih =>
    show onTarget (f x >>= fun _ => Action.forEach rest f) =
      (onTarget (f x) >>= fun _ => Action.forEach rest fun x => onTarget (f x))
    rw [onTarget_bind, ih]

end OnTarget

section Work

variable [Scalar R] (T : Target R σ)

/-- What beginning a step does with the target. -/
def perturbing (owner : String) (perturbations : List (Perturbation R)) :
    Action σ (ApproximationError R) Unit := do
  modify (T.enter owner (Scalar.maximum (perturbations.map Perturbation.step)))
  Action.forEach perturbations fun p => T.perturb p.name p.index (.imag p.step)

/-- What capturing does with the target. -/
def evaluating (active : ActiveSet) (of : List String) : Action σ (ApproximationError R) Unit := do
  T.evaluate active .complex
  discard (T.readAll of .imag)

end Work

namespace Call

/-- A call in a phase in which it must not be made. -/
def OutOfTurn (phase : Phase) : Call R → Prop
  | start .. | run .. => phase ≠ .idle
  | capture .. => phase ≠ .perturbed
  | finish => phase = .idle

/-- The state in which the step began that is under way after a call. -/
def begun (began : Option σ) (d : Driven σ) : Call R → Option σ
  | start .. => some d.target
  | capture .. => began
  | finish | run .. => none

/-- The state to which a call returns the target, if it ends a step. -/
def origin (began : Option σ) (d : Driven σ) : Call R → Option σ
  | start .. | capture .. => none
  | finish => began
  | run .. => some d.target

/-- Whether a call ends a step. -/
def Ends : Call R → Prop
  | start .. | capture .. => False
  | finish | run .. => True

variable [Scalar R] (T : Target R σ)

/-- What a call does. -/
def action : Call R → Action (Driven σ) (ApproximationError R) Unit
  | start owner perturbations => StepEngine.start T owner perturbations
  | capture active of => discard (StepEngine.capture T active of)
  | finish => StepEngine.finish T
  | run owner perturbations active of => discard (StepEngine.run T owner perturbations active of)

/-- The operations of the target that can fail in a call. -/
def work : Call R → Action σ (ApproximationError R) Unit
  | start owner perturbations => perturbing T owner perturbations
  | capture active of => evaluating T active of
  | finish => pure ()
  | run owner perturbations active of => do
    perturbing T owner perturbations
    evaluating T active of

/-- Where a call leads when its operations end like this. -/
def landing (d : Driven σ) (r : Outcome (ApproximationError R) Unit × σ) : Call R → Driven σ
  | start .. => ⟨⟨.perturbed, some d.target⟩, r.2⟩
  | capture .. =>
    match r.1 with
    | .ok () => ⟨⟨.captured, d.engine.saved⟩, r.2⟩
    | .error _ => ⟨d.engine, r.2⟩
  | finish => ⟨idle, T.leave (match d.engine.saved with
    | some saved => T.restore saved d.target
    | none => d.target)⟩
  | run .. => ⟨idle, T.leave (T.restore d.target r.2)⟩

end Call

section Turns

variable [Scalar R] {T : Target R σ} {d : Driven σ}

/-- A step is begun at an idle engine. -/
theorem perform_start (h : d.engine.phase = .idle) (owner : String)
    (perturbations : List (Perturbation R)) :
    (start T owner perturbations).perform d =
      (((perturbing T owner perturbations).perform d.target).1,
        ⟨⟨.perturbed, some d.target⟩, ((perturbing T owner perturbations).perform d.target).2⟩) := by
  unfold start
  rw [perform_require_bind (decide_eq_true h), ← onTarget_forEach]
  rfl

omit [Scalar R] in
/-- A step that was begun is captured. -/
theorem perform_capture (h : d.engine.phase = .perturbed) (active : ActiveSet) (of : List String) :
    (discard (capture T active of)).perform d =
      (((evaluating T active of).perform d.target).1,
        Call.landing T d ((evaluating T active of).perform d.target) (.capture active of)) := by
  obtain ⟨⟨_, saved⟩, t⟩ := d
  obtain rfl : _ = Phase.perturbed := h
  unfold capture evaluating
  rw [Action.perform_discard, perform_require_bind (by rfl), Action.perform_bind, Action.perform_bind]
  simp only [onTarget, Action.perform_on]
  rcases (T.evaluate active .complex).perform t with ⟨f | _, u⟩
  · rfl
  · dsimp only
    rw [Action.perform_bind, Action.perform_on, Action.perform_discard]
    rcases (T.readAll of .imag).perform u with ⟨f | vs, v⟩ <;> rfl

omit [Scalar R] in
/-- A step under way is ended. -/
theorem perform_finish (h : d.engine.phase ≠ .idle) :
    (finish T : Action _ (ApproximationError R) _).perform d =
      (.ok (), Call.landing T d (.ok (), d.target) .finish) := by
  unfold finish
  rw [perform_require_bind (decide_eq_true h)]
  rfl

omit [Scalar R] in
/-- What was attempted in a step is ended, also when it failed. -/
theorem perform_attempt_finish {α : Type} {a : Action (Driven σ) (ApproximationError R) α}
    {o : Outcome (ApproximationError R) α} {d' : Driven σ} {s : σ} (ha : a.perform d = (o, d'))
    (hphase : d'.engine.phase ≠ .idle) (hsaved : d'.engine.saved = some s) :
    let whole : Action _ (ApproximationError R) _ := do
      let attempted ← Action.attempt a
      finish T
      Action.ofOutcome (.ofExcept attempted)
    (whole.perform d).1 = o ∧
      (o.Answers → (whole.perform d).2 = ⟨idle, T.leave (T.restore s d'.target)⟩) := by
  dsimp only
  rw [Action.perform_bind, Action.attempt, Action.perform_of, ha]
  rcases o with (e | _) | x
  · dsimp only
    rw [Action.perform_bind, perform_finish hphase, Call.landing, hsaved]
    exact ⟨rfl, fun _ => rfl⟩
  · exact ⟨rfl, fun h => absurd h Outcome.not_answers_breach⟩
  · dsimp only
    rw [Action.perform_bind, perform_finish hphase, Call.landing, hsaved]
    exact ⟨rfl, fun _ => rfl⟩

/-- Beginning and capturing end as the operations of the target do, with the step under way. -/
theorem perform_start_capture (h : d.engine.phase = .idle) (owner : String)
    (perturbations : List (Perturbation R)) (active : ActiveSet) (of : List String) :
    let a := start T owner perturbations >>= fun _ => capture T active of
    let r := (perturbing T owner perturbations >>= fun _ => evaluating T active of).perform d.target
    (a.perform d).1.map (fun _ => ()) = r.1 ∧ (a.perform d).2.target = r.2 ∧
      (a.perform d).2.engine.phase ≠ .idle ∧ (a.perform d).2.engine.saved = some d.target := by
  dsimp only
  rw [Action.perform_bind, perform_start h, Action.perform_bind]
  rcases (perturbing T owner perturbations).perform d.target with ⟨f | _, u⟩
  · exact ⟨rfl, rfl, Phase.noConfusion, rfl⟩
  · dsimp only
    have hcapture := perform_capture (T := T) (d := ⟨⟨.perturbed, some d.target⟩, u⟩) rfl active of
    rw [Action.perform_discard, Prod.ext_iff] at hcapture
    obtain ⟨houtcome, hstate⟩ := hcapture
    refine ⟨houtcome, ?_⟩
    dsimp only at hstate
    rw [hstate, Call.landing]
    split
    · exact ⟨rfl, Phase.noConfusion, rfl⟩
    · exact ⟨rfl, Phase.noConfusion, rfl⟩

/-- A whole step is run at an idle engine. -/
theorem perform_run (h : d.engine.phase = .idle) (owner : String)
    (perturbations : List (Perturbation R)) (active : ActiveSet) (of : List String) :
    let r := (perturbing T owner perturbations >>= fun _ => evaluating T active of).perform d.target
    ((discard (run T owner perturbations active of)).perform d).1 = r.1 ∧
      (r.1.Answers → ((discard (run T owner perturbations active of)).perform d).2 =
        Call.landing T d r (.run owner perturbations active of)) := by
  obtain ⟨ho, htarget, hphase, hsaved⟩ := perform_start_capture (T := T) h owner perturbations active of
  obtain ⟨hend, hstate⟩ := perform_attempt_finish (T := T) (Prod.mk.eta.symm) hphase hsaved
  rw [Action.perform_discard, run]
  refine ⟨?_, fun hanswers => ?_⟩
  · rw [hend, ho]
  · rw [← ho] at hanswers
    rw [hstate fun hbreach => hanswers (by rw [hbreach]; rfl), htarget, Call.landing]

namespace Call

variable {c : Call R}

/-- **A call in its turn** ends as the operations of the target do that it is for. -/
theorem perform_action (h : ¬ c.OutOfTurn d.engine.phase) :
    ((c.action T).perform d).1 = ((c.work T).perform d.target).1 ∧
      (((c.action T).perform d).1.Answers →
        ((c.action T).perform d).2 = c.landing T d ((c.work T).perform d.target)) := by
  cases c with
  | start owner perturbations =>
    rw [action, perform_start (not_not.1 h)]
    exact ⟨rfl, fun _ => rfl⟩
  | capture active of =>
    rw [action, perform_capture (not_not.1 h)]
    exact ⟨rfl, fun _ => rfl⟩
  | finish =>
    rw [action, perform_finish h]
    exact ⟨rfl, fun _ => rfl⟩
  | run owner perturbations active of =>
    obtain ⟨hend, hstate⟩ := perform_run (T := T) (not_not.1 h) owner perturbations active of
    exact ⟨hend, fun hanswers => hstate (hend ▸ hanswers)⟩

/-- **A call out of turn** breaches, and nothing has happened. -/
theorem breach_action (h : c.OutOfTurn d.engine.phase) :
    (c.action T).perform d = (.error .breach, d) := by
  cases c with
  | start owner perturbations => exact breach_require_bind (decide_eq_false h) _
  | capture active of =>
    rw [action, Action.perform_discard, StepEngine.capture,
      breach_require_bind (decide_eq_false h)]
    rfl
  | finish =>
    have hidle : d.engine.phase = .idle := h
    exact breach_require_bind (by rw [hidle]; rfl) _
  | run owner perturbations active of =>
    have hstart : (StepEngine.start T owner perturbations).perform d = (.error .breach, d) :=
      breach_require_bind (decide_eq_false h) _
    rw [action, Action.perform_discard, StepEngine.run, Action.perform_bind, Action.attempt,
      Action.perform_of, Action.perform_bind, hstart]
    rfl

end Call

end Turns

section Protocol

variable [Scalar R] {T : Target R σ} {view : σ → γ} {stack : σ → ActivationStack R} {t₀ : σ}
  {began : Option σ} {d : Driven σ}

/-- An engine and its target after some calls in any order, none of which breached, and the state in
which the step began that is under way. At first the engine was idle and the target at `t₀`. -/
inductive Engaged (T : Target R σ) (t₀ : σ) : Option σ → Driven σ → Prop
  | new : Engaged T t₀ none ⟨idle, t₀⟩
  | call {began : Option σ} {d : Driven σ} (c : Call R) (h : Engaged T t₀ began d)
      (ha : ((c.action T).perform d).1.Answers) :
      Engaged T t₀ (c.begun began d) ((c.action T).perform d).2

/-- Between calls: the engine is idle, and as many complex steps are under way as at first, or a step
is under way that began when this was so. -/
inductive Balanced (T : Target R σ) (stack : σ → ActivationStack R) (t₀ : σ) :
    Option σ → Driven σ → Prop
  | idle {t : σ} (h : stack t = stack t₀) : Balanced T stack t₀ none ⟨idle, t⟩
  | underWay {s : σ} {d : Driven σ} (h : UnderWay T s d) (hs : stack s = stack t₀) :
      Balanced T stack t₀ (some s) d

omit [Scalar R] in
theorem Balanced.eq_idle (h : Balanced T stack t₀ began d) (hphase : d.engine.phase = .idle) :
    ∃ t, began = none ∧ d = ⟨StepEngine.idle, t⟩ ∧ stack t = stack t₀ := by
  cases h with
  | idle h => exact ⟨_, rfl, rfl, h⟩
  | underWay h hs => exact absurd hphase h.1

omit [Scalar R] in
theorem Balanced.exists_underWay (h : Balanced T stack t₀ began d) (hphase : d.engine.phase ≠ .idle) :
    ∃ s, began = some s ∧ UnderWay T s d ∧ stack s = stack t₀ := by
  cases h with
  | idle h => exact absurd rfl hphase
  | underWay h hs => exact ⟨_, rfl, h, hs⟩

theorem moved_perturbing {owner : String} {perturbations : List (Perturbation R)} {t : σ}
    (ha : ((perturbing T owner perturbations).perform t).1.Answers) :
    T.Moved (T.enter owner (Scalar.maximum (perturbations.map Perturbation.step)) t)
      ((perturbing T owner perturbations).perform t).2 := by
  have hperturb (s : σ) : (Action.forEach perturbations fun p =>
      T.perturb p.name p.index (.imag p.step)).Preserves (T.Moved s) :=
    Action.preserves_forEach fun p => Target.preserves_moved_perturb s p.name p.index _
  exact hperturb _ _ .start ha

omit [Scalar R] in
theorem preserves_moved_evaluating (s : σ) (active : ActiveSet) (of : List String) :
    (evaluating T active of).Preserves (T.Moved s) :=
  Action.preserves_bind (Target.preserves_moved_evaluate s active .complex) fun _ =>
    Action.preserves_discard (Action.preserves_read _)

/-- A call that does not breach was made in its turn. -/
theorem inTurn_of_answers {c : Call R} (ha : ((c.action T).perform d).1.Answers) :
    ¬ c.OutOfTurn d.engine.phase := by
  intro h
  rw [Call.breach_action h] at ha
  exact ha rfl

/-- **What one call does**: a step is under way from where it began, and one that ended returned the
target there. -/
theorem balanced_action (hT : T.Nests view stack) (h : Balanced T stack t₀ began d) (c : Call R)
    (ha : ((c.action T).perform d).1.Answers) :
    Balanced T stack t₀ (c.begun began d) ((c.action T).perform d).2 ∧
      (c.Ends → ∃ s t, c.origin began d = some s ∧ ((c.action T).perform d).2 = ⟨idle, t⟩ ∧
        view t = view s ∧ stack t = stack s) := by
  have hturn := inTurn_of_answers ha
  obtain ⟨hend, hstate⟩ := Call.perform_action (T := T) hturn
  have hstate := hstate ha
  rw [hend] at ha
  rw [hstate]
  cases c with
  | start owner perturbations =>
    obtain ⟨t, rfl, rfl, ht⟩ := h.eq_idle (not_not.1 hturn)
    refine ⟨.underWay ⟨Phase.noConfusion, rfl, owner, _, moved_perturbing ha⟩ ht, False.elim⟩
  | capture active of =>
    have hphase : d.engine.phase = .perturbed := not_not.1 hturn
    obtain ⟨s, rfl, ⟨hidle, hsaved, owner, step, hmoved⟩, hs⟩ :=
      h.exists_underWay (by rw [hphase]; exact Phase.noConfusion)
    have hmoved := preserves_moved_evaluating _ active of _ hmoved ha
    refine ⟨.underWay ?_ hs, False.elim⟩
    rw [Call.landing]
    split
    · exact ⟨Phase.noConfusion, hsaved, owner, step, hmoved⟩
    · exact ⟨hidle, hsaved, owner, step, hmoved⟩
  | finish =>
    obtain ⟨s, rfl, ⟨-, hsaved, owner, step, hmoved⟩, hs⟩ := h.exists_underWay hturn
    obtain ⟨hview, hstack⟩ := hT.returned hmoved
    rw [Call.landing, hsaved]
    exact ⟨.idle (hstack.trans hs), fun _ => ⟨s, _, rfl, rfl, hview, hstack⟩⟩
  | run owner perturbations active of =>
    obtain ⟨t, rfl, rfl, ht⟩ := h.eq_idle (not_not.1 hturn)
    have hmoved := Action.inv_bind moved_perturbing
      (fun _ => preserves_moved_evaluating (T := T) _ active of) ha
    obtain ⟨hview, hstack⟩ := hT.returned hmoved
    exact ⟨.idle (hstack.trans ht), fun _ => ⟨t, _, rfl, rfl, hview, hstack⟩⟩

/-- What any calls leave. -/
theorem Engaged.balanced (hT : T.Nests view stack) (h : Engaged T t₀ began d) :
    Balanced T stack t₀ began d := by
  induction h with
  | new => exact .idle rfl
  | call c _ ha ih => exact (balanced_action hT ih c ha).1

/-- **The protocol is kept over any calls.** As long as none breached, the target is in one more complex
step than at first exactly while the engine is not idle, which is while it holds a saved state. A call
breaches when it is made out of turn, and then changes nothing; otherwise it ends as the operations of
the target do. A call that ends a step leaves the engine idle, and the target where the step began. -/
theorem protocol_of_engaged (hT : T.Nests view stack) (h : Engaged T t₀ began d) :
    (stack d.target).depth = (stack t₀).depth + (if d.engine.phase = .idle then 0 else 1) ∧
      (d.engine.saved.isSome = true ↔ d.engine.phase ≠ .idle) ∧
      ∀ c : Call R,
        (c.OutOfTurn d.engine.phase → (c.action T).perform d = (.error .breach, d)) ∧
        (¬ c.OutOfTurn d.engine.phase →
          ((c.action T).perform d).1 = ((c.work T).perform d.target).1) ∧
        (c.Ends → ((c.action T).perform d).1.Answers → ∃ s t, c.origin began d = some s ∧
          ((c.action T).perform d).2 = ⟨idle, t⟩ ∧ view t = view s ∧ stack t = stack s) := by
  have hbalanced := h.balanced hT
  refine ⟨?_, ?_, fun c => ⟨Call.breach_action, fun hturn => (Call.perform_action hturn).1,
    fun hends ha => (balanced_action hT hbalanced c ha).2 hends⟩⟩
  · cases hbalanced with
    | idle hstack => exact congrArg ActivationStack.depth hstack
    | underWay hway hs =>
      obtain ⟨hphase, -, owner, step, hmoved⟩ := hway
      rw [if_neg hphase, hT.stack_of_moved hmoved, hT.push, hs]
      rfl
  · cases hbalanced with
    | idle hstack => simp [idle]
    | underWay hway hs => simp [hway.1, hway.2.1]

/-- A number with its imaginary part, and the complex steps under way around it. Its only entry is the
first one. -/
def dial : Target Rat ((Rat × Rat) × ActivationStack Rat) where
  size _ _ := .ok 1
  values s _ part :=
    match part with
    | .real => .ok [s.1.1]
    | .imag => .ok [s.1.2]
  perturb name index delta := .of fun s =>
    if index = 0 then
      match delta with
      | .real h => (.ok (), (s.1.1 + h, s.1.2), s.2)
      | .imag h => (.ok (), (s.1.1, s.1.2 + h), s.2)
    else (Outcome.fail (.unknownVariable name), s)
  evaluate _ _ := pure ()
  restore saved s := (saved.1, s.2)
  complexCapable _ := true
  complexStepActive s := s.2.isActive
  enter owner h s := (s.1, s.2.push owner h)
  leave s := (s.1, s.2.pop)
  graph _ := none

theorem dial_nests : dial.Nests Prod.fst Prod.snd where
  restore _ _ _ := rfl
  leave _ := rfl
  push _ _ _ := rfl
  pop _ := rfl
  stack_restore _ _ := rfl
  stack_perturb name index delta := by
    rintro stack s rfl -
    show (if index = 0 then _ else (_, s) : Outcome (ApproximationError Rat) Unit × _).2.2 = s.2
    split
    · cases delta <;> rfl
    · rfl
  stack_evaluate _ _ _ _ h _ := h

/-- A step that failed to begin, as its second entry is not there. -/
def jammed : Driven ((Rat × Rat) × ActivationStack Rat) :=
  (((Call.start "model" [⟨"x", 0, 1⟩, ⟨"x", 1, 1⟩]).action dial).perform ⟨idle, (2, 0), .empty⟩).2

theorem engaged_jammed : Engaged dial ((2, 0), .empty) (some ((2, 0), .empty)) jammed :=
  .call (.start "model" [⟨"x", 0, 1⟩, ⟨"x", 1, 1⟩]) .new (Outcome.answers_error _)

/-- The step is under way all the same: another one cannot be run, and ending it returns the number. -/
theorem protocol_jammed : jammed.target.2.depth = 1 ∧
    ((Call.run "model" [] .all ["x"]).action dial).perform jammed = (.error .breach, jammed) ∧
    ((Call.finish.action dial).perform jammed).2 = ⟨idle, (2, 0), .empty⟩ := by
  obtain ⟨hdepth, -, hcalls⟩ := protocol_of_engaged dial_nests engaged_jammed
  refine ⟨hdepth, (hcalls _).1 Phase.noConfusion, ?_⟩
  obtain ⟨s, t, hs, ht, hview, hstack⟩ := (hcalls .finish).2.2 trivial (Outcome.answers_ok _)
  cases hs
  rw [ht, show t = ((2, 0), .empty) from Prod.ext hview hstack]

end Protocol

end StepEngine

end Sensitivity
