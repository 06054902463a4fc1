import Sensitivity.Proofs.Approximation.Computation
import Sensitivity.Proofs.Coupling

/-!
# What a computation depends on

States of a target that no operation tells apart are coupled (`Target.Coupled`); states of an exact
target with equal views are (`Target.Exact.coupled`). Schemes in one role, which their scope and
their requests fix (`Scheme.Role`), answer the same on coupled states, whatever plan they have kept
and whatever they have computed before (`Scheme.twins_computeJacobian`): a kept plan is the one that
would be made now (`Scheme.alike_takePlan`).
-/

namespace Sensitivity

variable {R σ γ : Type}

/-- A relation of the states of a target that no operation tells apart: related states answer the
same and stay related, and so do states that are restored to related ones. -/
structure Target.Coupled (T : Target R σ) (rel : σ → σ → Prop) : Prop where
  size : ∀ {s t}, rel s t → ∀ name, T.size s name = T.size t name
  values : ∀ {s t}, rel s t → ∀ name part, T.values s name part = T.values t name part
  perturb : ∀ name index delta, Action.Twins rel (T.perturb name index delta) (T.perturb name index delta)
  evaluate : ∀ active mode, Action.Twins rel (T.evaluate active mode) (T.evaluate active mode)
  restore : ∀ {s t s' t'}, rel s t → rel s' t' → T.Moved s s' → T.Moved t t' →
    rel (T.restore s s') (T.restore t t')
  enter : ∀ {s t}, rel s t → ∀ owner h, rel (T.enter owner h s) (T.enter owner h t)
  leave : ∀ {s t s' t'} {owner owner' h h'}, rel s t → rel s' t' →
    T.Moved (T.enter owner h s) s' → T.Moved (T.enter owner' h' t) t' →
      rel (T.leave (T.restore s s')) (T.leave (T.restore t t'))
  complexCapable : ∀ {s t}, rel s t → T.complexCapable s = T.complexCapable t
  complexStepActive : ∀ {s t}, rel s t → T.complexStepActive s = T.complexStepActive t
  graph : ∀ {s t}, rel s t → T.graph s = T.graph t

/-- What respects a view runs side by side with itself from equal views. -/
theorem Action.Respects.twins {ε α : Type} {view : σ → γ} {a : Action σ ε α} (h : a.Respects view) :
    Action.Twins (fun s t => view s = view t) a a := by
  intro s t hs
  obtain ⟨ho, hv⟩ := h s t hs
  rcases hr : a.perform s with ⟨(e | _) | x, u⟩ <;> rcases hq : a.perform t with ⟨o, w⟩ <;>
    simp only [hr, hq] at ho hv <;> subst ho
  · exact .error hv
  · exact .breach
  · exact .value ⟨rfl, hv⟩

/-- The operations of an exact target cannot tell states with equal views apart. -/
theorem Target.Exact.coupled {T : Target R σ} {view : σ → γ} (hT : T.Exact view)
    (hgraph : ∀ {s t}, view s = view t → T.graph s = T.graph t) :
    T.Coupled fun s t => view s = view t where
  size := hT.size
  values := hT.values
  perturb name index delta := (hT.perturb name index delta).twins
  evaluate active mode := (hT.evaluate active mode).twins
  restore h _ hs ht := (hT.restore hs).trans (h.trans (hT.restore ht).symm)
  enter := hT.enter
  leave h _ hs ht := (hT.leave _ _ hs).trans (h.trans (hT.leave _ _ ht).symm)
  complexCapable := hT.complexCapable
  complexStepActive := hT.complexStepActive
  graph := hgraph

variable {T : Target R σ} {rel : σ → σ → Prop}

theorem Target.twins_readAll (hT : T.Coupled rel) (names : List String) (part : Part) :
    Action.Twins rel (T.readAll names part) (T.readAll names part) := by
  refine Action.twins_read fun s t hs => ?_
  have : (fun n => T.values s n part) = fun n => T.values t n part :=
    funext fun n => hT.values hs n part
  simp only [congrFun this]

namespace Stencil

variable [Scalar R]

theorem twins_evaluatePoint (hT : T.Coupled rel) (perturbations : List (Perturbation R)) (offset : R)
    (active : ActiveSet) (of : List String) :
    Action.Twins rel (evaluatePoint T perturbations offset active of)
      (evaluatePoint T perturbations offset active of) :=
  Action.twins_bind (Action.twins_forEach fun p _ => hT.perturb p.name p.index _) fun _ =>
    Action.twins_bind (hT.evaluate active .real) fun _ => Target.twins_readAll hT of .real

/-- From saved states that are related, the points of a stencil sum up to the same. -/
theorem twins_sumPoints (hT : T.Coupled rel) {s t : σ} (hs : rel s t)
    (perturbations : List (Perturbation R)) (active : ActiveSet) (of : List String)
    (points : List (R × R)) (sums : Table String (List R)) :
    Action.Twins (fun u v => rel u v ∧ T.Moved s u ∧ T.Moved t v)
      (sumPoints T s perturbations active of points sums)
      (sumPoints T t perturbations active of points sums) := by
  induction points generalizing sums with
  | nil => exact Action.twins_pure sums
  | cons point rest ih =>
    obtain ⟨offset, weight⟩ := point
    refine Action.twins_bind ?_ fun point => ih (accumulate weight sums point)
    intro u v huv
    have h := (twins_evaluatePoint hT perturbations offset active of).and
      (preserves_moved_evaluatePoint s perturbations offset active of)
      (preserves_moved_evaluatePoint t perturbations offset active of) u v huv
    simp only [Target.thenRestore, Action.perform_of]
    generalize (evaluatePoint T perturbations offset active of).perform u = r at h
    generalize (evaluatePoint T perturbations offset active of).perform v = q at h
    have hback {u v : σ} (h : rel u v ∧ T.Moved s u ∧ T.Moved t v) :
        rel (T.restore s u) (T.restore t v) ∧ T.Moved s (T.restore s u) ∧
          T.Moved t (T.restore t v) :=
      ⟨hT.restore hs h.1 h.2.1 h.2.2, .restore h.2.1, .restore h.2.2⟩
    cases h with
    | value h => exact .value ⟨h.1, hback h.2⟩
    | error h => exact .error (hback h)
    | breach => exact .breach

theorem twins_difference (hT : T.Coupled rel) (st : Stencil R)
    (perturbations : List (Perturbation R)) (active : ActiveSet) (of : List String)
    (baseline : Table String (List R)) :
    Action.Twins rel (st.difference T perturbations active of baseline)
      (st.difference T perturbations active of baseline) := by
  refine Action.twins_bind (Action.twins_ofOutcome _) fun start => ?_
  refine Action.couples_get_bind fun s t hs => ?_
  have h := Action.twins_bind
    (twins_sumPoints hT hs perturbations active of st.points start) (fun sums =>
      Action.twins_pure (sums.map fun _ vs => vs.map fun v => v / st.denominator))
    s t ⟨hs, .start, .start⟩
  exact h.mono (fun _ _ _ _ h => ⟨h.1, h.2.1⟩) fun _ _ h => h.1

end Stencil

namespace StepEngine

variable [Scalar R]

/-- Engines in the same phase on related targets. -/
def SamePhase (rel : σ → σ → Prop) (d e : Driven σ) : Prop :=
  rel d.target e.target ∧ d.engine.phase = e.engine.phase

omit [Scalar R] in
theorem twins_onTarget {α : Type} {a b : Action σ (ApproximationError R) α} (h : Action.Twins rel a b) :
    Action.Twins (SamePhase rel) (onTarget a) (onTarget b) :=
  Action.twins_on h (fun _ _ h => h.1) fun _ _ _ _ h hu => ⟨hu, h.2⟩

omit [Scalar R] in
theorem twins_require (allowed : Phase → Bool) :
    Action.Twins (SamePhase rel) (require (R := R) allowed) (require allowed) :=
  Action.twins_read fun d e h => by rw [h.2]

theorem twins_start (hT : T.Coupled rel) (owner : String)
    (perturbations : List (Perturbation R)) :
    Action.Twins (SamePhase rel) (start T owner perturbations) (start T owner perturbations) :=
  Action.twins_bind (twins_require _) fun _ =>
    Action.twins_bind (Action.twins_modify fun _ _ h => ⟨hT.enter h.1 _ _, rfl⟩) fun _ =>
      Action.twins_forEach fun p _ => twins_onTarget (hT.perturb p.name p.index _)

omit [Scalar R] in
theorem twins_capture (hT : T.Coupled rel) (active : ActiveSet) (of : List String) :
    Action.Twins (SamePhase rel) (capture T active of) (capture T active of) :=
  Action.twins_bind (twins_require _) fun _ =>
    Action.twins_bind (twins_onTarget (hT.evaluate active .complex)) fun _ =>
      Action.twins_bind (twins_onTarget (Target.twins_readAll hT of .imag)) fun _ =>
        Action.twins_bind (Action.twins_modify fun _ _ h => ⟨h.1, rfl⟩) fun _ =>
          Action.twins_pure _

omit [Scalar R] in
/-- Directions under way from related states end in related states. -/
theorem rel_finish (hT : T.Coupled rel) {s t : σ} (hs : rel s t) {d e : Driven σ}
    (h : SamePhase rel d e) (hd : UnderWay T s d) (he : UnderWay T t e) :
    ((finish (R := R) T).perform d).1 = .ok () ∧ ((finish (R := R) T).perform e).1 = .ok () ∧
      rel ((finish (R := R) T).perform d).2.target ((finish (R := R) T).perform e).2.target := by
  obtain ⟨hdp, hds, _, _, hdm⟩ := hd
  obtain ⟨hep, hes, _, _, hem⟩ := he
  have hdr : (decide (d.engine.phase ≠ .idle)) = true := by simpa using hdp
  have her : (decide (e.engine.phase ≠ .idle)) = true := by simpa using hep
  simp only [finish, require, Action.perform_bind, Action.perform_read, hdr, her, if_true,
    Action.perform_modify, hds, hes, true_and]
  exact hT.leave hs h.1 hdm hem

theorem twins_runIdle (hT : T.Coupled rel) (owner : String) (perturbations : List (Perturbation R))
    (active : ActiveSet) (of : List String) :
    Action.Twins rel (runIdle T owner perturbations active of)
      (runIdle T owner perturbations active of) := by
  intro s t hs
  have hwork : Action.Twins _ (Action.attempt (start T owner perturbations >>= fun _ =>
      capture T active of) : Action _ (ApproximationError R) _) (Action.attempt _) :=
    Action.twins_attempt
      (Action.twins_bind (twins_start hT owner perturbations) fun _ => twins_capture hT active of)
  replace hwork := hwork ⟨idle, s⟩ ⟨idle, t⟩ ⟨hs, rfl⟩
  have hd := underWay_attempt (T := T) s owner perturbations active of
  have he := underWay_attempt (T := T) t owner perturbations active of
  have hne (e : ApproximationError R) := Action.attempt_ne_error
    (start T owner perturbations >>= fun _ => capture T active of) ⟨idle, s⟩ e
  simp only [runIdle, run, Action.perform_on, Action.perform_bind (Action.attempt _)]
  generalize (Action.attempt (start T owner perturbations >>= fun _ =>
    capture T active of)).perform ⟨idle, s⟩ = r at hwork hd hne ⊢
  generalize (Action.attempt (start T owner perturbations >>= fun _ =>
    capture T active of)).perform ⟨idle, t⟩ = q at hwork he ⊢
  cases hwork with
  | @value x y d e h =>
    obtain ⟨rfl, hphase⟩ := h
    obtain ⟨hfd, hfe, hrel⟩ := rel_finish hT hs hphase (hd (by simp)) (he (by simp))
    simp only [Action.perform_bind (finish T)]
    rw [Action.perform_eq_ok hfd, Action.perform_eq_ok hfe]
    exact Action.twins_ofOutcome (.ofExcept x) _ _ hrel
  | error h => exact absurd rfl (hne _)
  | breach => exact .breach

end StepEngine

namespace Scheme

variable [Scalar R]

/-- What the result of a computation depends on: all of a scheme that its scope and its requests
fix. -/
structure Role (R : Type) where
  owner : String
  site : Site R
  requests : List (Request R)
  policy : PatternPolicy
  tolerance : R

omit [Scalar R] in
/-- The role of a scheme. -/
def role (s : Scheme R) : Role R := ⟨s.owner, s.site, s.requests, s.policy, s.tolerance⟩

/-- Schemes in one role at work on related targets. -/
structure InRole (ρ : Role R) (rel : σ → σ → Prop) (w v : Session R σ) : Prop where
  left : w.scheme.role = ρ
  right : v.scheme.role = ρ
  target : rel w.target v.target

variable {ρ : Role R}

omit [Scalar R] in
theorem twins_modifyScheme {f g : Scheme R → Scheme R} (hf : ∀ s, (f s).role = s.role)
    (hg : ∀ s, (g s).role = s.role) :
    Action.Twins (InRole ρ rel) (modifyScheme f : Work R σ Unit) (modifyScheme g) :=
  Action.twins_modify fun w v h =>
    ⟨(hf w.scheme).trans h.left, (hg v.scheme).trans h.right, h.target⟩

omit [Scalar R] in
theorem twins_onTarget {α : Type} {a b : Action σ (ApproximationError R) α}
    (h : Action.Twins rel a b) : Action.Twins (InRole ρ rel) (onTarget a) (onTarget b) :=
  Action.twins_on h (fun _ _ h => h.target) fun _ _ _ _ h hu => ⟨h.left, h.right, hu⟩

/-- The settings that are used depend on the target alone; choosing them only leaves notices. -/
theorem perform_effective (s : Settings R) (w : Session R σ) :
    ∃ v, (effective T s).perform w = (.ok (settingsAt T w.target s), v) ∧
      v.scheme.role = w.scheme.role ∧ v.target = w.target := by
  unfold effective
  split
  · rename_i hfd
    exact ⟨w, by rw [settingsAt, if_pos hfd]; rfl, rfl, rfl⟩
  · rename_i hfd
    rw [Action.perform_get_bind]
    split
    · rename_i hactive
      have hset : settingsAt T w.target s = fallback s := by simp [settingsAt, hfd, hactive]
      rw [hset]
      split <;> exact ⟨_, rfl, rfl, rfl⟩
    · rename_i hactive
      split
      · rename_i hcapable
        have hset : settingsAt T w.target s = fallback s := by simp_all [settingsAt]
        rw [hset]
        split <;> exact ⟨_, rfl, rfl, rfl⟩
      · rename_i hcapable
        have hset : settingsAt T w.target s = s := by simp_all [settingsAt]
        exact ⟨w, by rw [hset]; rfl, rfl, rfl⟩

theorem settingsAt_congr (hT : T.Coupled rel) {s t : σ} (h : rel s t) :
    settingsAt T s = settingsAt T t := by
  funext own
  simp only [settingsAt, hT.complexStepActive h, hT.complexCapable h]

theorem twins_effective (hT : T.Coupled rel) (s : Settings R) :
    Action.Twins (InRole ρ rel) (effective T s) (effective T s) := by
  intro w v hw
  obtain ⟨w', hw', hrole, htarget⟩ := perform_effective (T := T) s w
  obtain ⟨v', hv', hrole', htarget'⟩ := perform_effective (T := T) s v
  rw [hw', hv', settingsAt_congr hT hw.target]
  refine .value ⟨rfl, hrole.trans hw.left, hrole'.trans hw.right, ?_⟩
  rw [htarget, htarget']
  exact hw.target

theorem twins_chooseMethods (hT : T.Coupled rel) (settings : List (Settings R)) :
    Action.Twins (InRole ρ rel) (chooseMethods T settings) (chooseMethods T settings) := by
  induction settings with
  | nil => exact Action.twins_pure _
  | cons s rest ih =>
    exact Action.twins_bind (twins_effective hT s) fun _ =>
      Action.twins_bind ih fun _ => Action.twins_pure _

omit [Scalar R] in
theorem readValues_congr (hT : T.Coupled rel) {s t : σ} (h : rel s t)
    (requests : List (Request R)) : readValues T requests s = readValues T requests t := by
  simp only [readValues, hT.values h]

section SameVariables

/-- Schemes that ask for blocks between the same variables, in the same order. -/
def SameVariables (a b : Scheme R) : Prop :=
  b.requests.map (fun q => (q.of, q.wrt)) = a.requests.map fun q => (q.of, q.wrt)

variable {a b : Scheme R}

omit [Scalar R] in
theorem SameVariables.ofNames_eq (h : SameVariables a b) (rs : List Nat) :
    b.ofNames rs = a.ofNames rs := by
  have hof (s : Scheme R) (r : Nat) : s.requests[r]?.map Request.of =
      (s.requests.map fun q => (q.of, q.wrt))[r]?.map Prod.fst := by
    rw [List.getElem?_map, Option.map_map]
    rfl
  simp only [ofNames, hof, show _ = _ from h]

omit [Scalar R] in
theorem SameVariables.sizes_eq (h : SameVariables a b) (t : σ) : b.sizes T t = a.sizes T t := by
  have hnames (s : Scheme R) : (s.requests.flatMap fun q => [q.of, q.wrt]) =
      (s.requests.map fun q => (q.of, q.wrt)).flatMap fun p => [p.1, p.2] := by
    rw [List.flatMap_map]
  simp only [sizes, variableNames, hnames, show _ = _ from h]

theorem SameVariables.readValues_eq (h : SameVariables a b) (t : σ) :
    readValues T b.requests t = readValues T a.requests t := by
  let pair (p : String × String) : Request R := .whole p.1 p.2 Settings.complexStep
  have hread (s : Scheme R) : readValues T s.requests t =
      readValues T ((s.requests.map fun q => (q.of, q.wrt)).map pair) t := by
    rw [readValues, readValues, List.foldlM_map, List.foldlM_map]
    rfl
  rw [hread, hread, show _ = _ from h]

omit [Scalar R] in
theorem SameVariables.activeSet_eq (h : SameVariables a b) (graph : Option DependencyGraph) :
    b.activeSet graph = a.activeSet graph := by
  funext d
  simp only [activeSet, h.ofNames_eq]

end SameVariables

/-- What a direction yields before it is deposited: the step of each seed, and the numerators of the
variables that it serves. -/
def evaluateDirection (T : Target R σ) (frame : Frame R) (d : Direction) (index : Nat) :
    Work R σ (List R × Table String (List R)) := do
  let scheme := (← get).scheme
  let (settings, stencil) ← Action.ofOutcome (.ofOption frame.methods[d.settings]?)
  let perturbations ← Action.ofOutcome
    (d.seeds.mapM (perturbation scheme.site frame.nominal settings))
  let of := scheme.ofNames d.requests
  let active ← Action.ofOutcome (.ofOption frame.cached.active[index]?)
  let numerators ← onTarget <| match stencil with
    | some st => st.difference T perturbations active of frame.baseline
    | none => StepEngine.runIdle T scheme.owner perturbations active of
  return (perturbations.map Perturbation.step, numerators)

/-- A direction is evaluated and then deposited. -/
theorem runDirection_eq (frame : Frame R) (a : Assembler R) (d : Direction) (index : Nat) :
    runDirection T frame a d index = evaluateDirection T frame d index >>= fun x => do
      let deposited := (Assembler.deposit index d x.1 x.2).perform a
      Action.ofOutcome deposited.1
      return deposited.2 := by
  rw [runDirection, evaluateDirection, bind_assoc]
  refine bind_congr fun session => ?_
  rw [bind_assoc]
  refine bind_congr fun method => ?_
  rw [bind_assoc]
  refine bind_congr fun perturbations => ?_
  rw [bind_assoc]
  refine bind_congr fun active => ?_
  rw [bind_assoc]
  exact bind_congr fun numerators => (pure_bind _ _).symm

theorem twins_evaluateDirection (hT : T.Coupled rel) (frame : Frame R) (d : Direction)
    (index : Nat) : Action.Twins (InRole ρ rel) (evaluateDirection T frame d index)
      (evaluateDirection T frame d index) := by
  refine Action.twins_get_bind fun w v hw => ?_
  have hrole := hw.left.trans hw.right.symm
  simp only [role, Role.mk.injEq] at hrole
  obtain ⟨howner, hsite, hrequests, -, -⟩ := hrole
  have hof : w.scheme.ofNames d.requests = v.scheme.ofNames d.requests := by
    simp only [ofNames, hrequests]
  dsimp only
  rw [hsite, howner, hof]
  refine Action.twins_bind (Action.twins_ofOutcome _) fun method => ?_
  obtain ⟨settings, stencil⟩ := method
  refine Action.twins_bind (Action.twins_ofOutcome _) fun perturbations => ?_
  refine Action.twins_bind (Action.twins_ofOutcome _) fun active => ?_
  refine Action.twins_bind (twins_onTarget ?_) fun numerators => Action.twins_pure _
  cases stencil with
  | some st => exact Stencil.twins_difference hT st perturbations active _ frame.baseline
  | none => exact StepEngine.twins_runIdle hT _ perturbations active _

theorem twins_runDirections (hT : T.Coupled rel) (frame : Frame R) (ds : List (Direction × Nat))
    (a : Assembler R) : Action.Twins (InRole ρ rel) (runDirections T frame ds a)
      (runDirections T frame ds a) := by
  induction ds generalizing a with
  | nil => exact Action.twins_pure _
  | cons di rest ih =>
    refine Action.twins_bind ?_ fun a => ih a
    rw [runDirection_eq]
    exact Action.twins_bind (twins_evaluateDirection hT frame di.1 di.2) fun x =>
      Action.twins_bind (Action.twins_ofOutcome _) fun _ => Action.twins_pure _

/-- Plans with the same directions, made for the same sizes. -/
structure Same (c c' : CachedPlan R) : Prop where
  sizes : ∀ n, c'.sizes.get? n = c.sizes.get? n
  plan : c'.plan = c.plan
  active : c'.active = c.active

/-- The evaluation of a rank depends on the directions and the sizes of a plan. -/
theorem Same.evaluateRank_eq {c c' : CachedPlan R} (h : Same c c') (rank ranks : Nat) :
    evaluateRank T c' rank ranks = evaluateRank T c rank ranks := by
  have hstart (requests : List (Request R)) : Assembler.start requests c'.sizes c.plan =
      Assembler.start requests c.sizes c.plan := by
    simp only [Assembler.start, Request.shape_congr h.sizes, Request.rows_congr h.sizes]
  have hrun (methods : List (Settings R × Option (Stencil R)))
      (nominal baseline : Table String (List R)) (ds : List (Direction × Nat)) (a : Assembler R) :
      runDirections T ⟨c', methods, nominal, baseline⟩ ds a =
        runDirections T ⟨c, methods, nominal, baseline⟩ ds a := by
    induction ds generalizing a with
    | nil => rfl
    | cons di rest ih =>
      simp only [runDirections, ih]
      simp only [runDirection, h.active]
  simp only [evaluateRank, hrun, h.plan, hstart]

theorem twins_evaluateRank (hT : T.Coupled rel) (c : CachedPlan R) (rank ranks : Nat) :
    Action.Twins (InRole ρ rel) (evaluateRank T c rank ranks) (evaluateRank T c rank ranks) := by
  refine Action.twins_get_bind fun w v hw => ?_
  have hrole := hw.left.trans hw.right.symm
  simp only [role, Role.mk.injEq] at hrole
  obtain ⟨-, -, hrequests, -, htolerance⟩ := hrole
  dsimp only
  rw [hrequests, htolerance]
  refine Action.twins_bind (Action.twins_ofOutcome _) fun a => ?_
  refine Action.twins_bind (twins_chooseMethods hT _) fun chosen => ?_
  refine Action.twins_bind (Action.twins_ofOutcome _) fun methods => ?_
  refine Action.twins_bind (Action.twins_read fun w v hw => ?_) fun (nominal, baseline) =>
    twins_runDirections hT _ _ _
  rw [show w.scheme.requests = v.scheme.requests from
    congrArg Role.requests (hw.left.trans hw.right.symm), readValues_congr hT hw.target]

section Plans

/-- What a plan for the current requests consists of: sizes, directions, and what each of them
runs. -/
def prospect (T : Target R σ) (s : Scheme R) (t : σ) :
    Outcome (ApproximationError R) (Sizes × Plan R × List ActiveSet) := do
  let sizes ← s.sizes T t
  let plan ← Plan.build s.requests sizes
  let active ← plan.directions.mapM (s.activeSet (T.graph t))
  return (sizes, plan, active)

theorem prospect_congr (hT : T.Coupled rel) {s s' : Scheme R} (hs : s.role = s'.role) {t t' : σ}
    (ht : rel t t') : prospect T s t = prospect T s' t' := by
  have hrequests : s.requests = s'.requests := congrArg Role.requests hs
  have hof (rs : List Nat) : s.ofNames rs = s'.ofNames rs := by simp only [ofNames, hrequests]
  have hactive : s.activeSet (T.graph t) = s'.activeSet (T.graph t') := by
    funext d
    simp only [activeSet, hof, hT.graph ht]
  simp only [prospect, sizes, variableNames, hrequests, hT.size ht, hactive]

/-- **The plan that is taken is the one for the current requests**, kept or new. -/
theorem alike_takePlan (hgraph : ∀ t u, T.graph t = T.graph u) {w : Session R σ}
    (hw : w.scheme.Current T) :
    Action.Alike (fun c p v _ => (∀ n, c.sizes.get? n = p.1.get? n) ∧ c.plan = p.2.1 ∧
        c.active = p.2.2 ∧ v.scheme.role = w.scheme.role ∧ v.target = w.target)
      (fun v _ => v.scheme.role = w.scheme.role ∧ v.target = w.target)
      ((takePlan T).perform w) (prospect T w.scheme w.target, w) := by
  unfold takePlan prospect
  rw [Action.perform_get_bind, Action.perform_bind, Action.perform_ofOutcome]
  rcases hsizes : w.scheme.sizes T w.target with (e | _) | sizes
  · exact .error ⟨rfl, rfl⟩
  · exact .breach
  dsimp only [modifyScheme]
  rw [Action.perform_bind, Action.perform_modify]
  dsimp only
  split
  · rename_i c hc
    -- a kept plan of the same version was made for the same requests, and sizes agree
    obtain ⟨hcache, hfits⟩ := Option.filter_eq_some_iff.1 hc
    obtain ⟨hversion, hsame⟩ := Bool.and_eq_true_iff.1 hfits
    obtain ⟨u, hu⟩ := (hw c hcache).2 (by simpa using hversion)
    obtain ⟨plan, hplan, hactive⟩ := Except.bind_eq_ok.1 hu
    obtain ⟨active, hactive, hmade⟩ := Except.bind_eq_ok.1 hactive
    have hget := Table.get?_eq_of_sameEntries hsame
    rw [hgraph u w.target] at hactive
    rw [Plan.build_congr hget] at hplan
    simp only [bind, Except.bind, hplan, hactive]
    have hc := Except.ok.inj hmade
    exact .value ⟨hget, by rw [← hc], by rw [← hc], rfl, rfl⟩
  · rw [Action.perform_bind, Action.perform_ofOutcome]
    simp only [makePlan, bind, Except.bind]
    rcases Plan.build w.scheme.requests sizes with (e | _) | plan
    · exact .error ⟨rfl, rfl⟩
    · exact .breach
    · dsimp only
      rcases plan.directions.mapM (w.scheme.activeSet (T.graph w.target)) with (e | _) | active
      · exact .error ⟨rfl, rfl⟩
      · exact .breach
      · exact .value ⟨fun _ => rfl, rfl, rfl, rfl, rfl⟩

/-- Schemes in one role whose plans are still current, at work on related targets. -/
structure Ready (T : Target R σ) (ρ : Role R) (rel : σ → σ → Prop) (w v : Session R σ) :
    Prop extends InRole ρ rel w v where
  currentLeft : w.scheme.Current T
  currentRight : v.scheme.Current T

variable (hgraph : ∀ t u, T.graph t = T.graph u)

include hgraph

/-- Schemes in the same role take the same plan. -/
theorem couples_takePlan (hT : T.Coupled rel) :
    Action.Couples (Ready T ρ rel) (fun c c' w v => Same c' c ∧ InRole ρ rel w v) (InRole ρ rel)
      (takePlan T) (takePlan T) := by
  intro w v hwv
  have hw := alike_takePlan hgraph hwv.currentLeft
  have hv := alike_takePlan hgraph hwv.currentRight
  have hrole {w' v' : Session R σ} (hw : w'.scheme.role = w.scheme.role ∧ w'.target = w.target)
      (hv : v'.scheme.role = v.scheme.role ∧ v'.target = v.target) : InRole ρ rel w' v' :=
    ⟨hw.1.trans hwv.left, hv.1.trans hwv.right, hw.2 ▸ hv.2 ▸ hwv.target⟩
  rw [prospect_congr hT (hwv.left.trans hwv.right.symm) hwv.target] at hw
  generalize (takePlan T).perform w = r at hw
  generalize (takePlan T).perform v = q at hv
  rcases hp : prospect T v.scheme v.target with (e | _) | p <;> rw [hp] at hw hv <;> cases hw <;>
    cases hv
  · exact .error (hrole ‹_› ‹_›)
  · exact .breach
  · rename_i hw _ _ hv
    obtain ⟨hws, hwp, hwa, hw⟩ := hw
    obtain ⟨hvs, hvp, hva, hv⟩ := hv
    exact .value ⟨⟨fun n => (hws n).trans (hvs n).symm, hwp.trans hvp.symm, hwa.trans hva.symm⟩,
      hrole hw hv⟩

theorem couples_computePartition (hT : T.Coupled rel) (rank ranks : Nat) :
    Action.Couples (Ready T ρ rel) (fun a b w v => a = b ∧ InRole ρ rel w v) (InRole ρ rel)
      (computePartition T rank ranks) (computePartition T rank ranks) := by
  refine Action.couples_bind (couples_takePlan hgraph hT) fun c c' => ?_
  intro w v ⟨hsame, hwv⟩
  rw [hsame.evaluateRank_eq]
  have h : Action.Twins (InRole ρ rel)
      (Action.attempt (evaluateRank T c' rank ranks) >>= fun result =>
        keepPlan c >>= fun _ => (Action.ofOutcome (.ofExcept result) : Work R σ (Assembler R)))
      (Action.attempt (evaluateRank T c' rank ranks) >>= fun result =>
        keepPlan c' >>= fun _ => Action.ofOutcome (.ofExcept result)) :=
    Action.twins_bind (Action.twins_attempt (twins_evaluateRank hT c' rank ranks)) fun result =>
      Action.twins_bind (twins_modifyScheme (fun _ => rfl) fun _ => rfl) fun _ =>
        Action.twins_ofOutcome _
  exact h w v hwv

omit hgraph in
/-- A lenient scheme only makes notes of what was found outside patterns. -/
theorem perform_applyPolicy (mismatches : List (Mismatch R)) {w : Session R σ}
    (hw : w.scheme.policy ≠ .reject) :
    ∃ diagnostics, (applyPolicy mismatches : Work R σ Unit).perform w =
      (.ok (), { w with diagnostics := diagnostics }) := by
  induction mismatches generalizing w with
  | nil => exact ⟨_, rfl⟩
  | cons m rest ih =>
    unfold applyPolicy
    rw [Action.perform_get_bind]
    dsimp only
    split
    · exact ⟨_, rfl⟩
    · exact ih hw
    · exact absurd ‹_› hw

omit hgraph in
/-- What a lenient scheme makes of a complete assembler. -/
theorem perform_finish {a : Assembler R} {j : Jacobian R} {mismatches : List (Mismatch R)}
    (h : a.finish = .ok (j, mismatches)) {w : Session R σ} (hw : w.scheme.policy ≠ .reject) :
    ∃ v, (finish a : Work R σ (Jacobian R)).perform w = (.ok j, v) ∧
      v.scheme.role = w.scheme.role ∧ v.target = w.target ∧ v.scheme.mismatches = mismatches := by
  simp only [finish, h, Outcome.ofExcept]
  rw [Action.perform_bind, Action.perform_ofOutcome]
  dsimp only
  rw [Action.perform_get_bind]
  dsimp only [modifyScheme]
  rw [Action.perform_bind, Action.perform_modify]
  dsimp only
  split
  · obtain ⟨diagnostics, hpolicy⟩ := perform_applyPolicy mismatches (w := { w with
      scheme := { w.scheme with
        computations := w.scheme.computations + 1, mismatches := mismatches } }) hw
    rw [Action.perform_bind, hpolicy]
    exact ⟨_, rfl, rfl, rfl, rfl⟩
  · exact ⟨_, rfl, rfl, rfl, rfl⟩

omit hgraph in
theorem twins_finish (hρ : ρ.policy ≠ .reject) (a : Assembler R) :
    Action.Twins (InRole ρ rel) (finish a : Work R σ (Jacobian R)) (finish a) := by
  intro w v hwv
  cases hfinish : a.finish with
  | error e =>
    simp only [finish, hfinish, Outcome.ofExcept]
    exact .error hwv
  | ok result =>
    obtain ⟨j, mismatches⟩ := result
    have hpolicy {u : Session R σ} (hu : u.scheme.role = ρ) : u.scheme.policy ≠ .reject := by
      rw [← hu] at hρ
      exact hρ
    obtain ⟨w', hw', hrole, htarget, -⟩ := perform_finish hfinish (hpolicy hwv.left)
    obtain ⟨v', hv', hrole', htarget', -⟩ := perform_finish hfinish (hpolicy hwv.right)
    rw [hw', hv']
    refine .value ⟨rfl, hrole.trans hwv.left, hrole'.trans hwv.right, ?_⟩
    rw [htarget, htarget']
    exact hwv.target

/-- **Computations of schemes in one role, on related targets, answer the same.** -/
theorem twins_computeJacobian (hT : T.Coupled rel) (hρ : ρ.policy ≠ .reject) :
    Action.Twins (Ready T ρ rel) (computeJacobian T) (computeJacobian T) := by
  intro w v hwv
  have hwork : Action.Couples (Ready T ρ rel) (fun x y w v => x = y ∧ InRole ρ rel w v)
      (InRole ρ rel) (computeJacobian T) (computeJacobian T) := by
    refine Action.couples_bind (couples_computePartition hgraph hT 0 1) fun a b => ?_
    rintro w v ⟨rfl, hwv⟩
    exact twins_finish hρ a w v hwv
  have h := hwork w v hwv
  have hw := preserves_current_computeJacobian (T := T) w hwv.currentLeft
  have hv := preserves_current_computeJacobian (T := T) v hwv.currentRight
  generalize (computeJacobian T).perform w = r at h hw
  generalize (computeJacobian T).perform v = q at h hv
  cases h with
  | value h => exact .value ⟨h.1, h.2, hw (by simp), hv (by simp)⟩
  | error h => exact .error ⟨h, hw (by simp), hv (by simp)⟩
  | breach => exact .breach

end Plans

section Furnished

/-- Adding requests depends on their settings alone. -/
theorem addRequests_cases (qs : List (Request R)) :
    ((∃ q ∈ qs, q.settings.validate ≠ .ok ()) ∧ ∃ e, ∀ s : Scheme R, s.addRequests qs = .error e) ∨
      (∀ q ∈ qs, q.settings.validate = .ok ()) ∧ ∀ s : Scheme R, ∃ s', s.addRequests qs = .ok s' ∧
        s'.role = { s.role with requests := s.requests ++ qs } := by
  induction qs with
  | nil => exact .inr ⟨by simp, fun s => ⟨s, rfl, by simp [role]⟩⟩
  | cons q rest ih =>
    cases hq : q.settings.validate with
    | error issue =>
      refine .inl ⟨⟨q, List.mem_cons_self, by simp [hq]⟩, .declaration (.setting issue), fun s => ?_⟩
      simp only [addRequests, List.foldlM_cons, addRequest, hq]
      rfl
    | ok u =>
      have hstep (s : Scheme R) : s.addRequests (q :: rest) =
          ({ s with requests := s.requests ++ [q], version := s.version + 1 } :
            Scheme R).addRequests rest := by
        simp only [addRequests, List.foldlM_cons, addRequest, hq]
        rfl
      rcases ih with ⟨⟨q', hq', hinvalid⟩, e, he⟩ | ⟨hvalid, hok⟩
      · exact .inl ⟨⟨q', List.mem_cons_of_mem q hq', hinvalid⟩, e, fun s => (hstep s).trans (he _)⟩
      · refine .inr ⟨List.forall_mem_cons.2 ⟨hq, hvalid⟩, fun s => ?_⟩
        obtain ⟨s', hs', hrole⟩ := hok { s with
          requests := s.requests ++ [q], version := s.version + 1 }
        refine ⟨s', (hstep s).trans hs', hrole.trans ?_⟩
        simp [role]

/-- Adding requests changes nothing else of the role of a scheme. -/
theorem role_of_addRequests {s t : Scheme R} {qs : List (Request R)}
    (h : s.addRequests qs = .ok t) : t.role = { s.role with requests := s.requests ++ qs } := by
  rcases addRequests_cases qs with ⟨-, e, he⟩ | ⟨-, hok⟩
  · rw [he] at h
    cases h
  · obtain ⟨t', ht', hrole⟩ := hok s
    obtain rfl := Except.ok.inj (h.symm.trans ht')
    exact hrole

/-- A scheme that differs from a bare one by valid requests, as far as its role goes. -/
structure Furnished (bare s : Scheme R) : Prop where
  role_eq : s.role = { bare.role with requests := s.requests }
  valid : ∀ q ∈ s.requests, q.settings.validate = .ok ()

theorem furnished_empty (owner : String) (site : Site R) (policy : PatternPolicy) :
    Furnished (.empty owner site policy) (.empty owner site policy) :=
  ⟨rfl, fun _ h => absurd h List.not_mem_nil⟩

/-- The requests of a scheme are changed in the same way whatever it had before. -/
theorem clearRequests_cases (bare : Scheme R) (qs : List (Request R)) :
    (∃ q ∈ qs, q.settings.validate ≠ .ok ()) ∧
        (∃ e, ∀ s : Scheme R, s.clearRequests.addRequests qs = .error e) ∨
      ∀ s : Scheme R, bare.Furnished s →
        ∃ s', s.clearRequests.addRequests qs = .ok s' ∧ bare.Furnished s' ∧ s'.requests = qs := by
  rcases addRequests_cases qs with ⟨hinvalid, e, he⟩ | ⟨hvalid, hok⟩
  · exact .inl ⟨hinvalid, e, fun s => he s.clearRequests⟩
  · refine .inr fun s hs => ?_
    obtain ⟨s', hs', hrole⟩ := hok s.clearRequests
    have hrequests : s'.requests = qs := congrArg Role.requests hrole
    refine ⟨s', hs', ⟨?_, hrequests ▸ hvalid⟩, hrequests⟩
    have hkept : s.clearRequests.role = { bare.role with requests := [] } := by
      have := congrArg (fun ρ => ({ ρ with requests := [] } : Role R)) hs.role_eq
      exact this
    rw [hrole, hkept, hrequests]
    rfl

end Furnished

end Scheme

end Sensitivity
