import Sensitivity.Proofs.Approximation.Merging
import Sensitivity.Proofs.Approximation.Tracing

/-!
# What a computation evaluates

A computation makes the evaluations of its plan and no others: those of one direction after another, a
direction at the points of its stencil or once for a complex step (`Scheme.plannedEvaluations`). They
are made in this order until something fails, and an evaluation that fails is the last one
(`Performed`). Work on the notes of a traced target composes as its plans do (`Made`), up to whole
computations (`Scheme.made_computeJacobian`).

The faults that are noted are those of the target (`Scheme.fault_of_noted`). What the target counts of
its evaluations, and nothing else changes, has been counted once for each note when nothing failed
(`Scheme.meter_of_computeJacobian`).
-/

namespace Sensitivity

variable {R σ : Type}

/-- What was made of planned evaluations. They are made in order until one fails, which is the last
one, or until something between them does; with no fault all of them are made. -/
inductive Performed : List Trial → List (Evaluation R) → Option (Fault (ApproximationError R)) → Prop
  | done : Performed [] [] none
  | stop (plan : List Trial) (f : Fault (ApproximationError R)) : Performed plan [] (some f)
  | fail (trial : Trial) (rest : List Trial) (f : Fault (ApproximationError R)) :
      Performed (trial :: rest) [⟨trial, some f⟩] (some f)
  | next (trial : Trial) {rest : List Trial} {made : List (Evaluation R)}
      {fault : Option (Fault (ApproximationError R))} (h : Performed rest made fault) :
      Performed (trial :: rest) (⟨trial, none⟩ :: made) fault

namespace Performed

variable {plan plan' : List Trial} {made made' : List (Evaluation R)}
  {fault fault' : Option (Fault (ApproximationError R))} {f : Fault (ApproximationError R)}

/-- Without a fault everything is made as planned. -/
theorem eq_map (h : Performed plan made fault) (hfault : fault = none) :
    made = plan.map fun trial => ⟨trial, none⟩ := by
  induction h with
  | done => rfl
  | stop => cases hfault
  | fail => cases hfault
  | next trial _ ih => rw [ih hfault, List.map_cons]

/-- What comes after evaluations that were all made. -/
theorem append (h : Performed plan made fault) (hfault : fault = none)
    (h' : Performed plan' made' fault') : Performed (plan ++ plan') (made ++ made') fault' := by
  induction h with
  | done => exact h'
  | stop => cases hfault
  | fail => cases hfault
  | next trial _ ih => exact .next trial (ih hfault)

/-- After a fault nothing of what was planned for later is made. -/
theorem append_of_fault (h : Performed plan made fault) (hfault : fault = some f)
    (plan' : List Trial) : Performed (plan ++ plan') made fault := by
  induction h with
  | done => cases hfault
  | stop plan g => exact .stop _ g
  | fail trial rest g => exact .fail trial (rest ++ plan') g
  | next trial _ ih => exact .next trial (ih hfault)

/-- Evaluations are made in the order in which they are planned. -/
theorem isPrefix (h : Performed plan made fault) : made.map Evaluation.toTrial <+: plan := by
  induction h with
  | done => exact List.prefix_refl []
  | stop plan f => exact List.nil_prefix
  | fail trial rest f => exact (List.prefix_cons_inj _).2 List.nil_prefix
  | next trial _ ih => exact (List.prefix_cons_inj _).2 ih

/-- **An evaluation that fails is the last one**, and the computation fails as it did. -/
theorem of_failed (h : Performed plan made fault) {k : Nat} {e : Evaluation R}
    (he : made[k]? = some e) (hf : e.fault = some f) : made.length = k + 1 ∧ fault = some f := by
  induction h generalizing k with
  | done => cases he
  | stop => cases he
  | fail trial rest g =>
    cases k with
    | zero =>
      cases he
      exact ⟨rfl, hf⟩
    | succ k => cases he
  | next trial _ ih =>
    cases k with
    | zero =>
      cases he
      cases hf
    | succ k =>
      obtain ⟨hlength, hfault⟩ := ih he
      exact ⟨congrArg Nat.succ hlength, hfault⟩

end Performed

/-- Work that went from a state to `r` made evaluations of a plan. It began where the entries `before`
were perturbed, and where it comes to a value the entries `after` are. `notes` reads the notes of a
state. -/
def Made {α : Type} (notes : σ → Notes R) (before after : List (String × Nat)) (plan : List Trial)
    (s : σ) (r : Outcome (ApproximationError R) α × σ) : Prop :=
  (notes s).perturbed = before →
    ∃ made, (notes r.2).evaluations = (notes s).evaluations ++ made ∧
      Performed plan made r.1.fault? ∧ (r.1.fault? = none → (notes r.2).perturbed = after)

namespace Made

variable {α β : Type} {notes : σ → Notes R} {b c d : List (String × Nat)} {plan plan' : List Trial}
  {a : Action σ (ApproximationError R) α} {s : σ}

/-- An error without an evaluation leaves any plan where it is. -/
theorem of_error {f : Fault (ApproximationError R)} {t : σ}
    (h : (notes t).evaluations = (notes s).evaluations) :
    Made notes b c plan s ((.error f, t) : Outcome (ApproximationError R) α × σ) := fun _ =>
  ⟨[], by rw [h, List.append_nil], .stop plan f, fun hnone => by cases hnone⟩

/-- Work that makes no evaluation. -/
theorem of_silent {r : Outcome (ApproximationError R) α × σ}
    (h : (notes r.2).evaluations = (notes s).evaluations)
    (hperturbed : (notes s).perturbed = b → (notes r.2).perturbed = c) : Made notes b c [] s r := by
  obtain ⟨f | x, t⟩ := r
  · exact of_error h
  · exact fun hb => ⟨[], by rw [h, List.append_nil], .done, fun _ => hperturbed hb⟩

/-- Work that changes no notes. -/
theorem of_quiet {r : Outcome (ApproximationError R) α × σ} (h : notes r.2 = notes s) :
    Made notes b b [] s r :=
  of_silent (congrArg Notes.evaluations h) fun hb => (congrArg Notes.perturbed h).trans hb

/-- The second part of a sequence makes the evaluations that are planned behind those of the first. -/
theorem bind {f : α → Action σ (ApproximationError R) β} (ha : Made notes b c plan s (a.perform s))
    (hf : ∀ x t, a.perform s = (.ok x, t) → Made notes c d plan' t ((f x).perform t)) :
    Made notes b d (plan ++ plan') s ((a >>= f).perform s) := by
  intro hb
  rw [Action.perform_bind]
  rcases hr : a.perform s with ⟨g | x, t⟩ <;> rw [hr] at ha <;>
    obtain ⟨made, hnotes, hmade, hc⟩ := ha hb
  · exact ⟨made, hnotes, hmade.append_of_fault rfl plan', fun hnone => by cases hnone⟩
  · obtain ⟨made', hnotes', hmade', hd⟩ := hf x t hr (hc rfl)
    refine ⟨made ++ made', ?_, hmade.append rfl hmade', hd⟩
    rw [hnotes', ← List.append_assoc]
    exact congrArg (· ++ made') hnotes

/-- What comes after work that changes no notes. -/
theorem quiet_bind {f : α → Action σ (ApproximationError R) β} (ha : notes (a.perform s).2 = notes s)
    (hf : ∀ x t, a.perform s = (.ok x, t) → Made notes b c plan t ((f x).perform t)) :
    Made notes b c plan s ((a >>= f).perform s) := (of_quiet ha).bind hf

/-- What comes before work that changes no notes. -/
theorem bind_quiet {f : α → Action σ (ApproximationError R) β}
    (ha : Made notes b c plan s (a.perform s)) (hf : ∀ x t, notes ((f x).perform t).2 = notes t) :
    Made notes b c plan s ((a >>= f).perform s) := by
  rw [← List.append_nil plan]
  exact ha.bind fun x t _ => of_quiet (hf x t)

/-- Work on a part of the state that holds the notes. -/
theorem on {τ : Type} {part : τ → σ} {back : τ → σ → τ} {n : τ → Notes R} {t : τ}
    (h : Made notes b c plan (part t) (a.perform (part t))) (hpart : n t = notes (part t))
    (hback : ∀ u, n (back t u) = notes u) : Made n b c plan t ((a.on part back).perform t) := by
  intro hb
  obtain ⟨made, hnotes, hmade, hc⟩ := h (hpart ▸ hb)
  refine ⟨made, ?_, hmade, fun hnone => ?_⟩
  · rw [Action.perform_on, hback, hnotes, hpart]
  · rw [Action.perform_on, hback]
    exact hc hnone

/-- Work that is attempted before something else that makes no evaluation and does not fail. -/
theorem attempt_bind {f : Except (ApproximationError R) α → Action σ (ApproximationError R) Unit}
    (ha : Made notes b c plan s (a.perform s))
    (hf : ∀ x t, (Action.attempt a : Action σ (ApproximationError R) _).perform s = (.ok x, t) →
      ∃ u, (f x).perform t = (.ok (), u) ∧ (notes u).evaluations = (notes t).evaluations ∧
        ((notes t).perturbed = c → (notes u).perturbed = d)) :
    Made notes b d plan s ((Action.attempt a >>= fun x => f x >>= fun _ =>
      Action.ofOutcome (.ofExcept x)).perform s) := by
  intro hb
  rw [Action.perform_bind]
  simp only [Action.attempt, Action.perform_of] at hf ⊢
  rcases hr : a.perform s with ⟨(e | _) | x, t⟩ <;> rw [hr] at ha <;> simp only [hr] at hf ⊢ <;>
    obtain ⟨made, hnotes, hmade, hc⟩ := ha hb
  · obtain ⟨u, hu, hevaluations, -⟩ := hf _ _ rfl
    rw [Action.perform_bind, hu]
    exact ⟨made, hevaluations.trans hnotes, hmade, fun hnone => by cases hnone⟩
  · exact ⟨made, hnotes, hmade, fun hnone => by cases hnone⟩
  · obtain ⟨u, hu, hevaluations, hd⟩ := hf _ _ rfl
    rw [Action.perform_bind, hu]
    exact ⟨made, hevaluations.trans hnotes, hmade, fun _ => hd (hc rfl)⟩

/-- Perturbations are noted one after another. -/
theorem forEach {perturbations : List (Perturbation R)}
    {p : Perturbation R → Action σ (ApproximationError R) Unit}
    (hp : ∀ x b s, Made notes b (b ++ [(x.name, x.index)]) [] s ((p x).perform s))
    (b : List (String × Nat)) (s : σ) :
    Made notes b (b ++ perturbations.map fun x => (x.name, x.index)) [] s
      ((Action.forEach perturbations p).perform s) := by
  induction perturbations generalizing b s with
  | nil =>
    rw [List.map_nil, List.append_nil]
    exact of_quiet rfl
  | cons x rest ih =>
    rw [List.map_cons, List.append_cons]
    exact (hp x b s).bind fun _ t _ => ih _ t

end Made

/-- Work that keeps a view whether or not it answers. -/
theorem Action.eq_of_sustains {ε α γ : Type} (view : σ → γ) {a : Action σ ε α}
    (h : ∀ c, a.Sustains (fun s => view s = c) fun s => view s = c) (s : σ) :
    view (a.perform s).2 = view s := (h (view s) s rfl).of_imp fun _ h => h

section Traced

variable {T : Target R σ}

theorem Target.made_perturb_traced (name : String) (index : Nat) (delta : Delta R)
    (b : List (String × Nat)) (s : σ × Notes R) :
    Made Prod.snd b (b ++ [(name, index)]) [] s ((T.traced.perturb name index delta).perform s) :=
  Made.of_silent rfl fun hb => congrArg (· ++ [(name, index)]) hb

theorem Target.made_evaluate_traced (active : ActiveSet) (mode : Mode) (b : List (String × Nat))
    (s : σ × Notes R) :
    Made Prod.snd b b [⟨b, active, mode⟩] s ((T.traced.evaluate active mode).perform s) := by
  intro hb
  subst hb
  refine ⟨[⟨⟨s.2.perturbed, active, mode⟩, ((T.evaluate active mode).perform s.1).1.fault?⟩], rfl, ?_,
    fun _ => rfl⟩
  simp only [traced, Action.perform_of]
  rcases ((T.evaluate active mode).perform s.1).1 with f | x
  · exact .fail _ [] f
  · exact .next _ .done

variable [Scalar R]

namespace Stencil

/-- The points of a stencil are evaluated one after another, each from where the first one began. -/
theorem made_sumPoints {b : List (String × Nat)} {saved : σ × Notes R}
    (hsaved : saved.2.perturbed = b) (perturbations : List (Perturbation R)) (active : ActiveSet)
    (of : List String) (points : List (R × R)) (sums : Table String (List R)) (s : σ × Notes R) :
    Made Prod.snd b b (List.replicate points.length
      ⟨b ++ perturbations.map fun p => (p.name, p.index), active, .real⟩) s
        ((sumPoints T.traced saved perturbations active of points sums).perform s) := by
  induction points generalizing sums s with
  | nil => exact Made.of_quiet rfl
  | cons point rest ih =>
    let perturbed := b ++ perturbations.map fun p => (p.name, p.index)
    have hpoint : Made Prod.snd b perturbed [⟨perturbed, active, .real⟩] s
        ((evaluatePoint T.traced perturbations point.1 active of).perform s) :=
      (Made.forEach (fun p => Target.made_perturb_traced p.name p.index _) b s).bind fun _ t _ =>
        (Target.made_evaluate_traced active .real perturbed t).bind_quiet fun _ _ => rfl
    have hrestored : Made Prod.snd b b [⟨perturbed, active, .real⟩] s ((T.traced.thenRestore saved
        (evaluatePoint T.traced perturbations point.1 active of)).perform s) := by
      intro hb
      obtain ⟨made, hnotes, hmade, -⟩ := hpoint hb
      exact ⟨made, hnotes, hmade, fun _ => hsaved⟩
    exact hrestored.bind fun _ t _ => ih _ t

theorem made_difference (st : Stencil R) (perturbations : List (Perturbation R)) (active : ActiveSet)
    (of : List String) (baseline : Table String (List R)) (b : List (String × Nat))
    (s : σ × Notes R) :
    Made Prod.snd b b (List.replicate st.evaluations
      ⟨b ++ perturbations.map fun p => (p.name, p.index), active, .real⟩) s
        ((st.difference T.traced perturbations active of baseline).perform s) := by
  intro hb
  refine Made.quiet_bind rfl (fun start t ht => ?_) hb
  obtain rfl : s = t := congrArg Prod.snd ht
  exact (made_sumPoints hb perturbations active of st.points start s).bind_quiet fun _ _ => rfl

end Stencil

namespace StepEngine

/-- A complex step evaluates once, and ends whether or not that succeeds. -/
theorem made_runIdle (owner : String) (perturbations : List (Perturbation R)) (active : ActiveSet)
    (of : List String) (b : List (String × Nat)) (s : σ × Notes R) :
    Made Prod.snd b b [⟨b ++ perturbations.map fun p => (p.name, p.index), active, .complex⟩] s
      ((runIdle T.traced owner perturbations active of).perform s) := by
  intro hb
  let notes (d : Driven (σ × Notes R)) := d.target.2
  let perturbed := b ++ perturbations.map fun p => (p.name, p.index)
  have hperturb (p : Perturbation R) (b : List (String × Nat)) (d : Driven (σ × Notes R)) :
      Made notes b (b ++ [(p.name, p.index)]) [] d
        ((onTarget (T.traced.perturb p.name p.index (.imag p.step))).perform d) :=
    Made.on (Target.made_perturb_traced p.name p.index _ b d.target) rfl fun _ => rfl
  have hstart (d : Driven (σ × Notes R)) : Made notes b perturbed [] d
      ((start T.traced owner perturbations).perform d) :=
    Made.quiet_bind rfl fun _ _ _ => Made.quiet_bind rfl fun _ d _ => Made.forEach hperturb b d
  have hread (c : Notes R) : (onTarget (T.traced.readAll of .imag)).Sustains
      (fun d => notes d = c) fun d => notes d = c :=
    fun _ h => .inl h
  have hcapture (d : Driven (σ × Notes R)) : Made notes perturbed perturbed
      [⟨perturbed, active, .complex⟩] d ((capture T.traced active of).perform d) :=
    Made.quiet_bind rfl fun _ d _ => Made.bind_quiet
      (Made.on (Target.made_evaluate_traced active .complex perturbed d.target) rfl fun _ => rfl)
      fun _ => Action.eq_of_sustains notes fun c => Action.sustains_bind (hread c) fun _ =>
        Action.sustains_bind (Action.sustains_modify fun _ h => h) fun _ => Action.sustains_pure _
  have hrun : Made notes b b [⟨perturbed, active, .complex⟩] ⟨idle, s⟩
      ((run T.traced owner perturbations active of).perform ⟨idle, s⟩) := by
    refine Made.attempt_bind (f := fun _ => finish T.traced)
      ((hstart _).bind fun _ d _ => hcapture d) fun x d hd => ?_
    have hway := underWay_attempt (T := T.traced) s owner perturbations active of
    rw [hd] at hway
    obtain ⟨hphase, hsaved, -⟩ := hway (Outcome.answers_ok x)
    dsimp only at hphase hsaved
    have hbusy : (decide (d.engine.phase ≠ .idle)) = true := by simpa using hphase
    refine ⟨⟨idle, T.traced.leave (T.traced.restore s d.target)⟩, ?_, rfl, fun _ => hb⟩
    simp only [finish, require, Action.perform_bind, Action.perform_read, hbusy, if_true,
      Action.perform_modify, hsaved]
  exact hrun.on rfl (fun _ => rfl) hb

end StepEngine

/-- The entries that a direction perturbs. -/
def Direction.entries (d : Direction) : List (String × Nat) := d.seeds.map fun s => (s.wrt, s.index)

namespace Scheme

/-- The number of evaluations that a direction takes: the points of the stencil of its settings, or a
single one for a complex step. -/
def pointCount (s : Settings R) : Nat :=
  match stencil s with
  | .ok (some st) => st.evaluations
  | .ok none => 1
  | .error _ => 0

/-- **A complex step takes one evaluation, and so does what stands in for it.** -/
theorem pointCount_settingsAt {own : Settings R} (h : own.method = .complexStep) (T : Target R σ)
    (t : σ) : pointCount (settingsAt T t own) = 1 := by
  unfold settingsAt
  rw [if_neg (by rw [h]; decide)]
  split
  · rfl
  · simp only [pointCount, stencil, h]

/-- **A difference takes an evaluation at each point of its stencil**, and none at the point that they
are taken around. -/
theorem pointCount_of_form {own : Settings R} (h : own.method = .finiteDifference) {st : Stencil R}
    (hform : (Stencil.ofForm own.form own.resolvedOrder : Except (ApproximationError R) _) = .ok st)
    (T : Target R σ) (t : σ) : pointCount (settingsAt T t own) = st.points.length := by
  rw [settingsAt, if_pos h]
  simp only [pointCount, stencil, h, hform]
  rfl

/-- The arithmetic of the evaluations along a direction. -/
def arithmetic (s : Settings R) : Mode :=
  match s.method with
  | .finiteDifference => .real
  | .complexStep => .complex

/-- The evaluations along a direction, with the settings that are used at a state. -/
def plannedFor (T : Target R σ) (t : σ) (c : CachedPlan R) (d : Direction × Nat) : List Trial :=
  match c.plan.settings[d.1.settings]?, c.active[d.2]? with
  | some own, some active => List.replicate (pointCount (settingsAt T t own))
      ⟨d.1.entries, active, arithmetic (settingsAt T t own)⟩
  | _, _ => []

/-- Differences have a stencil, complex steps have none. -/
theorem method_of_stencil {own : Settings R} {found : Option (Stencil R)}
    (h : stencil own = .ok found) :
    own.method = if found.isSome then .finiteDifference else .complexStep := by
  cases hmethod : own.method with
  | complexStep =>
    simp only [stencil, hmethod] at h
    cases h
    rfl
  | finiteDifference =>
    simp only [stencil, hmethod] at h
    cases hform : (Stencil.ofForm own.form own.resolvedOrder : Except (ApproximationError R) _) with
    | error e =>
      rw [hform] at h
      cases h
    | ok st =>
      rw [hform] at h
      cases h
      rfl

/-- What a direction measures takes the evaluations of its settings. -/
theorem made_measurement (own : Settings R) (found : Option (Stencil R)) (owner : String)
    (perturbations : List (Perturbation R)) (active : ActiveSet) (of : List String)
    (baseline : Table String (List R)) (s : σ × Notes R) : stencil own = .ok found →
    Made Prod.snd [] [] (List.replicate (pointCount own)
      ⟨perturbations.map fun p => (p.name, p.index), active, arithmetic own⟩) s
        ((match found with
          | some st => st.difference T.traced perturbations active of baseline
          | none => StepEngine.runIdle T.traced owner perturbations active of).perform s) := by
  intro hfound
  have hmethod := method_of_stencil hfound
  cases found with
  | some st =>
    simp only [pointCount, hfound, arithmetic, hmethod]
    exact Stencil.made_difference st perturbations active of baseline [] s
  | none =>
    simp only [pointCount, hfound, arithmetic, hmethod]
    exact StepEngine.made_runIdle owner perturbations active of [] s

/-- The notes of a scheme at work are those of its target. -/
def notes (w : Session R (σ × Notes R)) : Notes R := w.target.2

variable {c : CachedPlan R} {w : Session R (σ × Notes R)}

theorem entries_of_perturbations {site : Site R} {nominal : Table String (List R)}
    {used : Settings R} {d : Direction} {perturbations : List (Perturbation R)}
    (h : d.seeds.mapM (perturbation site nominal used) = .ok perturbations) :
    perturbations.map (fun p => (p.name, p.index)) = d.entries := by
  rw [Direction.entries, ← List.forall₂_eq_eq_eq, List.forall₂_map_left_iff,
    List.forall₂_map_right_iff]
  exact (Except.mapM_eq_ok.1 h).flip.imp fun p seed hp =>
    Prod.ext (entry_of_perturbation hp).1 (entry_of_perturbation hp).2

theorem made_runDirection {frame : Frame R} {t : σ}
    (hmethods : (frame.cached.plan.settings.map (settingsAt T t)).mapM (fun v => do
      return (v, ← stencil v)) = .ok frame.methods) (a : Assembler R) (d : Direction × Nat)
    (w : Session R (σ × Notes R)) :
    Made notes [] [] (plannedFor T t frame.cached d) w
      ((runDirection T.traced frame a d.1 d.2).perform w) := by
  unfold runDirection
  refine Made.quiet_bind rfl fun _ w _ => ?_
  refine Made.quiet_bind rfl fun (used, found) w hused => ?_
  refine Made.quiet_bind rfl fun perturbations w hperturbations => ?_
  refine Made.quiet_bind rfl fun active w hactive => ?_
  obtain ⟨hsettings, hfound⟩ := getElem?_of_methods hmethods
    ((Outcome.ofOption_eq_ok _ _).1 (congrArg Prod.fst hused))
  obtain ⟨own, hown, rfl⟩ := Option.map_eq_some_iff.1 (List.getElem?_map ▸ hsettings)
  have hplanned : plannedFor T t frame.cached d = List.replicate
      (pointCount (settingsAt T t own)) ⟨perturbations.map fun p => (p.name, p.index), active,
        arithmetic (settingsAt T t own)⟩ := by
    simp only [plannedFor, hown, (Outcome.ofOption_eq_ok _ _).1 (congrArg Prod.fst hactive),
      entries_of_perturbations (congrArg Prod.fst hperturbations)]
  rw [hplanned]
  refine Made.bind_quiet (Made.on (n := notes) (made_measurement _ _ _ _ _ _ _ _ hfound) rfl
    fun _ => rfl) fun numerators u => ?_
  rcases (Assembler.deposit d.2 d.1 (perturbations.map Perturbation.step) numerators).perform a with
    ⟨_ | _, _⟩ <;> rfl

theorem made_runDirections {frame : Frame R} {t : σ}
    (hmethods : (frame.cached.plan.settings.map (settingsAt T t)).mapM (fun v => do
      return (v, ← stencil v)) = .ok frame.methods) (ds : List (Direction × Nat)) (a : Assembler R)
    (w : Session R (σ × Notes R)) :
    Made notes [] [] (ds.flatMap (plannedFor T t frame.cached)) w
      ((runDirections T.traced frame ds a).perform w) := by
  induction ds generalizing a w with
  | nil => exact Made.of_quiet rfl
  | cons d rest ih =>
    rw [List.flatMap_cons]
    exact (made_runDirection hmethods a d w).bind fun a w _ => ih a w

/-- **The evaluations of a rank** are those of its directions, one direction after another. -/
theorem made_evaluateRank (c : CachedPlan R) (rank ranks : Nat) (w : Session R (σ × Notes R)) :
    Made notes [] [] ((c.plan.directionsFor rank ranks).flatMap (plannedFor T w.target.1 c)) w
      ((evaluateRank T.traced c rank ranks).perform w) := by
  obtain ⟨u, hu, hsession⟩ := perform_chooseMethods (T := T.traced) c.plan.settings w
  have hnotes : notes u = notes w := congrArg (fun x => x.2.2) hsession
  unfold evaluateRank
  refine Made.quiet_bind rfl fun _ w' hw => ?_
  cases hw
  refine Made.quiet_bind rfl fun a w' ha => ?_
  obtain rfl : w = w' := congrArg Prod.snd ha
  refine Made.quiet_bind (by rw [hu]; exact hnotes) fun chosen v hv => ?_
  cases hu.symm.trans hv
  refine Made.quiet_bind rfl fun methods v hmethods => ?_
  refine Made.quiet_bind rfl fun (nominal, baseline) v _ => ?_
  have hmethods := (Outcome.ofExcept_eq_ok _ _).1 (congrArg Prod.fst hmethods)
  exact made_runDirections hmethods _ _ v

/-- Taking a plan leaves the target alone. -/
theorem target_of_takePlan (U : Target R σ) (w : Session R σ) :
    ((takePlan U).perform w).2.target = w.target := by
  refine Action.eq_of_sustains Session.target (fun t => ?_) w
  refine Action.sustains_bind Action.sustains_get fun w => ?_
  refine Action.sustains_bind (Action.sustains_ofOutcome _) fun sizes => ?_
  refine Action.sustains_bind (Action.sustains_modify fun _ h => h) fun _ => ?_
  dsimp only
  split
  · exact Action.sustains_pure _
  · exact Action.sustains_bind (Action.sustains_ofOutcome _) fun c =>
      Action.sustains_bind (Action.sustains_modify fun _ h => h) fun _ => Action.sustains_pure _

/-- The evaluations that are planned for a computation: those of all directions of its plan. -/
def plannedEvaluations (T : Target R σ) (w : Session R σ) : List Trial :=
  match ((takePlan T).perform w).1 with
  | .ok c => c.plan.directions.zipIdx.flatMap (plannedFor T w.target c)
  | .error _ => []

/-- **A computation makes the evaluations of its plan**, in their order, until something fails. -/
theorem made_computeJacobian (w : Session R (σ × Notes R)) :
    Made notes [] [] (plannedEvaluations T (w.image Prod.fst)) w
      ((computeJacobian T.traced).perform w) := by
  have hmirror := mirrors_takePlan (Target.mirrored_traced T) w
  have htarget := target_of_takePlan T.traced w
  refine Made.bind_quiet ?_ fun a v => ?_
  · unfold computePartition plannedEvaluations
    rw [hmirror]
    refine Made.quiet_bind (congrArg Prod.snd htarget) fun c v hc => ?_
    rw [hc] at htarget ⊢
    dsimp only at htarget ⊢
    rw [← Plan.directionsFor_zero_one]
    have hmade := made_evaluateRank (T := T) c 0 1 v
    rw [htarget] at hmade
    exact hmade.attempt_bind fun _ u _ => ⟨_, rfl, rfl, fun h => h⟩
  · exact Action.eq_of_sustains notes (fun n => sustains_finish (fun _ _ h => h) (fun _ h => h) a) v

/-- A computation that has a value, or makes an evaluation, has a plan. -/
theorem exists_plan_of_computeJacobian {w v : Session R (σ × Notes R)}
    {o : Outcome (ApproximationError R) (Jacobian R)}
    (h : (computeJacobian T.traced).perform w = (o, v)) (hsome : o.fault? = none ∨ notes v ≠ notes w) :
    ∃ c u, (takePlan T).perform (w.image Prod.fst) = (.ok c, u) := by
  have hmirror := mirrors_takePlan (Target.mirrored_traced T) w
  have htarget := target_of_takePlan T.traced w
  rcases htake : (takePlan T.traced).perform w with ⟨f | c, u⟩ <;> rw [htake] at hmirror htarget
  · exfalso
    simp only [computeJacobian, computePartition, Action.perform_bind, htake] at h
    cases h
    rcases hsome with hnone | hsome
    · cases hnone
    · exact hsome (congrArg Prod.snd htarget)
  · exact ⟨c, _, hmirror⟩

end Scheme

end Traced

section Noted

/-- A property of states that no operation of a target ends, not even one that is broken off. -/
structure Target.Unbroken (T : Target R σ) (P : σ → Prop) : Prop where
  perturb : ∀ name index delta {s}, P s → P ((T.perturb name index delta).perform s).2
  evaluate : ∀ active mode {s}, P s → P ((T.evaluate active mode).perform s).2
  restore : ∀ saved {s}, P s → P (T.restore saved s)
  enter : ∀ owner h {s}, P s → P (T.enter owner h s)
  leave : ∀ {s}, P s → P (T.leave s)

theorem Target.Unbroken.sustained {T : Target R σ} {P : σ → Prop} (hT : T.Unbroken P) :
    T.Sustained P P P where
  perturb name index _ _ hs := .inl (hT.perturb name index _ hs)
  evaluate active _ hs := .inl (hT.evaluate active .real hs)
  restore := hT.restore
  enter := hT.enter
  perturbStep name index _ _ hs := .inl (hT.perturb name index _ hs)
  evaluateStep active _ hs := .inl (hT.evaluate active .complex hs)
  restoreStep := hT.restore
  leave := hT.leave
  breach hs := hs
  restoreBreach := hT.restore

/-- What only successful evaluations change: a measure of the states of a target that each of them
advances. -/
structure Target.Metered {γ : Type} (T : Target R σ) (meter : σ → γ) (advance : ActiveSet → γ → γ) :
    Prop where
  perturb : ∀ name index delta s, meter ((T.perturb name index delta).perform s).2 = meter s
  evaluate : ∀ {active mode s t}, (T.evaluate active mode).perform s = (.ok (), t) →
    meter t = advance active (meter s)
  restore : ∀ saved s, meter (T.restore saved s) = meter s
  enter : ∀ owner h s, meter (T.enter owner h s) = meter s
  leave : ∀ s, meter (T.leave s) = meter s

namespace Scheme

variable [Scalar R] {T : Target R σ}

theorem of_unbroken {P : σ → Prop} (hT : T.Unbroken P) {w : Session R σ} (hw : P w.target) :
    P ((computeJacobian T).perform w).2.target :=
  (sustains_computeJacobian hT.sustained w hw).of_imp fun _ h => h

variable {w : Session R (σ × Notes R)}

/-- **Evaluations fail as those of the target do.** -/
theorem fault_of_noted {F : Fault (ApproximationError R) → Prop}
    (hF : ∀ active mode s f, ((T.evaluate active mode).perform s).1 = .error f → F f)
    (hw : (notes w).evaluations = []) {e : Evaluation R}
    (he : e ∈ (notes ((computeJacobian T.traced).perform w).2).evaluations)
    {f : Fault (ApproximationError R)} (hf : e.fault = some f) : F f := by
  have hnoted : T.traced.Unbroken fun s => ∀ e ∈ s.2.evaluations, ∀ f, e.fault = some f → F f :=
    { perturb := fun _ _ _ _ hs => hs
      evaluate := fun active mode s hs e he f hf => by
        rcases List.mem_append.1 he with he | he
        · exact hs e he f hf
        · obtain rfl := List.mem_singleton.1 he
          dsimp only at hf
          rcases ho : ((T.evaluate active mode).perform s.1).1 with f' | x <;> rw [ho] at hf
          · cases hf
            exact hF active mode s.1 f ho
          · cases hf
      restore := fun _ _ hs => hs
      enter := fun _ _ _ hs => hs
      leave := fun hs => hs }
  refine of_unbroken hnoted (w := w) (fun e he => ?_) e he f hf
  rw [show w.target.2.evaluations = [] from hw] at he
  cases he

/-- **Every evaluation is counted once** when none failed, and nothing else is. -/
theorem meter_of_computeJacobian {γ : Type} {meter : σ → γ} {advance : ActiveSet → γ → γ}
    (hT : T.Metered meter advance) (hw : (notes w).evaluations = [])
    (hmade : ∀ e ∈ (notes ((computeJacobian T.traced).perform w).2).evaluations, e.fault = none) :
    meter ((computeJacobian T.traced).perform w).2.target.1 =
      (notes ((computeJacobian T.traced).perform w).2).evaluations.foldl
        (fun k e => advance e.active k) (meter w.target.1) := by
  have hcounted : T.traced.Unbroken fun s => (∀ e ∈ s.2.evaluations, e.fault = none) →
      meter s.1 = s.2.evaluations.foldl (fun k e => advance e.active k) (meter w.target.1) :=
    { perturb := fun name index delta s hs hnone => (hT.perturb name index delta s.1).trans (hs hnone)
      evaluate := fun active mode s hs hnone => by
        have hlast := hnone _ (List.mem_append_right _ (List.mem_singleton_self _))
        dsimp only at hlast
        rcases ho : (T.evaluate active mode).perform s.1 with ⟨f | ⟨⟨⟩⟩, t⟩ <;> rw [ho] at hlast
        · cases hlast
        · simp only [Target.traced, Action.perform_of, ho, List.foldl_append, List.foldl_cons,
            List.foldl_nil]
          rw [hT.evaluate ho, hs fun e he => hnone e (List.mem_append_left _ he)]
      restore := fun saved s hs hnone => (hT.restore saved.1 s.1).trans (hs hnone)
      enter := fun owner h s hs hnone => (hT.enter owner h s.1).trans (hs hnone)
      leave := fun {s} hs hnone => (hT.leave s.1).trans (hs hnone) }
  refine of_unbroken hcounted (w := w) (fun _ => ?_) hmade
  rw [show w.target.2.evaluations = [] from hw]
  rfl

end Scheme

end Noted

end Sensitivity
