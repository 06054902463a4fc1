import Sensitivity.Proofs.Approximation.Coverage
import Sensitivity.Proofs.Approximation.Determinism
import Sensitivity.Proofs.Approximation.Form
import Sensitivity.Proofs.Approximation.Invariants

/-!
# What the directions of a plan deliver

On a target that returns, every direction starts from the view of the starting point, and an
assembler that has run through some directions has received what they delivered there
(`Scheme.delivered_of_runDirections`). On an exact target this is what they would deliver at the
starting point itself, whichever directions were evaluated before (`Scheme.delivery`,
`Scheme.received_of_runDirections`), and running through directions succeeds when each of them
delivers what an assembler of the plan takes (`Scheme.exists_runDirections`).
-/

namespace Sensitivity

variable {R σ γ : Type} [Scalar R]

omit [Scalar R] in
theorem Plan.subperm_directionsFor (p : Plan R) (rank ranks : Nat) :
    (p.directionsFor rank ranks).Subperm p.directions.zipIdx := List.filter_sublist.subperm

omit [Scalar R] in
/-- Some of the directions of a plan have no column in common. -/
theorem Plan.nodup_columns_of_subperm {p : Plan R} (h : p.columns.Nodup)
    {ds : List (Direction × Nat)} (hds : ds.Subperm p.directions.zipIdx) :
    (ds.flatMap fun d => d.1.seeds.flatMap Seed.columns).Nodup := by
  have hall : p.directions.zipIdx.flatMap (fun d => d.1.seeds.flatMap Seed.columns) =
      p.columns := by
    conv_rhs => rw [Plan.columns, ← List.zipIdx_map_fst 0 p.directions, List.flatMap_map]
  obtain ⟨es, hperm, hsub⟩ := hds
  rw [← (hperm.flatMap_right _).nodup_iff]
  exact List.Nodup.sublist (hsub.flatMap _) (hall ▸ h)

namespace Scheme

variable {T : Target R σ} {view : σ → γ} {rel : σ → σ → Prop} {ρ : Role R} {frame : Frame R}

/-- What a direction delivers when it is evaluated from a session. -/
def delivery (T : Target R σ) (frame : Frame R) (w : Session R σ) (d : Direction × Nat) :
    Outcome (ApproximationError R) (Delivery R) :=
  ((evaluateDirection T frame d.1 d.2).perform w).1.map fun x => ⟨d.2, d.1, x.1, x.2⟩

theorem delivery_eq_ok {w : Session R σ} {d : Direction × Nat} {e : Delivery R} :
    delivery T frame w d = .ok e ↔ ∃ x,
      ((evaluateDirection T frame d.1 d.2).perform w).1 = .ok x ∧ e = ⟨d.2, d.1, x.1, x.2⟩ := by
  unfold delivery
  cases ((evaluateDirection T frame d.1 d.2).perform w).1 with
  | error e => simp [Except.map]
  | ok x => simp [Except.map, eq_comm]

/-- Sessions in one role, on related targets, deliver the same. -/
theorem delivery_congr (hT : T.Coupled rel) {w v : Session R σ} (h : InRole ρ rel w v)
    (d : Direction × Nat) : delivery T frame w d = delivery T frame v d := by
  rw [delivery, delivery, (twins_evaluateDirection hT frame d.1 d.2).outcome_eq h]

/-- What a direction delivers are the columns of its seeds: there is a step for each. -/
theorem map_fst_columns_of_delivery {w : Session R σ} {d : Direction × Nat} {e : Delivery R}
    (h : delivery T frame w d = .ok e) :
    e.columns.map Prod.fst = d.1.seeds.flatMap Seed.columns := by
  obtain ⟨x, hx, rfl⟩ := delivery_eq_ok.1 h
  refine Delivery.map_fst_columns ⟨d.2, d.1, x.1, x.2⟩ ?_
  have h := Action.perform_eq_ok hx
  unfold evaluateDirection at h
  rw [Action.perform_get_bind] at h
  obtain ⟨⟨settings, stencil⟩, -, h⟩ := Action.ofOutcome_bind_eq_ok.1 h
  obtain ⟨perturbations, hperturbations, h⟩ := Action.ofOutcome_bind_eq_ok.1 h
  obtain ⟨active, -, h⟩ := Action.ofOutcome_bind_eq_ok.1 h
  obtain ⟨numerators, v, -, h⟩ := Action.bind_eq_ok.1 h
  have hsteps : (perturbations.map Perturbation.step, numerators) = x :=
    Except.ok.inj (Prod.mk.inj h).1
  rw [← hsteps, List.length_map]
  exact (Except.mapM_eq_ok.1 hperturbations).length_eq

omit [Scalar R] in
/-- Directions that hand over the columns of their seeds together hand over those of all. -/
theorem map_fst_columns_of_forall₂ {P : Direction × Nat → Delivery R → Prop}
    (hP : ∀ d e, P d e → e.columns.map Prod.fst = d.1.seeds.flatMap Seed.columns)
    {ds : List (Direction × Nat)} {es : List (Delivery R)} (h : List.Forall₂ P ds es) :
    (es.flatMap Delivery.columns).map Prod.fst =
      ds.flatMap fun d => d.1.seeds.flatMap Seed.columns := by
  induction h with
  | nil => rfl
  | cons hx _ ih => rw [List.flatMap_cons, List.flatMap_cons, List.map_append, hP _ _ hx, ih]

/-- What an assembler makes of a delivery. -/
def deposited (e : Delivery R) (a : Assembler R) :
    Outcome (ApproximationError R) Unit × Assembler R :=
  (Assembler.deposit e.index e.direction e.steps e.numerators).perform a

/-- Running a direction succeeds when it delivers what the assembler takes. -/
theorem runDirection_eq_ok {d : Direction × Nat} {a b : Assembler R} {w v : Session R σ} :
    (runDirection T frame a d.1 d.2).perform w = (.ok b, v) ↔ ∃ e,
      delivery T frame w d = .ok e ∧ ((evaluateDirection T frame d.1 d.2).perform w).2 = v ∧
        deposited e a = (.ok (), b) := by
  rw [runDirection_eq, delivery, Action.perform_bind]
  rcases (evaluateDirection T frame d.1 d.2).perform w with ⟨e | x, u⟩
  · simp [Except.map]
  simp only [Except.map, Except.ok.injEq, exists_eq_left', deposited]
  rcases (Assembler.deposit d.2 d.1 x.1 x.2).perform a with ⟨e | ⟨⟨⟩⟩, b'⟩
  · exact ⟨(nomatch ·), (nomatch ·.2)⟩
  · change (Except.ok b', u) = (Except.ok b, v) ↔ u = v ∧ (Except.ok (), b') = (Except.ok (), b)
    simp only [Prod.mk.injEq, Except.ok.injEq, true_and, and_comm]

section Exact

variable {requests : List (Request R)} {sizes : Sizes} {tolerance : R} {count : Nat}
  {log : List (Delivery R)} {a b : Assembler R} {w₀ w v : Session R σ}

omit [Scalar R] in
/-- Sessions that agree in identity and view are in one role. -/
theorem inRole_of_onSession (h : onSession view w = onSession view v) :
    InRole v.scheme.role (fun s t => view s = view t) v w := by
  obtain ⟨hidentity, hview⟩ := Prod.mk.inj h
  simp only [identity, Prod.mk.injEq] at hidentity
  obtain ⟨howner, hsite, hrequests, -, hpolicy, htolerance⟩ := hidentity
  refine ⟨rfl, ?_, hview.symm⟩
  simp only [role, howner, hsite, hrequests, hpolicy, htolerance]

omit [Scalar R] in
/-- Sessions that agree in identity and view treat entries outside patterns alike. -/
theorem policy_of_onSession (h : onSession view w = onSession view v) :
    w.scheme.policy = v.scheme.policy := congrArg Role.policy (inRole_of_onSession h).right

/-- A direction comes back to the view it starts from. -/
theorem onSession_of_runDirection (hT : T.Restoring view) {d : Direction} {index : Nat}
    (h : (runDirection T frame a d index).perform w = (.ok b, v)) :
    onSession view v = onSession view w := by
  have := keeps_runDirection hT frame a d index _ w rfl (by rw [h]; simp)
  rwa [h] at this

/-- What a direction delivers from some session with a property. -/
def DeliversIn (T : Target R σ) (P : Session R σ → Prop) (frame : Frame R) (d : Direction × Nat)
    (e : Delivery R) : Prop :=
  ∃ u, P u ∧ delivery T frame u d = .ok e

/-- What a direction delivers from some session with the identity and the view of another one. -/
def DeliversFrom (T : Target R σ) (view : σ → γ) (frame : Frame R) (w : Session R σ)
    (d : Direction × Nat) (e : Delivery R) : Prop :=
  ∃ u, onSession view u = onSession view w ∧ delivery T frame u d = .ok e

theorem DeliversIn.map_fst_columns {P : Session R σ → Prop} {d : Direction × Nat} {e : Delivery R}
    (h : DeliversIn T P frame d e) : e.columns.map Prod.fst = d.1.seeds.flatMap Seed.columns := by
  obtain ⟨u, -, hu⟩ := h
  exact map_fst_columns_of_delivery hu

/-- On a target that returns, evaluating directions sustains the identity and the view. -/
theorem borne_onSession (hT : T.Restoring view) (w : Session R σ) :
    Borne T (fun u => onSession view u = onSession view w) fun _ => True where
  warned _ _ hu := hu
  noticed _ hu := hu
  difference st perturbations active of baseline :=
    (keeps_onTarget (Stencil.keeps_difference hT st perturbations active of baseline) _).sustains
  step owner perturbations active of :=
    (keeps_onTarget (StepEngine.keeps_runIdle hT owner perturbations active of) _).sustains

/-- **An assembler receives the deliveries of the directions that are run**, each from a session with
what evaluating directions sustains. -/
theorem Borne.delivered_of_runDirections {P Q : Session R σ → Prop} (hP : Borne T P Q)
    {ds : List (Direction × Nat)} (hw : P w) (ha : a.Received requests sizes tolerance count log)
    (hnodup : ((log.flatMap Delivery.columns).map Prod.fst ++
      ds.flatMap fun d => d.1.seeds.flatMap Seed.columns).Nodup)
    (h : (Scheme.runDirections T frame ds a).perform w = (.ok b, v)) :
    P v ∧ ∃ es, List.Forall₂ (DeliversIn T P frame) ds es ∧
      (∀ e ∈ es, (deposited e a).1 = .ok ()) ∧
      b.Received requests sizes tolerance count (log ++ es) := by
  induction ds generalizing a w log with
  | nil =>
    cases h
    exact ⟨hw, [], .nil, by simp, by simpa using ha⟩
  | cons d rest ih =>
    obtain ⟨c, u, hd, hrest⟩ := Action.bind_eq_ok.1 h
    obtain ⟨e, he, -, hc⟩ := runDirection_eq_ok.1 hd
    have hcolumns : ((log ++ [e]).flatMap Delivery.columns).map Prod.fst =
        (log.flatMap Delivery.columns).map Prod.fst ++ d.1.seeds.flatMap Seed.columns := by
      simp [map_fst_columns_of_delivery he]
    rw [List.flatMap_cons, ← List.append_assoc, ← hcolumns] at hnodup
    have hcr := ha.deposit hnodup.of_append_left hc
    obtain ⟨hv, es, hes, htaken, hb⟩ :=
      ih ((hP.runDirection frame a d.1 d.2).preserves.of_ok hw hd) hcr hnodup hrest
    refine ⟨hv, e :: es, .cons ⟨w, hw, he⟩ hes, fun e' he' => ?_, by simpa using hb⟩
    rcases List.mem_cons.1 he' with rfl | he'
    · exact congrArg Prod.fst hc
    · rw [← htaken e' he']
      exact (Assembler.respects_deposit _ _ _ _ _ _ (ha.form_eq hcr)).1

/-- On a target that returns, each direction delivers from a session that is back at the view of the
start. -/
theorem delivered_of_runDirections (hT : T.Restoring view) {ds : List (Direction × Nat)}
    (hw : onSession view w = onSession view w₀)
    (ha : a.Received requests sizes tolerance count log)
    (hnodup : ((log.flatMap Delivery.columns).map Prod.fst ++
      ds.flatMap fun d => d.1.seeds.flatMap Seed.columns).Nodup)
    (h : (runDirections T frame ds a).perform w = (.ok b, v)) :
    onSession view v = onSession view w₀ ∧ ∃ es,
      List.Forall₂ (DeliversFrom T view frame w₀) ds es ∧
      (∀ e ∈ es, (deposited e a).1 = .ok ()) ∧
      b.Received requests sizes tolerance count (log ++ es) :=
  (borne_onSession hT w₀).delivered_of_runDirections hw ha hnodup h

variable (hT : T.Exact view) (hgraph : ∀ {s t}, view s = view t → T.graph s = T.graph t)

include hT hgraph

/-- **An exact target delivers as it would at the starting point**, whichever directions were run
before. -/
theorem received_of_runDirections {ds : List (Direction × Nat)}
    (hw : onSession view w = onSession view w₀)
    (ha : a.Received requests sizes tolerance count log)
    (hnodup : ((log.flatMap Delivery.columns).map Prod.fst ++
      ds.flatMap fun d => d.1.seeds.flatMap Seed.columns).Nodup)
    (h : (runDirections T frame ds a).perform w = (.ok b, v)) :
    onSession view v = onSession view w₀ ∧ ∃ es, ds.mapM (delivery T frame w₀) = .ok es ∧
      (∀ e ∈ es, (deposited e a).1 = .ok ()) ∧
      b.Received requests sizes tolerance count (log ++ es) := by
  obtain ⟨hv, es, hes, hrest⟩ := delivered_of_runDirections hT.toRestoring hw ha hnodup h
  refine ⟨hv, es, Except.mapM_eq_ok.2 (hes.imp fun d e ⟨u, hu, he⟩ => ?_), hrest⟩
  rwa [delivery_congr (hT.coupled hgraph) (inRole_of_onSession hu)]

/-- **Directions that deliver what the assembler takes can be run.** -/
theorem exists_runDirections {ds : List (Direction × Nat)}
    (hw : onSession view w = onSession view w₀)
    (ha : a.Received requests sizes tolerance count log)
    (hnodup : ((log.flatMap Delivery.columns).map Prod.fst ++
      ds.flatMap fun d => d.1.seeds.flatMap Seed.columns).Nodup)
    (h : ∀ d ∈ ds, ∃ e, delivery T frame w₀ d = .ok e ∧ (deposited e a).1 = .ok ()) :
    ∃ b v, (runDirections T frame ds a).perform w = (.ok b, v) := by
  induction ds generalizing a w log with
  | nil => exact ⟨a, w, rfl⟩
  | cons d rest ih =>
    obtain ⟨e, he, htaken⟩ := h d List.mem_cons_self
    have hcolumns : ((log ++ [e]).flatMap Delivery.columns).map Prod.fst =
        (log.flatMap Delivery.columns).map Prod.fst ++ d.1.seeds.flatMap Seed.columns := by
      simp [map_fst_columns_of_delivery he]
    rw [List.flatMap_cons, ← List.append_assoc, ← hcolumns] at hnodup
    have hc := Action.perform_eq_ok htaken
    have hd : (runDirection T frame a d.1 d.2).perform w = (.ok (deposited e a).2, _) :=
      runDirection_eq_ok.2 ⟨e, by
        rwa [← delivery_congr (hT.coupled hgraph) (inRole_of_onSession hw)], rfl, hc⟩
    have hcr := ha.deposit hnodup.of_append_left hc
    obtain ⟨b, v, hb⟩ := ih ((onSession_of_runDirection hT.toRestoring hd).trans hw) hcr hnodup fun d' hd' => by
      obtain ⟨e', he', htaken'⟩ := h d' (List.mem_cons_of_mem _ hd')
      exact ⟨e', he', (Assembler.respects_deposit _ _ _ _ _ _ (ha.form_eq hcr)).1 ▸ htaken'⟩
    refine ⟨b, v, ?_⟩
    unfold runDirections
    rw [Action.perform_bind, hd]
    exact hb

end Exact

section Rank

variable {requests : List (Request R)} {c : CachedPlan R} {a a₀ : Assembler R}
  {w₀ w v : Session R σ} {rank ranks : Nat}

/-- What all directions of a computation share at a state. -/
def frameAt (T : Target R σ) (c : CachedPlan R) (s : Scheme R) (t : σ) :
    Outcome (ApproximationError R) (Frame R) := do
  let methods ← Outcome.ofExcept <| (c.plan.settings.map (settingsAt T t)).mapM fun v => do
    return (v, ← stencil v)
  let (nominal, baseline) ← readValues T s.requests t
  return ⟨c, methods, nominal, baseline⟩

theorem frameAt_congr (hT : T.Coupled rel) (h : InRole ρ rel w v) :
    frameAt T c w.scheme w.target = frameAt T c v.scheme v.target := by
  have hrequests : w.scheme.requests = v.scheme.requests :=
    congrArg Role.requests (h.left.trans h.right.symm)
  simp only [frameAt, settingsAt_congr hT h.target, hrequests, readValues_congr hT h.target]

/-- Choosing methods succeeds, and leaves only notices. -/
theorem perform_chooseMethods (settings : List (Settings R)) (w : Session R σ) :
    ∃ v, (chooseMethods T settings).perform w =
        (.ok (settings.map (settingsAt T w.target)), v) ∧
      onSession id v = onSession id w := by
  suffices h : ∃ v chosen, (chooseMethods T settings).perform w = (.ok chosen, v) by
    obtain ⟨v, chosen, h⟩ := h
    refine ⟨v, ?_, onSession_eq (keeps_chooseMethods settings) h⟩
    rw [h, (eq_of_chooseMethods h).1]
  induction settings generalizing w with
  | nil => exact ⟨w, [], rfl⟩
  | cons s rest ih =>
    obtain ⟨u, hu, -⟩ := perform_effective (T := T) s w
    obtain ⟨v, chosen, hv⟩ := ih u
    refine ⟨v, settingsAt T w.target s :: chosen, ?_⟩
    simp only [chooseMethods, Action.perform_bind, hu, hv, Action.perform_pure]

/-- Evaluating the directions of a rank is running through them in the frame of the state. -/
theorem evaluateRank_eq_ok : (evaluateRank T c rank ranks).perform w = (.ok a, v) ↔
    ∃ a₀ frame u, Assembler.start w.scheme.requests c.sizes c.plan = .ok a₀ ∧
      frameAt T c w.scheme w.target = .ok frame ∧
      (chooseMethods T c.plan.settings).perform w =
        (.ok (c.plan.settings.map (settingsAt T w.target)), u) ∧
      (runDirections T frame (c.plan.directionsFor rank ranks)
        { a₀ with tolerance := w.scheme.tolerance }).perform u = (.ok a, v) := by
  obtain ⟨u, hu, hsession⟩ := perform_chooseMethods (T := T) c.plan.settings w
  have hrequests : u.scheme.requests = w.scheme.requests :=
    congrArg Role.requests (inRole_of_onSession hsession).right
  have htarget : u.target = w.target := congrArg Prod.snd hsession
  have hread : readValues T u.scheme.requests u.target =
      readValues T w.scheme.requests w.target := by
    rw [hrequests, htarget]
  unfold evaluateRank
  rw [Action.perform_get_bind]
  constructor
  · intro h
    obtain ⟨a₀, hstart, h⟩ := Action.ofOutcome_bind_eq_ok.1 h
    obtain ⟨chosen, u', hchosen, h⟩ := Action.bind_eq_ok.1 h
    cases hu.symm.trans hchosen
    obtain ⟨methods, hmethods, h⟩ := Action.ofOutcome_bind_eq_ok.1 h
    obtain ⟨values, u', hvalues, h⟩ := Action.bind_eq_ok.1 h
    rw [Action.perform_read, Prod.mk.injEq, hread] at hvalues
    obtain ⟨hvalues, rfl⟩ := hvalues
    exact ⟨a₀, ⟨c, methods, values.1, values.2⟩, u, (Outcome.ofExcept_eq_ok _ _).1 hstart,
      Except.bind_eq_ok.2 ⟨methods, hmethods, Except.bind_eq_ok.2 ⟨values, hvalues, rfl⟩⟩,
      hu, h⟩
  · rintro ⟨a₀, frame, u', hstart, hframe, hchosen, h⟩
    cases hu.symm.trans hchosen
    obtain ⟨methods, hmethods, hframe⟩ := Except.bind_eq_ok.1 hframe
    obtain ⟨values, hvalues, hframe⟩ := Except.bind_eq_ok.1 hframe
    cases hframe
    rw [← hread] at hvalues
    exact Action.ofOutcome_bind_eq_ok.2 ⟨a₀, (Outcome.ofExcept_eq_ok _ _).2 hstart,
      Action.bind_eq_ok.2 ⟨_, u, hu, Action.ofOutcome_bind_eq_ok.2 ⟨methods, hmethods,
        Action.bind_eq_ok.2 ⟨values, u, Prod.ext hvalues rfl, h⟩⟩⟩⟩

/-- **A rank has received the deliveries of its directions**, each from a session with what evaluating
directions sustains. -/
theorem Borne.delivered_of_evaluateRank {P Q : Session R σ → Prop} (hP : Borne T P Q) (hw : P w)
    (hnodup : c.plan.columns.Nodup)
    (h : (Scheme.evaluateRank T c rank ranks).perform w = (.ok a, v)) :
    ∃ frame es, frameAt T c w.scheme w.target = .ok frame ∧
      List.Forall₂ (DeliversIn T P frame) (c.plan.directionsFor rank ranks) es ∧
      a.Received w.scheme.requests c.sizes w.scheme.tolerance c.plan.directions.length es := by
  obtain ⟨a₀, frame, u, hstart, hframe, hchosen, hrun⟩ := evaluateRank_eq_ok.1 h
  have hcolumns := Plan.nodup_columns_of_subperm hnodup (c.plan.subperm_directionsFor rank ranks)
  obtain ⟨-, es, hes, -, ha⟩ := hP.delivered_of_runDirections
    ((hP.chooseMethods _).preserves.of_ok hw hchosen) (Assembler.received_start hstart _)
    (by simpa using hcolumns) hrun
  exact ⟨frame, es, hframe, hes, ha⟩

variable (hT : T.Exact view) (hgraph : ∀ {s t}, view s = view t → T.graph s = T.graph t)

include hT hgraph

/-- Wherever a rank comes in the order, its assembler and its frame are those of the starting
point. -/
theorem evaluateRank_eq_ok_of_onSession (hw : onSession view w = onSession view w₀) :
    (evaluateRank T c rank ranks).perform w = (.ok a, v) ↔
      ∃ a₀ frame u, Assembler.start w₀.scheme.requests c.sizes c.plan = .ok a₀ ∧
        frameAt T c w₀.scheme w₀.target = .ok frame ∧
        (chooseMethods T c.plan.settings).perform w =
          (.ok (c.plan.settings.map (settingsAt T w.target)), u) ∧
        onSession view u = onSession view w₀ ∧
        (runDirections T frame (c.plan.directionsFor rank ranks)
          { a₀ with tolerance := w₀.scheme.tolerance }).perform u = (.ok a, v) := by
  have hrole := inRole_of_onSession hw
  have hrequests : w.scheme.requests = w₀.scheme.requests := congrArg Role.requests hrole.right
  have htolerance : w.scheme.tolerance = w₀.scheme.tolerance := congrArg Role.tolerance hrole.right
  rw [evaluateRank_eq_ok, hrequests, htolerance, ← frameAt_congr (hT.coupled hgraph) hrole]
  refine exists_congr fun a₀ => exists_congr fun frame => exists_congr fun u => ?_
  refine and_congr_right fun _ => and_congr_right fun _ => and_congr_right fun hchosen => ?_
  have hu : onSession view u = onSession view w₀ :=
    (onSession_eq (keeps_chooseMethods _ : Action.Keeps (onSession view) _) hchosen).trans hw
  exact (and_iff_right hu).symm

/-- **A rank has received the deliveries of its directions**, each as it would be at the starting
point. -/
theorem received_of_evaluateRank (hw : onSession view w = onSession view w₀)
    (hnodup : c.plan.columns.Nodup) (h : (evaluateRank T c rank ranks).perform w = (.ok a, v)) :
    onSession view v = onSession view w₀ ∧ ∃ a₀ frame es,
      Assembler.start w₀.scheme.requests c.sizes c.plan = .ok a₀ ∧
      frameAt T c w₀.scheme w₀.target = .ok frame ∧
      (c.plan.directionsFor rank ranks).mapM (delivery T frame w₀) = .ok es ∧
      (∀ e ∈ es, (deposited e { a₀ with tolerance := w₀.scheme.tolerance }).1 = .ok ()) ∧
      a.Received w₀.scheme.requests c.sizes w₀.scheme.tolerance c.plan.directions.length es := by
  obtain ⟨a₀, frame, u, hstart, hframe, -, hu, hrun⟩ :=
    (evaluateRank_eq_ok_of_onSession hT hgraph hw).1 h
  have hcolumns := Plan.nodup_columns_of_subperm hnodup (c.plan.subperm_directionsFor rank ranks)
  obtain ⟨hv, es, hes, htaken, ha⟩ := received_of_runDirections hT hgraph hu
    (Assembler.received_start hstart _) (by simpa using hcolumns) hrun
  exact ⟨hv, a₀, frame, es, hstart, hframe, hes, htaken, ha⟩

/-- **A rank whose directions all deliver what an assembler takes has an assembler.** -/
theorem exists_evaluateRank (hw : onSession view w = onSession view w₀)
    (hnodup : c.plan.columns.Nodup) {frame : Frame R}
    (hstart : Assembler.start w₀.scheme.requests c.sizes c.plan = .ok a₀)
    (hframe : frameAt T c w₀.scheme w₀.target = .ok frame)
    (h : ∀ d ∈ c.plan.directionsFor rank ranks, ∃ e, delivery T frame w₀ d = .ok e ∧
      (deposited e { a₀ with tolerance := w₀.scheme.tolerance }).1 = .ok ()) :
    ∃ a v, (evaluateRank T c rank ranks).perform w = (.ok a, v) := by
  obtain ⟨u, hchosen, -⟩ := perform_chooseMethods (T := T) c.plan.settings w
  have hu : onSession view u = onSession view w₀ :=
    (onSession_eq (keeps_chooseMethods _ : Action.Keeps (onSession view) _) hchosen).trans hw
  have hcolumns := Plan.nodup_columns_of_subperm hnodup (c.plan.subperm_directionsFor rank ranks)
  obtain ⟨a, v, hrun⟩ := exists_runDirections hT hgraph hu
    (Assembler.received_start hstart w₀.scheme.tolerance) (by simpa using hcolumns) h
  exact ⟨a, v, (evaluateRank_eq_ok_of_onSession hT hgraph hw).2
    ⟨a₀, frame, u, hstart, hframe, hchosen, hu, hrun⟩⟩

end Rank

end Scheme

end Sensitivity
