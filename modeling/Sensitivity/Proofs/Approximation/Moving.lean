import Sensitivity.Proofs.Approximation.Caching
import Sensitivity.Proofs.Approximation.Tracing
import Sensitivity.Proofs.Step

/-!
# What is handed to a target

`Target.noting` is a target that notes every move it is asked to make, whether or not it can make it,
and is otherwise the same (`Target.mirrored_noting`). A call on a scheme whose plan is up to date makes
no other moves than its requests ask for, however it ends: each is a move of an entry that some request
selects, by the step that the settings in use give for the entry at the values before any perturbation,
times an offset of the stencil, or as it is in a complex step (`Scheme.Takes`,
`Scheme.asked_of_noted`). A scheme is up to date whatever it has worked on, also when calls were broken
off (`Scheme.Worked.upToDate`).

So a step is never below the smallest one under a relative rule, and the steps that cannot be taken
are those whose scaling overflows and the defaults of a check that misleads (`Scheme.Takes.legal`,
`Scheme.Worked.accounted`).
-/

namespace Sensitivity

deriving instance DecidableEq for Delta

deriving instance DecidableEq for Move

variable {R σ : Type}

namespace Target

/-- A target that notes behind its state the moves that it is asked to make. -/
def noting (T : Target R σ) : Target R (σ × List (Move R)) where
  size s := T.size s.1
  values s := T.values s.1
  perturb name index delta := .of fun s =>
    let r := (T.perturb name index delta).perform s.1
    (r.1, r.2, s.2 ++ [⟨name, index, delta⟩])
  evaluate active mode := (T.evaluate active mode).beside
  restore saved s := (T.restore saved.1 s.1, s.2)
  complexCapable s := T.complexCapable s.1
  complexStepActive s := T.complexStepActive s.1
  enter owner h s := (T.enter owner h s.1, s.2)
  leave s := (T.leave s.1, s.2)
  graph s := T.graph s.1

/-- **Noting moves changes nothing else.** -/
theorem mirrored_noting (T : Target R σ) : T.noting.Mirrored Prod.fst T where
  size _ := rfl
  values _ _ _ := rfl
  perturb _ _ _ _ := rfl
  evaluate _ _ := Action.mirrors_beside _
  restore _ _ := rfl
  complexCapable _ := rfl
  complexStepActive _ := rfl
  enter _ _ _ := rfl
  leave _ := rfl
  graph _ := rfl

/-- All moves that were noted have a property. -/
def Noted (P : Move R → Prop) (s : σ × List (Move R)) : Prop := ∀ m ∈ s.2, P m

variable {T : Target R σ} {P : Move R → Prop}

theorem sustains_noted_perturb {name : String} {index : Nat} {delta : Delta R}
    (h : P ⟨name, index, delta⟩) :
    (T.noting.perturb name index delta).Sustains (Noted P) (Noted P) := by
  refine fun s hs => .inl fun m hm => ?_
  rcases List.mem_append.1 hm with hm | hm
  · exact hs m hm
  · exact List.mem_singleton.1 hm ▸ h

theorem sustains_noted_evaluate (active : ActiveSet) (mode : Mode) :
    (T.noting.evaluate active mode).Sustains (Noted P) (Noted P) := fun _ hs => .inl hs

end Target

open Target (Noted)

variable [Scalar R] {T : Target R σ} {P : Move R → Prop}

/-- A difference makes the moves of the points of its stencil. -/
theorem Stencil.sustains_noted_difference {st : Stencil R} {perturbations : List (Perturbation R)}
    (h : ∀ point ∈ st.points, ∀ m ∈ moves perturbations point.1, P m) (active : ActiveSet)
    (of : List String) (baseline : Table String (List R)) :
    (st.difference T.noting perturbations active of baseline).Sustains (Noted P) (Noted P) := by
  have hpoint (point : R × R) (hp : point ∈ st.points) :
      (evaluatePoint T.noting perturbations point.1 active of).Sustains (Noted P) (Noted P) :=
    Action.sustains_bind (Action.sustains_forEach_of_mem fun p hm =>
        Target.sustains_noted_perturb (h point hp _ (List.mem_map_of_mem hm))) fun _ =>
      Action.sustains_bind (Target.sustains_noted_evaluate active .real) fun _ =>
        Action.sustains_read _
  have hsum (saved : σ × List (Move R)) (points : List (R × R)) (hsub : ∀ p ∈ points, p ∈ st.points)
      (sums : Table String (List R)) : (sumPoints T.noting saved perturbations active of points
        sums).Sustains (Noted P) (Noted P) := by
    induction points generalizing sums with
    | nil => exact Action.sustains_pure sums
    | cons point rest ih =>
      refine Action.sustains_bind (fun s hs => ?_) fun _ =>
        ih (fun p hp => hsub p (List.mem_cons_of_mem _ hp)) _
      exact hpoint point (hsub point List.mem_cons_self) s hs
  exact Action.sustains_bind (Action.sustains_ofOutcome _) fun start =>
    Action.sustains_bind Action.sustains_get fun saved =>
      Action.sustains_bind (hsum saved st.points (fun _ hp => hp) start) fun _ =>
        Action.sustains_pure _

/-- A complex step makes its moves. -/
theorem StepEngine.sustains_noted_runIdle {perturbations : List (Perturbation R)}
    (h : ∀ m ∈ moves perturbations, P m) (owner : String) (active : ActiveSet) (of : List String) :
    (runIdle T.noting owner perturbations active of).Sustains (Noted P) (Noted P) := by
  let D (d : Driven (σ × List (Move R))) : Prop := Noted P d.target
  have hstart : (start T.noting owner perturbations).Sustains D D :=
    Action.sustains_bind (Action.sustains_read _) fun _ =>
      Action.sustains_bind (Action.sustains_modify fun _ hd => hd) fun _ =>
        Action.sustains_forEach_of_mem fun p hp =>
          sustains_onTarget (Target.sustains_noted_perturb (h _ (List.mem_map_of_mem hp)))
  have hcapture : (capture T.noting active of).Sustains D D :=
    Action.sustains_bind (Action.sustains_read _) fun _ =>
      Action.sustains_bind (sustains_onTarget (Target.sustains_noted_evaluate active .complex))
        fun _ => Action.sustains_bind (sustains_onTarget (Action.sustains_read _)) fun _ =>
          Action.sustains_bind (Action.sustains_modify fun _ hd => hd) fun _ =>
            Action.sustains_pure _
  have hfinish : (finish T.noting : Action (Driven _) (ApproximationError R) Unit).Sustains D D := by
    refine Action.sustains_bind (Action.sustains_read _) fun _ =>
      Action.sustains_modify fun ⟨⟨phase, saved⟩, target⟩ hd => ?_
    cases saved <;> exact hd
  have hrun : (run T.noting owner perturbations active of).Sustains D D :=
    Action.sustains_bind (Action.sustains_attempt (Action.sustains_bind hstart fun _ => hcapture))
      fun _ => Action.sustains_bind hfinish fun _ => Action.sustains_ofOutcome _
  exact Action.sustains_on hrun (fun _ hs => hs) (fun _ _ _ hd => hd) fun _ _ _ hd => hd

omit [Scalar R] in
/-- Entries that are listed are the ones that are selected. -/
theorem Request.eq_of_select {name : String} {entries is : List Nat} {sizes : Sizes}
    (h : select (R := R) name (some entries) sizes = .ok is) : is = entries := by
  unfold select at h
  split at h
  · cases h
  · rename_i hentries
    cases hentries
  · rename_i hentries
    cases hentries
    split at h
    · cases h
    · exact (Except.ok.inj h).symm

namespace Scheme

/-- How settings move an entry by a step: by the offsets of their stencil, or by a complex step. -/
inductive Shifts (s : Settings R) (h : R) : Delta R → Prop
  | difference {st : Stencil R} {point : R × R} (hmethod : s.method = .finiteDifference)
    (hst : Stencil.ofForm s.form s.resolvedOrder = .ok st) (hpoint : point ∈ st.points) :
    Shifts s h (.real (point.1 * h))
  | step (hmethod : s.method = .complexStep) : Shifts s h (.imag h)

/-- What is done in place of a stencil is a complex step. -/
theorem shifts_of_stencil {s : Settings R} {found : Option (Stencil R)}
    (h : stencil s = .ok found) (step : R) : match found with
    | some st => ∀ point ∈ st.points, Shifts s step (.real (point.1 * step))
    | none => Shifts s step (.imag step) := by
  unfold stencil at h
  cases hmethod : s.method with
  | finiteDifference =>
    cases hst : (Stencil.ofForm s.form s.resolvedOrder : Except (ApproximationError R) _) with
    | error e =>
      rw [hmethod, hst] at h
      cases h
    | ok st =>
      rw [hmethod, hst] at h
      cases h
      exact fun point hpoint => .difference hmethod hst hpoint
  | complexStep =>
    rw [hmethod] at h
    cases h
    exact .step hmethod

/-- A move that a request asks for at a state: of an entry that it selects, by the step `h` that the
settings in use give for the entry at the values of its variable. -/
structure Takes (T : Target R σ) (s : Scheme R) (t : σ) (q : Request R) (values : List R) (h : R)
    (m : Move R) : Prop where
  request : q ∈ s.requests
  valid : q.settings.validate = .ok ()
  name_eq : m.name = q.wrt
  selected : ∀ entries, q.wrtEntries = some entries → m.index ∈ entries
  values_eq : T.values t q.wrt .real = .ok values
  step_eq : (Steps.compute values (stepRule (settingsAt T t q.settings))
    (s.site.baseStep (settingsAt T t q.settings))
    (settingsAt T t q.settings).minimumStep).at? m.index = some h
  shifts : Shifts (settingsAt T t q.settings) h m.delta

section Legal

theorem usable_fallback (hstandard : (BaseSteps.standard : BaseSteps R).Usable) {s : Settings R}
    (hs : s.Usable) : (fallback s).Usable where
  step _ h := Option.some.inj h ▸ hstandard false Settings.finiteDifference
  minimumStep := hs.minimumStep

/-- The settings that are used have steps that can be taken, whatever the target can do. -/
theorem usable_settingsAt (hstandard : (BaseSteps.standard : BaseSteps R).Usable) {s : Settings R}
    (hs : s.Usable) (t : σ) : (settingsAt T t s).Usable := by
  unfold settingsAt
  split
  · exact hs
  · split
    · exact usable_fallback hstandard hs
    · exact hs

variable [OrderedScalar R] {s : Scheme R} {t : σ} {q : Request R} {values : List R} {h : R}
  {m : Move R}

/-- **Which steps cannot be taken**: those whose scaling overflows, and the defaults of a check that
misleads. No relative step is below the smallest one. -/
theorem Takes.legal (hstandard : (BaseSteps.standard : BaseSteps R).Usable)
    (htakes : Takes T s t q values h m) :
    (stepRule (settingsAt T t q.settings) ≠ .absolute →
      (settingsAt T t q.settings).minimumStep ≤ h) ∧
    (Settings.usableStep h = false ↔
      Steps.Overflows values (stepRule (settingsAt T t q.settings))
        (s.site.baseStep (settingsAt T t q.settings)) (settingsAt T t q.settings).minimumStep
        m.index ∨
      stepRule (settingsAt T t q.settings) = .absolute ∧
        s.site.Misleads (settingsAt T t q.settings)) := by
  obtain ⟨hsteps, hminimum⟩ := Settings.usable_of_validate htakes.valid
  have husable := usable_settingsAt hstandard (T := T) ⟨hsteps, hminimum⟩ t
  exact ⟨fun hrule => Steps.le_of_at? husable hrule htakes.step_eq,
    Steps.unusable_iff hstandard husable htakes.step_eq⟩

end Legal

section Run

variable [StrictScalar R] {s : Scheme R} {t : σ} {c : CachedPlan R}

/-- A move that some request of a scheme asks for. -/
def Asked (T : Target R σ) (s : Scheme R) (t : σ) (m : Move R) : Prop :=
  ∃ q values h, Takes T s t q values h m

/-- **The perturbations of a direction are asked for** by requests that its seeds serve. -/
theorem asked_of_perturbations (hbuild : Plan.build s.requests c.sizes = .ok c.plan) {d : Direction}
    (hd : d ∈ c.plan.directions) {nominal baseline : Table String (List R)}
    (hvalues : readValues T s.requests t = .ok (nominal, baseline)) {declared : Settings R}
    (hdeclared : c.plan.settings[d.settings]? = some declared) {perturbations : List (Perturbation R)}
    (hperturbations :
      d.seeds.mapM (perturbation s.site nominal (settingsAt T t declared)) = .ok perturbations)
    {p : Perturbation R} (hp : p ∈ perturbations) {delta : Delta R}
    (hdelta : Shifts (settingsAt T t declared) p.step delta) :
    Asked T s t ⟨p.name, p.index, delta⟩ := by
  obtain ⟨seed, hseed, hp⟩ := (Except.mem_mapM hperturbations).1 hp
  obtain ⟨column, hcolumn⟩ := List.exists_mem_of_ne_nil _ (Plan.ne_nil_of_mem_seeds hbuild hd hseed)
  obtain ⟨q, cols, σ, hq, hcols, hindex, hwrt, hσ, hset⟩ :=
    Plan.exists_request_of_column hbuild hd hseed hcolumn
  have hvalid (q : Request R) (hq : q ∈ s.requests) : q.settings.validate = .ok () :=
    (Request.of_validate ((Plan.build_eq_ok hbuild).1 q hq)).1
  obtain rfl := Option.some.inj (hdeclared.symm.trans hσ)
  obtain rfl : declared = q.settings := by
    obtain ⟨q', hq', rfl⟩ := Plan.exists_request_of_settings hbuild (List.mem_of_getElem? hσ)
    exact Settings.eq_of_beq_of_validate hset (hvalid q' hq')
  obtain ⟨values, hnominal, hp⟩ := Except.bind_eq_ok.1 hp
  obtain ⟨h, hstep, hp⟩ := Except.bind_eq_ok.1 hp
  cases hp
  rw [Outcome.expect_eq_ok] at hnominal
  rw [Outcome.ofOption_eq_ok] at hstep
  have hmem := List.mem_of_getElem? hq
  refine ⟨q, values, h, hmem, hvalid q hmem, hwrt,
    fun entries hentries => ?_, hwrt ▸ (values_of_readValues hvalues).1 hnominal, hstep, hdelta⟩
  unfold Request.cols at hcols
  rw [hentries] at hcols
  exact Request.eq_of_select hcols ▸ List.mem_of_getElem? hindex

/-- A scheme that is still what it was, at work where all moves so far were asked for at a state. -/
def Moving (T : Target R σ) (s : Scheme R) (t : σ) (w : Session R (σ × List (Move R))) : Prop :=
  w.scheme.identity = s.identity ∧ Noted (Asked T s t) w.target

omit [StrictScalar R] in
theorem sustains_moving_onTarget {α : Type} {a : Action (σ × List (Move R)) (ApproximationError R) α}
    (ha : a.Sustains (Noted (Asked T s t)) (Noted (Asked T s t))) :
    (onTarget a).Sustains (Moving T s t) (Moving T s t) :=
  Action.sustains_on ha (fun _ h => h.2) (fun _ _ h ht => ⟨h.1, ht⟩) fun _ _ h ht => ⟨h.1, ht⟩

/-- **Evaluating a direction makes the moves that are asked for.** -/
theorem sustains_moving_runDirection (hbuild : Plan.build s.requests c.sizes = .ok c.plan)
    {nominal baseline : Table String (List R)}
    (hvalues : readValues T s.requests t = .ok (nominal, baseline))
    {methods : List (Settings R × Option (Stencil R))}
    (hmethods : (c.plan.settings.map (settingsAt T t)).mapM
      (fun v => do return (v, ← stencil v)) = .ok methods)
    {d : Direction} (hd : d ∈ c.plan.directions) (a : Assembler R) (index : Nat) :
    (runDirection T.noting ⟨c, methods, nominal, baseline⟩ a d index).Sustains (Moving T s t)
      (Moving T s t) := by
  unfold runDirection
  refine Action.sustains_get_bind fun w hw => ?_
  have hsite : w.scheme.site = s.site := by
    have hidentity := hw.1
    simp only [identity, Prod.mk.injEq] at hidentity
    exact hidentity.2.1
  refine Action.ends_ofOutcome_bind hw fun method hmethod => ?_
  obtain ⟨own, found⟩ := method
  refine Action.ends_ofOutcome_bind hw fun perturbations hperturbations => ?_
  refine Action.ends_ofOutcome_bind hw fun active _ => ?_
  rw [Outcome.ofOption_eq_ok] at hmethod
  rw [hsite] at hperturbations
  obtain ⟨hsettings, hstencil⟩ := getElem?_of_methods hmethods hmethod
  obtain ⟨declared, hdeclared, rfl⟩ := Option.map_eq_some_iff.1 (List.getElem?_map ▸ hsettings)
  have hasked {p : Perturbation R} (hp : p ∈ perturbations) {delta : Delta R}
      (hdelta : Shifts (settingsAt T t declared) p.step delta) :
      Asked T s t ⟨p.name, p.index, delta⟩ :=
    asked_of_perturbations hbuild hd hvalues hdeclared hperturbations hp hdelta
  suffices hwork : Action.Sustains (Moving T s t) (Moving T s t) _ from hwork w hw
  refine Action.sustains_bind ?_ fun numerators => Action.sustains_bind (Action.sustains_ofOutcome _)
    fun _ => Action.sustains_pure _
  refine sustains_moving_onTarget ?_
  have hshifts := shifts_of_stencil hstencil
  cases found with
  | some st =>
    refine Stencil.sustains_noted_difference (fun point hpoint m hm => ?_) _ _ _
    obtain ⟨p, hp, rfl⟩ := List.mem_map.1 hm
    exact hasked hp (hshifts p.step point hpoint)
  | none =>
    refine StepEngine.sustains_noted_runIdle (fun m hm => ?_) _ _ _
    obtain ⟨p, hp, rfl⟩ := List.mem_map.1 hm
    exact hasked hp (hshifts p.step)

/-- **Evaluating a rank makes the moves that are asked for** at the state where it begins. -/
theorem ends_moving_evaluateRank (hbuild : Plan.build s.requests c.sizes = .ok c.plan)
    {w : Session R (σ × List (Move R))} (hw : Moving T s w.target.1 w) (rank ranks : Nat) :
    Action.Ends (Moving T s w.target.1) (Moving T s w.target.1)
      ((evaluateRank T.noting c rank ranks).perform w) := by
  obtain ⟨u, hu, hsession⟩ := perform_chooseMethods (T := T.noting) c.plan.settings w
  obtain ⟨hidentity, htarget⟩ := Prod.mk.inj hsession
  have hmoving : Moving T s w.target.1 u :=
    ⟨hidentity.trans hw.1, (congrArg (Noted (Asked T s w.target.1)) htarget).mpr hw.2⟩
  have hrequests : u.scheme.requests = s.requests := by
    have hidentity := hmoving.1
    simp only [identity, Prod.mk.injEq] at hidentity
    exact hidentity.2.2.1
  unfold evaluateRank
  rw [Action.perform_get_bind]
  refine Action.ends_ofOutcome_bind hw fun a _ => ?_
  rw [Action.perform_bind, hu]
  refine Action.ends_ofOutcome_bind hmoving fun methods hmethods => ?_
  refine Action.ends_read_bind hmoving fun values hvalues => ?_
  obtain ⟨nominal, baseline⟩ := values
  rw [hrequests, show u.target = w.target from htarget] at hvalues
  have hruns (ds : List (Direction × Nat)) (hds : ∀ d ∈ ds, d.1 ∈ c.plan.directions)
      (a : Assembler R) : (runDirections T.noting ⟨c, methods, nominal, baseline⟩ ds a).Sustains
        (Moving T s w.target.1) (Moving T s w.target.1) := by
    induction ds generalizing a with
    | nil => exact Action.sustains_pure a
    | cons d rest ih =>
      exact Action.sustains_bind
        (sustains_moving_runDirection (T := T) (t := w.target.1) hbuild hvalues
          ((Outcome.ofExcept_eq_ok _ _).1 hmethods) (hds d List.mem_cons_self) a d.2)
        fun a => ih (fun d hd => hds d (List.mem_cons_of_mem _ hd)) a
  refine hruns _ (fun d hd => ?_) _ u hmoving
  exact List.mem_of_getElem? (List.mem_zipIdx_iff_getElem?.1 (List.mem_filter.1 hd).1)

end Run

section Calls

/-- A plan that a scheme keeps for its requests as they are is the plan of these requests. -/
def UpToDate (s : Scheme R) : Prop :=
  ∀ c, s.cache = some c → c.version ≤ s.version ∧
    (c.version = s.version → Plan.build s.requests c.sizes = .ok c.plan)

theorem build_of_makePlan {s : Scheme R} {t : σ} {sizes : Sizes} {c : CachedPlan R}
    (h : s.makePlan T t sizes = .ok c) : Plan.build s.requests c.sizes = .ok c.plan := by
  obtain ⟨plan, hplan, hactive⟩ := Except.bind_eq_ok.1 h
  obtain ⟨active, -, hc⟩ := Except.bind_eq_ok.1 hactive
  cases hc
  exact hplan

theorem version_of_makePlan {s : Scheme R} {t : σ} {sizes : Sizes} {c : CachedPlan R}
    (h : s.makePlan T t sizes = .ok c) : c.version = s.version := by
  obtain ⟨plan, -, hactive⟩ := Except.bind_eq_ok.1 h
  obtain ⟨active, -, hc⟩ := Except.bind_eq_ok.1 hactive
  cases hc
  rfl

/-- **What is taken is a plan of the requests** as they are. -/
theorem build_of_takePlan {w v : Session R σ} {c : CachedPlan R} (hs : w.scheme.UpToDate)
    (h : (takePlan T).perform w = (.ok c, v)) : c.version = w.scheme.version ∧
      Plan.build w.scheme.requests c.sizes = .ok c.plan := by
  unfold takePlan at h
  rw [Action.perform_get_bind] at h
  obtain ⟨sizes, -, h⟩ := Action.ofOutcome_bind_eq_ok.1 h
  obtain ⟨⟨⟩, w₁, -, h⟩ := Action.bind_eq_ok.1 h
  dsimp only at h
  split at h
  · rename_i found hfound
    cases h
    obtain ⟨hcache, hfits⟩ := Option.filter_eq_some_iff.1 hfound
    have hversion := of_decide_eq_true (Bool.and_eq_true_iff.1 hfits).1
    exact ⟨hversion, (hs c hcache).2 hversion⟩
  · obtain ⟨made, hmade, h⟩ := Action.ofOutcome_bind_eq_ok.1 h
    obtain ⟨⟨⟩, w₂, -, h⟩ := Action.bind_eq_ok.1 h
    cases h
    exact ⟨version_of_makePlan hmade, build_of_makePlan hmade⟩

section Worked

variable {s s' : Scheme R} {site : Site R}

theorem site_of_addRequest {q : Request R} (hq : s.addRequest q = .ok s') : s'.site = s.site := by
  unfold Scheme.addRequest at hq
  split at hq <;> cases hq
  rfl

theorem UpToDate.addRequest (h : s.UpToDate) {q : Request R} (hq : s.addRequest q = .ok s') :
    s'.UpToDate := by
  unfold Scheme.addRequest at hq
  split at hq
  · cases hq
  · cases hq
    exact fun c hc => ⟨(h c hc).1.trans (Nat.le_succ _), fun heq =>
      absurd (heq ▸ (h c hc).1) (Nat.not_succ_le_self _)⟩

theorem UpToDate.clearRequests (h : s.UpToDate) : s.clearRequests.UpToDate := fun c hc =>
  ⟨(h c hc).1.trans (Nat.le_succ _), fun heq => absurd (heq ▸ (h c hc).1) (Nat.not_succ_le_self _)⟩

/-- **Calls keep a scheme up to date** at its site, however they end. -/
theorem UpToDate.run (h : s.UpToDate) (T : Target R σ) (c : Call R) (d : Diagnostics) (t : σ) :
    ((c.run T).perform ⟨s, d, t⟩).2.scheme.site = s.site ∧
      ((c.run T).perform ⟨s, d, t⟩).2.scheme.UpToDate := by
  let K (c : CachedPlan R) : Prop := c.version ≤ s.version ∧
    (c.version = s.version → Plan.build s.requests c.sizes = .ok c.plan)
  let H : Session R σ → Prop := Holding K s.identity
  have hup {w : Session R σ} (hw : H w) : w.scheme.site = s.site ∧ w.scheme.UpToDate := by
    obtain ⟨hidentity, hcache⟩ := hw
    simp only [identity, Prod.mk.injEq] at hidentity
    obtain ⟨-, hsite, hrequests, hversion, -⟩ := hidentity
    exact ⟨hsite, fun c hc => hversion ▸ hrequests ▸ hcache c hc⟩
  have hK {w v : Session R σ} {c : CachedPlan R} (hw : H w)
      (htake : (takePlan T).perform w = (.ok c, v)) : K c := by
    obtain ⟨hversion, hbuild⟩ := build_of_takePlan (hup hw).2 htake
    have hidentity := hw.1
    simp only [identity, Prod.mk.injEq] at hidentity
    obtain ⟨-, -, hrequests, hcurrent, -⟩ := hidentity
    exact ⟨(hversion.trans hcurrent).le, fun _ => hrequests ▸ hbuild⟩
  have hstart : H ⟨s, d, t⟩ := ⟨rfl, h⟩
  have hend {c : Call R} (hc : Action.Ends H H ((c.run T).perform ⟨s, d, t⟩)) :
      ((c.run T).perform ⟨s, d, t⟩).2.scheme.site = s.site ∧
        ((c.run T).perform ⟨s, d, t⟩).2.scheme.UpToDate := hup (hc.of_imp fun _ h => h)
  cases c with
  | add q =>
    rw [Call.run, Action.perform_bind, Action.perform_read]
    cases hq : s.addRequest q with
    | error e => exact ⟨rfl, h⟩
    | ok s' => exact ⟨site_of_addRequest hq, h.addRequest hq⟩
  | clear => exact ⟨rfl, h.clearRequests⟩
  | count =>
    refine hend (Action.ends_bind (Action.ends_bind (sustains_holding_takePlan _ hstart)
      fun c v htake hv => ?_) fun _ v _ hv => .inl hv)
    exact .inl ⟨hv.1, fun c' hc' => Option.some.inj hc' ▸ hK hstart htake⟩
  | partition rank ranks =>
    exact hend (Action.ends_bind (sustains_holding_computePartition hK rank ranks _ hstart)
      fun _ v _ hv => .inl hv)
  | compute =>
    exact hend (Action.ends_bind (sustains_holding_computeJacobian hK _ hstart)
      fun _ v _ hv => .inl hv)

/-- A scheme at a site after any work: requests were added and dropped, and there were calls on any
targets, however they ended, also when they were broken off. -/
inductive Worked (site : Site R) : Scheme R → Prop
  | new (owner : String) (policy : PatternPolicy) (tolerance : R) :
    Worked site { empty owner site policy with tolerance := tolerance }
  | add {s s' : Scheme R} (h : Worked site s) {q : Request R} (hq : s.addRequest q = .ok s') :
    Worked site s'
  | clear {s : Scheme R} (h : Worked site s) : Worked site s.clearRequests
  | call {s : Scheme R} (h : Worked site s) {σ : Type} (T : Target R σ) (c : Call R)
    (d : Diagnostics) (t : σ) : Worked site ((c.run T).perform ⟨s, d, t⟩).2.scheme

/-- **Whatever a scheme has worked on, it is up to date**, at the site that it was made for. -/
theorem Worked.upToDate (h : Worked site s) : s.site = site ∧ s.UpToDate := by
  induction h with
  | new => exact ⟨rfl, fun _ hc => nomatch hc⟩
  | add _ hq ih => exact ⟨(site_of_addRequest hq).trans ih.1, ih.2.addRequest hq⟩
  | clear _ ih => exact ⟨ih.1, ih.2.clearRequests⟩
  | call _ T c d t ih =>
    obtain ⟨hsite, hup⟩ := ih.2.run T c d t
    exact ⟨hsite.trans ih.1, hup⟩

theorem Worked.addRequests (h : Worked site s) {qs : List (Request R)}
    (hqs : s.addRequests qs = .ok s') : Worked site s' :=
  Except.of_foldlM_eq_ok (P := Worked site) (fun _ _ _ _ hs hq => hs.add hq) h hqs

/-- A scheme has worked once it has computed, however that ended. -/
theorem Worked.computeJacobian (h : Worked site s) (T : Target R σ) (d : Diagnostics) (t : σ) :
    Worked site ((Scheme.computeJacobian T).perform ⟨s, d, t⟩).2.scheme := by
  have hcall := h.call T .compute d t
  rw [Call.run, Action.perform_bind] at hcall
  rcases hperform : (Scheme.computeJacobian T).perform ⟨s, d, t⟩ with ⟨_ | _, w⟩
  · rwa [hperform] at hcall
  · rwa [hperform] at hcall

end Worked

/-- **A call on a target is mirrored on its image.** -/
theorem Call.mirrors_run {τ : Type} {f : σ → τ} {U : Target R τ} (hT : T.Mirrored f U)
    (c : Call R) : Action.Mirrors (Session.image f) (c.run T) (c.run U) := by
  have hdiscard {α : Type} {a : Work R σ α} {b : Work R τ α}
      (h : Action.Mirrors (Session.image f) a b) :
      Action.Mirrors (Session.image f) (a >>= fun _ => pure ()) (b >>= fun _ => pure ()) :=
    Action.mirrors_bind h fun _ => Action.mirrors_pure _
  cases c with
  | add q =>
    exact Action.mirrors_bind (Action.mirrors_read fun _ => rfl) fun _ => mirrors_modifyScheme _
  | clear => exact mirrors_modifyScheme _
  | count =>
    exact hdiscard (Action.mirrors_bind (mirrors_takePlan hT) fun c =>
      Action.mirrors_bind (mirrors_modifyScheme _) fun _ => Action.mirrors_pure _)
  | partition rank ranks => exact hdiscard (mirrors_computePartition hT rank ranks)
  | compute => exact hdiscard (mirrors_computeJacobian hT)

variable [StrictScalar R]

/-- **The moves of a rank are asked for**, however evaluating it ends. -/
theorem ends_noted_computePartition {s : Scheme R} (hs : s.UpToDate) (d : Diagnostics) (t : σ)
    (rank ranks : Nat) : Action.Ends (fun w => Noted (Asked T s t) w.target)
      (fun w => Noted (Asked T s t) w.target)
      ((computePartition T.noting rank ranks).perform ⟨s, d, t, []⟩) := by
  refine Action.ends_bind (sustains_target_takePlan _ fun _ hm => nomatch hm) fun c w hw _ => ?_
  obtain ⟨hidentity, htarget⟩ :=
    Prod.mk.inj (onSession_eq (keeps_takePlan : Action.Keeps (onSession id) _) hw)
  obtain ⟨a, d, t', log⟩ := w
  cases htarget
  have hrank := ends_moving_evaluateRank (T := T) (build_of_takePlan hs hw).2 (w := ⟨a, d, t, []⟩)
    ⟨hidentity, fun _ hm => nomatch hm⟩ rank ranks
  refine Action.ends_bind ((Action.ends_attempt hrank).imp And.right fun h => ⟨h.1, h.2.2⟩)
    fun _ v _ hv => ?_
  exact .inl hv

/-- **Calls make no other moves than those that are asked for**, however they end. -/
theorem asked_of_noted {s : Scheme R} (hs : s.UpToDate) (c : Call R) (d : Diagnostics) (t : σ) :
    Noted (Asked T s t) ((c.run T.noting).perform ⟨s, d, t, []⟩).2.target := by
  have hnone : Noted (Asked T s t) ((t, []) : σ × List (Move R)) := fun _ hm => nomatch hm
  have hpartition (rank ranks : Nat) := ends_noted_computePartition (T := T) hs d t rank ranks
  suffices h : Action.Ends (fun w => Noted (Asked T s t) w.target)
      (fun w => Noted (Asked T s t) w.target) ((c.run T.noting).perform ⟨s, d, t, []⟩) from
    h.of_imp fun _ h => h
  cases c with
  | add q =>
    exact Action.ends_read_bind hnone fun _ _ => .inl hnone
  | clear => exact .inl hnone
  | count =>
    refine Action.ends_bind (Action.ends_bind (sustains_target_takePlan _ hnone) fun c v _ hv => ?_)
      fun _ v _ hv => .inl hv
    exact .inl hv
  | partition rank ranks => exact Action.ends_bind (hpartition rank ranks) fun _ v _ hv => .inl hv
  | compute =>
    refine Action.ends_bind (Action.ends_bind (hpartition 0 1) fun a v _ hv => ?_)
      fun _ v _ hv => .inl hv
    exact sustains_finish (fun _ _ h => h) (fun _ h => h) a v hv

end Calls

section Accounts

variable [OrderedScalar R]

/-- A move that a request asks for, by a step that is at least the smallest one under a relative rule,
and that can be taken unless its scaling overflows or a check misleads. -/
def Accounted (T : Target R σ) (s : Scheme R) (t : σ) (m : Move R) : Prop :=
  ∃ q values h, Takes T s t q values h m ∧
    (stepRule (settingsAt T t q.settings) ≠ .absolute →
      (settingsAt T t q.settings).minimumStep ≤ h) ∧
    (Settings.usableStep h = false ↔
      Steps.Overflows values (stepRule (settingsAt T t q.settings))
        (s.site.baseStep (settingsAt T t q.settings)) (settingsAt T t q.settings).minimumStep
        m.index ∨
      stepRule (settingsAt T t q.settings) = .absolute ∧
        s.site.Misleads (settingsAt T t q.settings))

/-- **Every step of a call is accounted for**, whatever the scheme has worked on, on whatever target
and however the call ends. -/
theorem Worked.accounted (hstandard : (BaseSteps.standard : BaseSteps R).Usable)
    {site : Site R} {s : Scheme R} (h : Worked site s) (T : Target R σ) (c : Call R)
    (d : Diagnostics) (t : σ) :
    Noted (Accounted T s t) ((c.run T.noting).perform ⟨s, d, t, []⟩).2.target := by
  intro m hm
  obtain ⟨q, values, h, htakes⟩ := asked_of_noted h.upToDate.2 c d t m hm
  exact ⟨q, values, h, htakes, htakes.legal hstandard⟩

end Accounts

end Scheme

end Sensitivity
