import Sensitivity.Proofs.Model.Directing
import Sensitivity.Proofs.Model.Repeating

/-!
# What total derivatives cost

When all groups run once, an evaluation of a group runs each of its active components once
(`Model.runCount_of_runSchedule`), and nothing else that approximating does runs any
(`Model.metered_groupTarget`). So the notes of traced total derivatives (`Model.tracedTotals`) tell how
often each component has run. They are the evaluations of the plan: a direction for each selected entry,
with as many evaluations along it as the settings of the root take. None is made while no entry is
perturbed, and none after one that fails, which is then reported (`Model.costs_of_computeTotals`).
-/

namespace Sensitivity

variable {R M : Type}

theorem Outcome.fault_of_mapError {ε ε' α : Type} {f : ε → ε'} {o : Outcome ε α} {x : Fault ε'}
    (h : o.mapError f = .error x) : x = .breach ∨ ∃ e, x = .error (f e) := by
  rcases o with (e | _) | _
  · exact .inr ⟨e, (Except.error.inj h).symm⟩
  · exact .inl (Except.error.inj h).symm
  · cases h

/-- How often a component has run. -/
def ModelState.runCount (s : ModelState R M) (c : Nat) : Option Nat :=
  s.components[c]?.map ComponentState.runs

theorem ModelState.runCount_congr {s t : ModelState R M} (h : t.components = s.components) (c : Nat) :
    t.runCount c = s.runCount c := by rw [runCount, runCount, h]

namespace Model

section Runs

variable [Scalar R] {m : Model R M} {s t : ModelState R M} {c k : Nat} {mode : Mode}
  {active : ActiveSet}

/-- A component that runs is counted, and no other one. -/
theorem runCount_of_compute (h : (m.compute k mode).perform s = (.ok (), t)) (c : Nat) :
    t.runCount c = (s.runCount c).map (· + if k = c then 1 else 0) := by
  obtain ⟨component, -, h⟩ := Action.ofOutcome_bind_eq_ok.1 h
  obtain ⟨kept, s', hkept, h⟩ := Action.bind_eq_ok.1 h
  obtain rfl : s = s' := congrArg Prod.snd hkept
  obtain rfl := congrArg Prod.snd h
  simp only [Action.perform_of, ModelState.runCount, ModelState.modifyComponent, List.getElem?_modify]
  by_cases hk : k = c <;> simp [hk, Option.map_map, Function.comp_def]

variable [DirectSolver R]

/-- **A schedule of groups that run once runs each active component once.** -/
theorem runCount_of_runSchedule {scope : Span} {schedule : Schedule R}
    (honce : ∀ x ∈ schedule.groups, x.1.solver = .runOnce)
    (h : (m.runSchedule active mode scope schedule).perform s = (.ok (), t)) (c : Nat) :
    t.runCount c =
      (s.runCount c).map (· + (schedule.components.filter active.contains).count c) := by
  induction schedule generalizing s t with
  | done =>
    cases h
    simp [Schedule.components]
  | component k rest ih =>
    unfold Model.runSchedule at h
    rw [Schedule.components, List.filter_cons]
    by_cases hactive : active.contains k = true
    · rw [if_pos hactive] at h ⊢
      obtain ⟨component, -, h⟩ := Action.ofOutcome_bind_eq_ok.1 h
      obtain ⟨⟨⟩, p, hpull, h⟩ := Action.bind_eq_ok.1 h
      cases hpull
      obtain ⟨⟨⟩, u, hcompute, hrest⟩ := Action.bind_eq_ok.1 h
      rw [ih honce hrest, runCount_of_compute hcompute,
        ModelState.runCount_congr (m.components_pull scope component s), Option.map_map,
        List.count_cons]
      simp only [beq_iff_eq]
      exact congrArg (Option.map · _) (funext fun n => by simp only [Function.comp_apply]; omega)
    · rw [if_neg hactive] at h ⊢
      exact ih honce h
  | group g body rest ihBody ihRest =>
    unfold Model.runSchedule at h
    rw [honce (g, body) List.mem_cons_self] at h
    obtain ⟨⟨⟩, u, hbody, hrest⟩ := Action.bind_eq_ok.1 h
    have hbody := ihBody (fun x hx => honce x (List.mem_cons_of_mem _ (List.mem_append_left _ hx)))
      hbody
    have hrest := ihRest (fun x hx => honce x (List.mem_cons_of_mem _ (List.mem_append_right _ hx)))
      hrest
    rw [hrest, hbody, Option.map_map, Schedule.components, List.filter_append, List.count_append]
    exact congrArg (Option.map · _) (funext fun n => Nat.add_assoc ..)

/-- **Approximating across a group that runs once counts its evaluations**: each of them runs the
active components of the group. -/
theorem metered_groupTarget {g : ModelGroup R} {body : Schedule R} (hg : g.solver = .runOnce)
    (honce : ∀ x ∈ body.groups, x.1.solver = .runOnce) (c : Nat) :
    (m.groupTarget g body).Metered (fun s => s.runCount c) fun active n =>
      n.map (· + (body.components.filter active.contains).count c) where
  perturb name index delta s := by
    refine Action.eq_of_sustains (fun s : ModelState R M => s.runCount c) (fun n => ?_) s
    change (m.perturb g.label name index delta).Sustains _ _
    unfold perturb
    refine Action.sustains_get_bind fun s hs => ?_
    suffices h : Action.Sustains (fun t : ModelState R M => t.runCount c = n)
      (fun t : ModelState R M => t.runCount c = n) _ from h s hs
    refine Action.sustains_bind (Action.sustains_ofOutcome _) fun found => ?_
    refine Action.sustains_bind (Action.sustains_ofOutcome _) fun v => Action.sustains_set ?_
    cases found.kind <;> exact hs
  evaluate {active mode s t} h := by
    have hgroups : ∀ x ∈ (Schedule.group g body .done).groups, x.1.solver = .runOnce := by
      simpa [Schedule.groups, hg] using honce
    let schedule := m.runSchedule active mode g.components (.group g body .done)
    have hvalue : (schedule.perform s).1 = .ok () :=
      (Outcome.mapError_eq_ok _ _ _).1 (congrArg Prod.fst h)
    have hstate : (schedule.perform s).2 = t := congrArg Prod.snd h
    rw [runCount_of_runSchedule hgroups (Prod.ext hvalue hstate), Schedule.components,
      Schedule.components, List.append_nil]
  restore _ _ := rfl
  enter _ _ _ := rfl
  leave _ := rfl

/-- Evaluations of a group fail as its components or their solver do. -/
theorem fault_of_evaluate {g : ModelGroup R} {body : Schedule R} {f : Fault (ApproximationError R)}
    (h : (((m.groupTarget g body).evaluate active mode).perform s).1 = .error f) :
    f = .breach ∨ ∃ message, f = .error (.evaluation g.label message) := by
  obtain hbreach | ⟨e, he⟩ := Outcome.fault_of_mapError h
  · exact .inl hbreach
  · exact .inr ⟨e.message, he⟩

end Runs

section Traced

variable [Scalar R] (m : Model R M)

/-- Finds out what the root has to approximate for total derivatives, with a scheme for it. -/
def prepareTotals (of wrt : List (DriverVariable R)) (own : Settings R) :
    ModelWork R M (List (Request R) × Scheme R) := do
  if of.isEmpty || wrt.isEmpty then Action.fail .noTotals
  Action.forEach (of ++ wrt) fun v => do
    discard <| Action.ofOutcome (.ofExcept (m.selection v))
  let requests ← Action.ofOutcome (.ofExcept (m.totalRequests of wrt own))
  let scheme := (← get).schemes[m.root.number]?.join.getD
    (.empty m.root.label .group m.policy)
  let scheme ← m.prepareRoot scheme requests
  return (requests, scheme)

/-- Reads the blocks of the requests under the names that they were asked for. -/
def readTotals (of wrt : List (DriverVariable R)) (requests : List (Request R))
    (blocks : Jacobian R) : ModelWork R M (Totals R) := do
  return .ofList (← ((pairs of wrt).zip requests).mapM fun (names, q) =>
    namedBlock blocks names q)

variable [DirectSolver R]

/-- Approximates across the root and notes the evaluations. -/
def approximateTraced (scheme : Scheme R) :
    Action (ModelState R M × Notes R) (ModelError R) (Jacobian R) :=
  ((Scheme.computeJacobian (m.groupTarget m.root m.schedule).traced).mapError .approximation).on
    (fun s => ⟨scheme, .empty, s⟩)
    fun _ w => (keepScheme m.root w.scheme { w.target.1 with
      diagnostics := w.target.1.diagnostics.append w.diagnostics }, w.target.2)

/-- Total derivatives as the root approximates them, with notes of the evaluations. -/
def tracedTotals (of wrt : List (DriverVariable R)) (own : Settings R) :
    Action (ModelState R M × Notes R) (ModelError R) (Totals R) := do
  let (requests, scheme) ← (m.prepareTotals of wrt own).beside
  let blocks ← m.approximateTraced scheme
  (readTotals of wrt requests blocks).beside

variable {m} {of wrt : List (DriverVariable R)} {own : Settings R}

theorem computeTotals_eq (hroot : m.root.approximation = some own) :
    m.computeTotals of wrt = m.prepareTotals of wrt own >>= fun x =>
      m.approximateGroup m.root m.schedule x.2 >>= fun blocks => readTotals of wrt x.1 blocks := by
  unfold computeTotals prepareTotals
  rw [hroot]
  unfold approximatedTotals readTotals
  dsimp only
  split <;> simp only [bind_assoc, pure_bind]

theorem mirrors_approximateTraced (scheme : Scheme R) : Action.Mirrors Prod.fst
    (m.approximateTraced scheme) (m.approximateGroup m.root m.schedule scheme) := by
  have hwork := Action.mirrors_mapError (ModelError.approximation (R := R))
    (Scheme.mirrors_computeJacobian (Target.mirrored_traced (m.groupTarget m.root m.schedule)))
  unfold approximateTraced approximateGroup onGroup
  refine Action.mirrors_on hwork (fun s => ?_) fun s w => ?_
  · rfl
  · rfl

/-- **Taking notes changes nothing about total derivatives.** -/
theorem mirrors_tracedTotals (hroot : m.root.approximation = some own) :
    Action.Mirrors Prod.fst (m.tracedTotals of wrt own) (m.computeTotals of wrt) := by
  rw [computeTotals_eq hroot]
  exact Action.mirrors_bind (Action.mirrors_beside _) fun x =>
    Action.mirrors_bind (mirrors_approximateTraced x.2) fun blocks => Action.mirrors_beside _

/-- A computation of traced total derivatives, once it is known what to approximate. -/
theorem tracedTotals_of_prepared {s t : ModelState R M} {requests : List (Request R)} {a : Scheme R}
    (h : (m.prepareTotals of wrt own).perform s = (.ok (requests, a), t)) :
    let c := (Scheme.computeJacobian (m.groupTarget m.root m.schedule).traced).perform
      ⟨a, .empty, (t, .empty)⟩
    let r := (m.tracedTotals of wrt own).perform (s, .empty)
    r.2.2 = Scheme.notes c.2 ∧ r.2.1.components = c.2.target.1.components ∧
      ∀ f, c.1 = .error f →
        r.1 = Outcome.mapError .approximation (.error f) := by
  intro c r
  have hr : r = (m.approximateTraced a >>= fun blocks =>
      (readTotals of wrt requests blocks).beside).perform (t, .empty) := by
    simp only [r, tracedTotals, Action.perform_bind, Action.beside, Action.perform_on, h]
  let u := keepScheme m.root c.2.scheme { c.2.target.1 with
    diagnostics := c.2.target.1.diagnostics.append c.2.diagnostics }
  have happroximate : (m.approximateTraced a).perform (t, .empty) =
      (c.1.mapError .approximation, u, Scheme.notes c.2) := rfl
  rw [Action.perform_bind, happroximate] at hr
  rcases hc : c.1 with (e | _) | blocks <;> rw [hc] at hr <;> rw [hr]
  · exact ⟨rfl, rfl, fun f hf => by cases hf; rfl⟩
  · exact ⟨rfl, rfl, fun f hf => by cases hf; rfl⟩
  · refine ⟨rfl, ?_, fun f hf => by cases hf⟩
    have hread : ((readTotals of wrt requests blocks : ModelWork R M (Totals R)).Sustains
        (fun u => u.components = c.2.target.1.components)
        fun u => u.components = c.2.target.1.components) :=
      Action.sustains_bind (Action.sustains_mapM fun (names, q) => sustains_namedBlock blocks names q)
        fun _ => Action.sustains_pure _
    exact (hread u rfl).of_imp fun _ h => h

end Traced

section Prepared

variable [Scalar R] [DirectSolver R] {m : Model R M} {of wrt : List (DriverVariable R)}
  {own : Settings R} {s t : ModelState R M}

/-- A scheme for total derivatives, in a state in which no component has run since another one. -/
structure Prepared (m : Model R M) (of wrt : List (DriverVariable R)) (own : Settings R)
    (s t : ModelState R M) (a : Scheme R) : Prop where
  ne_nil : of ≠ []
  valid : own.validate = .ok ()
  requests_eq : m.totalRequests of wrt own = .ok a.requests
  current : a.Current (m.groupTarget m.root m.schedule)
  components_eq : t.components = s.components
  stack_eq : t.stack = s.stack

/-- The root is given the requests of the computation, and no component runs for that. -/
theorem prepared_of_prepareRoot [StrictScalar R] {a b : Scheme R} (ha : m.Rooted s a)
    {requests : List (Request R)} (h : (m.prepareRoot a requests).perform s = (.ok b, t)) :
    b.requests = requests ∧ (∀ q ∈ b.requests, q.settings.validate = .ok ()) ∧
      t.components = s.components ∧ t.stack = s.stack := by
  unfold prepareRoot at h
  rw [Action.perform_get_bind] at h
  split at h
  · rename_i hsame
    cases h
    exact ⟨ha.requests_of_beq hsame, ha.valid, rfl, rfl⟩
  · obtain ⟨b', hb', h⟩ := Action.ofOutcome_bind_eq_ok.1 h
    obtain ⟨_, t', hkeep, h⟩ := Action.bind_eq_ok.1 h
    cases hkeep
    cases h
    rw [Outcome.mapError_eq_ok, Outcome.ofExcept_eq_ok] at hb'
    rcases Scheme.clearRequests_cases (.empty m.root.label .group m.policy) requests with
      ⟨-, e, he⟩ | hok
    · cases (he a).symm.trans hb'
    · obtain ⟨b'', hb'', hfurnished, hrequests⟩ := hok a ha.toFurnished
      obtain rfl := Except.ok.inj (hb''.symm.trans hb')
      exact ⟨hrequests, hfurnished.valid, rfl, rfl⟩

theorem prepared_of_prepareTotals [StrictScalar R] {a b : Scheme R} (ha : m.Rooted s a)
    {requests : List (Request R)}
    (h : (m.prepareTotals of wrt own).perform s = (.ok (requests, b), t)) :
    m.Prepared of wrt own s t b := by
  unfold prepareTotals at h
  dsimp only at h
  split at h
  · obtain ⟨_, _, hfail, -⟩ := Action.bind_eq_ok.1 h
    cases hfail
  rename_i hnames
  obtain ⟨⟨⟩, s', hselections, hrest⟩ := Action.bind_eq_ok.1 h
  obtain rfl : s = s' := by
    let work : ModelWork R M Unit := Action.forEach (of ++ wrt) fun v =>
      discard <| Action.ofOutcome (.ofExcept (m.selection v))
    have hkept : (work.perform s).2 = s := Action.eq_of_sustains id (fun u =>
      Action.sustains_forEach fun v => Action.sustains_discard (Action.sustains_ofOutcome _)) s
    exact hkept.symm.trans (congrArg Prod.snd hselections)
  obtain ⟨requests', hrequests, hrest⟩ := Action.ofOutcome_bind_eq_ok.1 hrest
  rw [Action.perform_get_bind, ha.place] at hrest
  obtain ⟨b', t', hprepare, hrest⟩ := Action.bind_eq_ok.1 hrest
  cases hrest
  rw [Outcome.ofExcept_eq_ok] at hrequests
  obtain ⟨hb, hvalid, hcomponents, hstack⟩ := prepared_of_prepareRoot ha hprepare
  have hof : of ≠ [] ∧ wrt ≠ [] := by simpa using hnames
  refine ⟨hof.1, ?_, hb ▸ hrequests, (requests_of_prepareRoot ha hprepare).1, hcomponents, hstack⟩
  -- there is a request, and its settings are those of the root
  obtain ⟨o, ho⟩ := List.exists_mem_of_ne_nil _ hof.1
  obtain ⟨w, hw⟩ := List.exists_mem_of_ne_nil _ hof.2
  obtain ⟨q, hq, _, _, -, -, rfl⟩ := exists_request_of_totalRequests hrequests ho hw
  exact hvalid _ (hb ▸ hq)

/-- The settings that total derivatives are approximated with. -/
theorem Prepared.settingsAt_eq {a : Scheme R} (h : m.Prepared of wrt own s t a) :
    Scheme.settingsAt (m.groupTarget m.root m.schedule) t own =
      Scheme.settingsAt (m.groupTarget m.root m.schedule) s own := by
  have hactive : (m.groupTarget m.root m.schedule).complexStepActive t =
      (m.groupTarget m.root m.schedule).complexStepActive s :=
    congrArg ActivationStack.isActive h.stack_eq
  unfold Scheme.settingsAt
  rw [hactive]
  rfl

/-- The evaluations along directions of total derivatives, as many along each of them as the settings
take that are used at a state. -/
def evaluationsAlong (m : Model R M) (own : Settings R) (s : ModelState R M)
    (directions : List ((String × Nat) × ActiveSet)) : List Trial :=
  directions.flatMap
    (Scheme.trialsAlong (Scheme.settingsAt (m.groupTarget m.root m.schedule) s own))

theorem length_evaluationsAlong (directions : List ((String × Nat) × ActiveSet)) :
    (m.evaluationsAlong own s directions).length = Scheme.pointCount
      (Scheme.settingsAt (m.groupTarget m.root m.schedule) s own) * directions.length := by
  rw [evaluationsAlong, List.length_flatMap]
  simp [Scheme.trialsAlong, Nat.mul_comm]

/-- An evaluation for total derivatives is one of a selected entry. -/
theorem TotalDirections.perturbed_of_mem {directions : List ((String × Nat) × ActiveSet)}
    (h : m.TotalDirections of wrt directions) {trial : Trial}
    (htrial : trial ∈ m.evaluationsAlong own s directions) :
    ∃ entry, m.Selects wrt entry ∧ trial.perturbed = [entry] := by
  obtain ⟨d, hd, htrial⟩ := List.mem_flatMap.1 htrial
  obtain rfl := List.eq_of_mem_replicate htrial
  exact ⟨d.1, (h.mem_iff d.1).1 (List.mem_map_of_mem hd), rfl⟩

/-- **The plan for total derivatives**: as many evaluations along each direction as the settings of the
root take. -/
theorem Prepared.planned [LawfulScalar R] {g : Group R M} (hm : m.Consistent g) {a : Scheme R}
    (h : m.Prepared of wrt own s t a) {d : Diagnostics} {c : CachedPlan R}
    {v : Session R (ModelState R M)}
    (htake : (Scheme.takePlan (m.groupTarget m.root m.schedule)).perform ⟨a, d, t⟩ = (.ok c, v)) :
    m.TotalDirections of wrt (c.plan.entries.zip c.active) ∧
      Scheme.plannedEvaluations (m.groupTarget m.root m.schedule) ⟨a, d, t⟩ =
        m.evaluationsAlong own s (c.plan.entries.zip c.active) := by
  have hplanned := Scheme.planned_of_takePlan (w := ⟨a, d, t⟩) h.current htake
  refine ⟨hm.totalDirections_of_planned h.ne_nil h.valid h.requests_eq hplanned, ?_⟩
  rw [evaluationsAlong, ← h.settingsAt_eq]
  exact Scheme.plannedEvaluations_of_uniform (w := ⟨a, d, t⟩) h.current
    (uniform_of_totalRequests h.requests_eq h.valid) htake

/-- **All components are there** after every history. -/
theorem components_of_reaches {g : Group R M} {setup : SetupSettings}
    (hbuild : ofGroup g setup = .ok m) {first : ModelState R M} (hstart : m.start = .ok first)
    {ops : List (Operation R)} (h : m.Reaches first ops s) :
    s.components.length = m.components.length := by
  have hlength (c : Nat) : Outside c fun s : ModelState R M => s.components.length :=
    ⟨fun _ _ => List.length_modify .., fun _ _ => rfl⟩
  have henduring : m.Enduring fun s => s.components.length = m.components.length :=
    { congr := fun hs h => (congrArg (fun x => x.1.length) h).trans hs
      ran := fun c memory count hs => (List.length_modify ..).trans hs
      linearizeAt := fun c relevant baseline s hs =>
        (hlength c).linearizeAt m relevant baseline _ s hs }
  have hlasting : m.Lasting fun s => s.components.length = m.components.length ∧
      (m.root.approximation.isSome → ∃ a, m.Rooted s a) :=
    { toEnduring := henduring.and (rooted_lasting m).toEnduring
      root := fun hroot hs => (rooted_lasting m).root hroot hs.2
      scheme := fun hs ha hrole hcurrent =>
        ⟨hs.1, (rooted_lasting m).scheme hs.2 ha hrole hcurrent⟩
      requests := fun hs ha hadded => ⟨hs.1, (rooted_lasting m).requests hs.2 ha hadded⟩ }
  exact (hlasting.of_reaches h ⟨(sound_start hstart).length_eq,
    fun hroot => rooted_start hbuild hstart hroot⟩).1

end Prepared

section Costs

variable [Scalar R] [DirectSolver R] {m : Model R M} {of wrt : List (DriverVariable R)}
  {own : Settings R} {s t : ModelState R M} {g : Group R M}

omit [DirectSolver R] in
/-- What the evaluations along some directions add to a count. -/
theorem foldl_counts {p : ActiveSet → Nat} {q : ActiveSet → Bool}
    (hp : ∀ active, p active = if q active then 1 else 0) (used : Settings R)
    (directions : List ((String × Nat) × ActiveSet)) (k : Option Nat) :
    (directions.flatMap (Scheme.trialsAlong used)).foldl (fun k trial => k.map (· + p trial.active)) k =
      k.map (· + Scheme.pointCount used * directions.countP fun d => q d.2) := by
  have hreplicate (n : Nat) (trial : Trial) (k : Option Nat) :
      (List.replicate n trial).foldl (fun k trial => k.map (· + p trial.active)) k =
        k.map (· + n * p trial.active) := by
    induction n generalizing k with
    | zero => simp
    | succ n ih =>
      rw [List.replicate_succ, List.foldl_cons, ih, Option.map_map]
      exact congrArg (Option.map · _) (funext fun x => by simp only [Function.comp_apply]; ring)
  induction directions generalizing k with
  | nil => simp
  | cons d rest ih =>
    rw [List.flatMap_cons, List.foldl_append, Scheme.trialsAlong, hreplicate, ih, Option.map_map, hp,
      List.countP_cons]
    exact congrArg (Option.map · _) (funext fun x => by simp only [Function.comp_apply]; ring)

omit [Scalar R] [DirectSolver R] in
/-- An evaluation of the whole model runs each component that is active. -/
theorem count_components {members : Members R M} {path : String}
    (hfollows : Schedule.Follows m.components path members m.schedule 0 m.components.length) {c : Nat}
    (hc : c < m.components.length) (active : ActiveSet) :
    (m.schedule.components.filter active.contains).count c = if active.contains c then 1 else 0 := by
  rw [hfollows.components_eq]
  split
  · rename_i hactive
    rw [List.count_filter hactive, List.count_eq_one_of_mem (List.nodup_range' ..)]
    exact List.mem_range'_1.2 ⟨Nat.zero_le c, by omega⟩
  · rename_i hactive
    exact List.count_eq_zero_of_not_mem fun hmem => hactive (List.mem_filter.1 hmem).2

section Prepared

variable {a : Scheme R} (hm : m.Consistent g) (h : m.Prepared of wrt own s t a)
  {o : Outcome (ApproximationError R) (Jacobian R)}
  {v : Session R (ModelState R M × Notes R)}
  (hv : (Scheme.computeJacobian (m.groupTarget m.root m.schedule).traced).perform
    ⟨a, .empty, (t, .empty)⟩ = (o, v))

include hm h hv

/-- Unless nothing was planned, what was made is what the directions of total derivatives take. -/
theorem Prepared.performed [LawfulScalar R]
    (hsome : o.fault? = none ∨ (Scheme.notes v).evaluations ≠ []) :
    ∃ directions, m.TotalDirections of wrt directions ∧
      Performed (m.evaluationsAlong own s directions) (Scheme.notes v).evaluations o.fault? := by
  obtain ⟨made, hnotes, hmade, -⟩ := Scheme.made_computeJacobian
    (T := m.groupTarget m.root m.schedule) ⟨a, .empty, (t, .empty)⟩ rfl
  rw [hv] at hnotes hmade
  obtain rfl : (Scheme.notes v).evaluations = made := hnotes
  obtain ⟨c, v', htake⟩ := Scheme.exists_plan_of_computeJacobian hv
    (hsome.imp_right fun hne heq => hne (congrArg Notes.evaluations heq))
  obtain ⟨hdirections, hplan⟩ := h.planned hm htake
  refine ⟨_, hdirections, ?_⟩
  rw [← hplan]
  exact hmade

/-- **Every evaluation is one of a selected entry.** -/
theorem Prepared.perturbed_of_mem [LawfulScalar R] {e : Evaluation R}
    (he : e ∈ (Scheme.notes v).evaluations) :
    ∃ entry, m.Selects wrt entry ∧ e.perturbed = [entry] := by
  obtain ⟨directions, hdirections, hperformed⟩ :=
    h.performed hm hv (.inr (List.ne_nil_of_mem he))
  exact hdirections.perturbed_of_mem (hperformed.isPrefix.subset (List.mem_map_of_mem he))

/-- **When nothing failed, each direction has run its components** as often as it takes evaluations. -/
theorem Prepared.runCount_eq [LawfulScalar R] (honce : ∀ x ∈ m.groups, x.1.solver = .runOnce)
    (hok : o.fault? = none) :
    ∃ directions, m.TotalDirections of wrt directions ∧
      (Scheme.notes v).evaluations =
        (m.evaluationsAlong own s directions).map (fun trial => ⟨trial, none⟩) ∧
      ∀ c < m.components.length, v.target.1.runCount c =
        (s.runCount c).map (· + Scheme.pointCount (Scheme.settingsAt
          (m.groupTarget m.root m.schedule) s own) * directions.countP fun d => d.2.contains c) := by
  obtain ⟨directions, hdirections, hperformed⟩ := h.performed hm hv (.inl hok)
  have hnotes := hperformed.eq_map hok
  refine ⟨directions, hdirections, hnotes, fun c hc => ?_⟩
  have hmetered : (m.groupTarget m.root m.schedule).Metered (fun s => s.runCount c) fun active n =>
      n.map (· + (m.schedule.components.filter active.contains).count c) :=
    metered_groupTarget (honce _ List.mem_cons_self)
      (fun x hx => honce x (List.mem_cons_of_mem _ hx)) c
  have hmeter := Scheme.meter_of_computeJacobian (w := ⟨a, .empty, (t, .empty)⟩) hmetered rfl
  rw [hv] at hmeter
  have hcount := hmeter fun e he => by
    rw [hnotes] at he
    obtain ⟨_, -, rfl⟩ := List.mem_map.1 he
    rfl
  rw [hcount, hnotes, List.foldl_map, evaluationsAlong,
    foldl_counts (q := fun active => active.contains c) (count_components hm.follows hc)]
  exact congrArg (Option.map _) (ModelState.runCount_congr h.components_eq c)

/-- **An evaluation that fails breaks the computation off**, which fails as it did. -/
theorem Prepared.broken [LawfulScalar R] {k : Nat} {e : Evaluation R}
    {f : Fault (ApproximationError R)} (he : (Scheme.notes v).evaluations[k]? = some e)
    (hf : e.fault = some f) :
    (Scheme.notes v).evaluations.length = k + 1 ∧
      (∃ directions, m.TotalDirections of wrt directions ∧
        (Scheme.notes v).evaluations.map Evaluation.toTrial <+: m.evaluationsAlong own s directions) ∧
      o = .error f ∧ (f = .breach ∨ ∃ message, f = .error (.evaluation m.root.label message)) := by
  have hmem := List.mem_of_getElem? he
  obtain ⟨directions, hdirections, hperformed⟩ := h.performed hm hv (.inr (List.ne_nil_of_mem hmem))
  obtain ⟨hlength, hof⟩ := hperformed.of_failed he hf
  refine ⟨hlength, ⟨directions, hdirections, hperformed.isPrefix⟩, ?_, ?_⟩
  · rcases o with f' | _
    · exact congrArg Except.error (Option.some.inj hof)
    · cases hof
  · exact Scheme.fault_of_noted (w := ⟨a, .empty, (t, .empty)⟩)
      (fun active mode s f hf => fault_of_evaluate hf) rfl (by rw [hv]; exact hmem) hf

end Prepared

/-- **What total derivatives cost.** A root that approximates them, in a model whose groups all run
once, takes a direction for each distinct entry that is selected of the variables that stand for the
names. When total derivatives are found, the evaluations were those of the directions, as many along
each as the settings take that are used: the points of a stencil, or a single one for a complex step
and for what stands in for it. A selected entry is perturbed in each of them, and no other one, so the
unperturbed values are never evaluated again. Each component has run for the evaluations along the
directions for which it is active, and not once besides. When an evaluation fails it is the last one,
no later point or direction is evaluated, and the failure of the evaluation is what is reported.

The evaluations are those that the same computation makes when it takes notes. -/
theorem costs_of_computeTotals [StrictScalar R] {setup : SetupSettings}
    (hbuild : ofGroup g setup = .ok m) {first : ModelState R M} (hstart : m.start = .ok first)
    {ops : List (Operation R)} (hs : m.Reaches first ops s)
    (hroot : m.root.approximation = some own) (honce : ∀ x ∈ m.groups, x.1.solver = .runOnce)
    (of wrt : List (DriverVariable R)) :
    let outcome := (m.computeTotals of wrt).perform s
    let n := Scheme.pointCount (Scheme.settingsAt (m.groupTarget m.root m.schedule) s own)
    (own.method = .complexStep → n = 1) ∧
    (own.method = .finiteDifference → ∀ st : Stencil R,
      (Stencil.ofForm own.form own.resolvedOrder : Except (ApproximationError R) _) = .ok st →
        n = st.points.length) ∧
    ∃ notes, (m.tracedTotals of wrt own).perform (s, .empty) = (outcome.1, outcome.2, notes) ∧
      (∀ e ∈ notes.evaluations, ∃ entry, m.Selects wrt entry ∧ e.perturbed = [entry]) ∧
      (∀ totals, outcome.1 = .ok totals → ∃ directions, m.TotalDirections of wrt directions ∧
        notes.evaluations = (m.evaluationsAlong own s directions).map (fun trial => ⟨trial, none⟩) ∧
        notes.evaluations.length = n * directions.length ∧
        ∀ c < m.components.length, ∃ before, s.runCount c = some before ∧
          outcome.2.runCount c =
            some (before + n * directions.countP fun d => d.2.contains c)) ∧
      ∀ (k : Nat) e f, notes.evaluations[k]? = some e → e.fault = some f →
        notes.evaluations.length = k + 1 ∧
        (∃ directions, m.TotalDirections of wrt directions ∧
          notes.evaluations.map Evaluation.toTrial <+: m.evaluationsAlong own s directions) ∧
        (f = .breach ∧ outcome.1 = .error .breach ∨
          ∃ message, f = .error (.evaluation m.root.label message) ∧
            outcome.1 = .error (.error (.approximation (.evaluation m.root.label message)))) := by
  intro outcome n
  have hm := consistent_of_ofGroup hbuild
  obtain ⟨a₀, ha₀⟩ := rooted_of_reaches hbuild hstart hs (by rw [hroot]; rfl)
  have hmirror : outcome = (((m.tracedTotals of wrt own).perform (s, .empty)).1,
      ((m.tracedTotals of wrt own).perform (s, .empty)).2.1) := mirrors_tracedTotals hroot (s, .empty)
  refine ⟨fun hstep => Scheme.pointCount_settingsAt hstep _ _,
    fun hdifference st hform => Scheme.pointCount_of_form hdifference hform _ _,
    ((m.tracedTotals of wrt own).perform (s, .empty)).2.2, by rw [hmirror], ?_⟩
  rcases hprepare : (m.prepareTotals of wrt own).perform s with ⟨f | ⟨requests, a⟩, t⟩
  · -- nothing is evaluated
    have hr : (m.tracedTotals of wrt own).perform (s, .empty) = (.error f, t, .empty) := by
      simp only [tracedTotals, Action.perform_bind, Action.beside, Action.perform_on, hprepare]
    rw [hmirror, hr]
    refine ⟨fun e he => ?_, fun totals hok => ?_, fun k e f he => ?_⟩
    · cases he
    · cases hok
    · cases he
  have h := prepared_of_prepareTotals ha₀ hprepare
  obtain ⟨hnotes, hcomponents, hfault⟩ := tracedTotals_of_prepared hprepare
  rcases hv : (Scheme.computeJacobian (m.groupTarget m.root m.schedule).traced).perform
    ⟨a, .empty, (t, .empty)⟩ with ⟨o, v⟩
  rw [hv] at hnotes hcomponents hfault
  rw [hnotes, hmirror]
  refine ⟨fun e he => h.perturbed_of_mem hm hv he, fun totals hok => ?_, fun k e f he hf => ?_⟩
  · have hvalue : o.fault? = none := by
      rcases o with (_ | _) | _
      · cases (hfault _ rfl).symm.trans hok
      · cases (hfault _ rfl).symm.trans hok
      · rfl
    obtain ⟨directions, hdirections, hmade, hcounts⟩ := h.runCount_eq hm hv honce hvalue
    have hlength : (Scheme.notes v).evaluations.length = n * directions.length := by
      rw [hmade, List.length_map, length_evaluationsAlong]
    refine ⟨directions, hdirections, hmade, hlength, fun c hc => ?_⟩
    have hlt : c < s.components.length := by rwa [components_of_reaches hbuild hstart hs]
    have hbefore : s.runCount c = some (s.components[c].runs) := by
      rw [ModelState.runCount, List.getElem?_eq_getElem hlt, Option.map_some]
    refine ⟨_, hbefore, ?_⟩
    dsimp only
    rw [ModelState.runCount_congr hcomponents, hcounts c hc, hbefore, Option.map_some]
  · obtain ⟨hlength, hplanned, rfl, hkind⟩ := h.broken hm hv he hf
    refine ⟨hlength, hplanned, ?_⟩
    rcases hkind with rfl | ⟨message, rfl⟩
    · exact .inl ⟨rfl, hfault _ rfl⟩
    · exact .inr ⟨message, rfl, hfault _ rfl⟩

end Costs

section Fragile

/-- A column of two numbers, and their weighted sum, which is not found when the second one exceeds a
limit; the root approximates by steps of a half. -/
def fragile : Group Float Unit where
  settings := column.settings
  members := .component "p" (.independent () [("x", .vector [1.0, 2.0])]) <|
    .component "c" { weighing with
      failures := [⟨.input "x" 1, 2.25, "too heavy"⟩] }.toComponent .empty

theorem isSome_fragile : (ofGroup fragile .standard).toOption.isSome = true := by decide +kernel

/-- The model of the fragile column. -/
def fragileModel : Model Float Unit := (ofGroup fragile .standard).toOption.get isSome_fragile

theorem ofGroup_fragile : ofGroup fragile .standard = .ok fragileModel :=
  Except.eq_ok_of_toOption (Option.some_get isSome_fragile).symm

theorem isSome_fragileStart : fragileModel.start.toOption.isSome = true := by decide +kernel

/-- The fragile column at the start. -/
def fragileStart : ModelState Float Unit := fragileModel.start.toOption.get isSome_fragileStart

theorem start_fragile : fragileModel.start = .ok fragileStart :=
  Except.eq_ok_of_toOption (Option.some_get isSome_fragileStart).symm

/-- The fragile column after a run. -/
def fragileRun : ModelState Float Unit :=
  ((Operation.run.work fragileModel).perform fragileStart).2

theorem reaches_fragileRun : fragileModel.Reaches fragileStart [.run] fragileRun :=
  .cons _ (by decide +kernel) (.nil _)

theorem isSome_fragileRoot : fragileModel.root.approximation.isSome = true := by decide +kernel

/-- How the root of the fragile column approximates. -/
def fragileSettings : Settings Float := fragileModel.root.approximation.get isSome_fragileRoot

theorem approximation_fragile : fragileModel.root.approximation = some fragileSettings :=
  (Option.some_get isSome_fragileRoot).symm

theorem fragile_once : ∀ x ∈ fragileModel.groups, x.1.solver = .runOnce := by
  have h : fragileModel.groups.all (fun x => runsOnce x.1.solver) = true := by decide +kernel
  intro x hx
  have honce := List.all_eq_true.1 h x hx
  cases hsolver : x.1.solver with
  | runOnce => rfl
  | newton settings =>
    rw [hsolver] at honce
    cases honce

/-- The derivative by the first entry of the fragile column costs runs; the one by both entries breaks
off at the second evaluation. -/
theorem costs_fragile :
    (∃ totals directions,
      ((fragileModel.computeTotals [sumResponse] [firstEntry]).perform fragileRun).1 = .ok totals ∧
      fragileModel.TotalDirections [sumResponse] [firstEntry] directions ∧
      ∀ c < fragileModel.components.length, ∃ before, fragileRun.runCount c = some before ∧
        ((fragileModel.computeTotals [sumResponse] [firstEntry]).perform fragileRun).2.runCount c =
          some (before + Scheme.pointCount (Scheme.settingsAt (fragileModel.groupTarget
            fragileModel.root fragileModel.schedule) fragileRun fragileSettings) *
              directions.countP fun d => d.2.contains c)) ∧
    ∃ message, ((fragileModel.computeTotals [sumResponse] [wholeInput]).perform fragileRun).1 =
      .error (.error (.approximation (.evaluation fragileModel.root.label message))) := by
  have hcosts := costs_of_computeTotals ofGroup_fragile start_fragile reaches_fragileRun
    approximation_fragile fragile_once [sumResponse]
  constructor
  · obtain ⟨-, -, notes, -, -, hsuccess, -⟩ := hcosts [firstEntry]
    have hsome : ((fragileModel.computeTotals [sumResponse] [firstEntry]).perform
      fragileRun).1.toOption.isSome = true := by decide +kernel
    have htotals := Except.eq_ok_of_toOption (Option.some_get hsome).symm
    obtain ⟨directions, hdirections, -, -, hcounts⟩ := hsuccess _ htotals
    exact ⟨_, directions, htotals, hdirections, hcounts⟩
  · obtain ⟨-, -, notes, htraced, -, -, hbroken⟩ := hcosts [wholeInput]
    have hfailed : ((fragileModel.tracedTotals [sumResponse] [wholeInput] fragileSettings).perform
      (fragileRun, .empty)).2.2.evaluations.map (fun e => e.fault.isSome) = [false, true] := by
      decide +kernel
    have hanswers : ((fragileModel.computeTotals [sumResponse] [wholeInput]).perform
      fragileRun).1.Answers := by decide +kernel
    rw [htraced] at hfailed
    have hsecond := congrArg (fun l : List Bool => l[1]?) hfailed
    simp only [List.getElem?_map] at hsecond
    obtain ⟨e, he, hsome⟩ := Option.map_eq_some_iff.1 hsecond
    obtain ⟨f, hf⟩ := Option.isSome_iff_exists.1 hsome
    obtain ⟨-, -, ⟨-, hbreach⟩ | ⟨message, -, hreported⟩⟩ := hbroken 1 e f he hf
    · rw [hbreach] at hanswers
      exact absurd hanswers Outcome.not_answers_breach
    · exact ⟨message, hreported⟩

end Fragile

end Model

end Sensitivity
