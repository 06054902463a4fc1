import Sensitivity.Proofs.Approximation.Caching
import Sensitivity.Proofs.Approximation.Steady

/-!
# Computations that are answered

On a steady target every call on a scheme is answered, whatever its requests are and whatever calls
there were before (`Scheme.answers_of_reached`). Requests that cannot be computed are refused when a
plan is made (`Plan.gives_build`); from then on all that a direction needs is there
(`Scheme.Frame.Sound`), and a computation of all directions is complete
(`Scheme.completed_of_evaluateRank`), so that only what the target reports can go wrong.
-/

namespace Sensitivity

variable {R σ : Type}

theorem Request.select_ne_incomplete {name : String} {entries : Option (List Nat)} {sizes : Sizes}
    {e : ApproximationError R} (h : select name entries sizes = .error e) (done total : Nat) :
    e ≠ .incomplete done total := by
  unfold select at h
  split at h
  · cases h
    rintro ⟨⟩
  · cases h
  · split at h
    · cases h
      rintro ⟨⟩
    · cases h

variable [Scalar R]

/-- A request is not refused for missing directions. -/
theorem Request.validate_ne_incomplete {q : Request R} {sizes : Sizes} {e : ApproximationError R}
    (h : q.validate sizes = .error e) (done total : Nat) : e ≠ .incomplete done total := by
  unfold validate at h
  split at h
  · cases h
    rintro ⟨⟩
  · rcases Except.bind_eq_error.1 h with hshape | ⟨shape, -, h⟩
    · rcases Except.bind_eq_error.1 hshape with hrows | ⟨rows, -, hshape⟩
      · exact select_ne_incomplete hrows done total
      · rcases Except.bind_eq_error.1 hshape with hcols | ⟨cols, -, hshape⟩
        · exact select_ne_incomplete hcols done total
        · cases hshape
    · dsimp only at h
      split at h
      · split at h <;> cases h
        rintro ⟨⟩
      · cases h

/-- **Making a plan fails only by refusing a request.** -/
theorem Plan.gives_build (requests : List (Request R)) (sizes : Sizes) :
    (build requests sizes).Gives (fun _ => True) fun e =>
      ∃ q ∈ requests, q.validate sizes = .error e := by
  by_cases hvalid : ∀ q ∈ requests, q.validate sizes = .ok ()
  · obtain ⟨plan, hplan⟩ := exists_build hvalid
    exact Outcome.gives_of_eq_ok hplan trivial
  · -- the loop of checks does not get to its end
    have hloop := Outcome.gives_forIn requests
      (f := fun q => (Outcome.ofExcept (q.validate sizes) : Outcome (ApproximationError R) Unit))
      (E := fun e => ∃ q ∈ requests, q.validate sizes = .error e)
      fun q hq => Outcome.gives_ofExcept (fun _ _ => trivial) fun e he => ⟨q, hq, he⟩
    refine Outcome.gives_bind (hloop.and (K := fun _ => False) fun _ hok => hvalid fun q hq => ?_)
      fun _ h => h.2.elim
    exact (Outcome.ofExcept_eq_ok _ _).1 (Except.of_forIn_eq_ok hok q hq)

namespace Scheme

section Steady

variable {T : Target R σ} {P : σ → Prop} {extent : String → Option Nat}
  (hT : T.Steady P extent) {s : Scheme R} {t : σ} {w : Session R σ}

include hT

section Plans

omit [Scalar R] in
/-- The sizes that a plan is made for are the announced ones. -/
theorem gives_sizes (ht : P t) : (s.sizes T t).Gives
    (fun sizes => ∀ name n, sizes.get? name = some n → extent name = some n) (T.Accounts P) := by
  have hread : (s.sizes T t).Gives (fun _ => True) (T.Accounts P) :=
    Outcome.gives_bind (Outcome.gives_mapM fun name _ =>
      Outcome.gives_bind (hT.gives_size ht name) fun _ _ => trivial) fun _ _ => trivial
  refine (hread.and fun sizes hsizes name n hn => ?_).mono (fun _ h => h.2) fun _ h => h
  have hsize := hT.size ht name
  rwa [size_of_sizes hsizes hn] at hsize

omit [Scalar R] in
/-- There is something to run for every direction. -/
theorem exists_activeSet (ht : P t) (d : Direction) :
    ∃ active, s.activeSet (T.graph t) d = .ok active := by
  cases hgraph : T.graph t with
  | none => exact ⟨.all, rfl⟩
  | some g =>
    obtain ⟨active, hactive⟩ :=
      (hT.graph ht hgraph).exists_activeComponents d.perturbed (s.ofNames d.requests)
    exact ⟨active, (Outcome.ofOption_eq_ok _ _).2 hactive⟩

theorem gives_makePlan (ht : P t) (sizes : Sizes) :
    (s.makePlan T t sizes).Gives (fun _ => True) (T.Accounts P) := by
  have hbuild : (Plan.build s.requests sizes).Gives (fun _ => True) (T.Accounts P) :=
    (Plan.gives_build s.requests sizes).mono (fun _ h => h) fun e ⟨q, _, he⟩ done total h =>
      absurd h (Request.validate_ne_incomplete he done total)
  refine Outcome.gives_bind hbuild fun plan _ => ?_
  obtain ⟨active, hactive⟩ : ∃ active, plan.directions.mapM (s.activeSet (T.graph t)) = .ok active :=
    Except.exists_mapM fun d _ => exists_activeSet hT ht d
  rw [hactive]
  trivial

omit hT in
/-- A plan that was taken fits the scheme that it was taken from. -/
theorem planned_taken (hcurrent : w.scheme.Current T) {c : CachedPlan R} {v : Session R σ}
    (h : (takePlan T).perform w = (.ok c, v)) :
    Planned T v.scheme v.target c ∧ v.target = w.target := by
  have hc := planned_of_takePlan hcurrent h
  have hv := onSession_eq (keeps_takePlan : Action.Keeps (onSession id) _) h
  simp only [onSession, identity, Prod.mk.injEq, id_eq] at hv
  obtain ⟨⟨-, -, hrequests, hversion, -⟩, htarget⟩ := hv
  obtain ⟨u, hu⟩ := hc.made
  refine ⟨⟨hc.version_eq.trans hversion.symm,
    ⟨u, (makePlan_congr hrequests hversion u _).trans hu⟩, ?_⟩, htarget⟩
  simpa only [Scheme.sizes, variableNames, hrequests, htarget] using hc.sizes

/-- **A plan is taken, or a request is refused, or the target fails.** -/
theorem replies_takePlan (hcurrent : w.scheme.Current T) (hw : P w.target) :
    Action.Replies (fun c v => Planned T v.scheme v.target c ∧ P v.target)
      (fun e _ => T.Accounts P e) ((takePlan T).perform w) := by
  have htake : Action.Replies (fun _ _ => True) (fun e _ => T.Accounts P e)
      ((takePlan T).perform w) := by
    unfold takePlan
    rw [Action.perform_get_bind]
    refine Action.replies_ofOutcome_bind (gives_sizes hT hw) fun sizes _ => ?_
    refine Action.replies_modify_bind ?_
    dsimp only
    split
    · exact Action.replies_pure trivial
    · exact Action.replies_ofOutcome_bind (gives_makePlan hT hw sizes) fun _ _ =>
        Action.replies_modify_bind (Action.replies_pure trivial)
  refine (htake.and fun c v h => ?_).mono (fun _ _ h => h.2) fun _ _ h => h
  obtain ⟨hc, htarget⟩ := planned_taken hcurrent h
  exact ⟨hc, htarget ▸ hw⟩

end Plans

section Directions

/-- All that the directions of a plan need is there, with the announced entries. -/
structure Frame.Sound (extent : String → Option Nat) (requests : List (Request R))
    (frame : Frame R) : Prop where
  build : Plan.build requests frame.cached.sizes = .ok frame.cached.plan
  sizes : ∀ name n, frame.cached.sizes.get? name = some n → extent name = some n
  active : frame.cached.active.length = frame.cached.plan.directions.length
  methods : frame.methods.length = frame.cached.plan.settings.length
  nominal : Target.Sized extent (requests.map Request.wrt) frame.nominal
  baseline : Target.Sized extent (requests.map Request.of) frame.baseline

omit hT in
/-- The seeds of a direction have perturbations, of entries that exist. -/
theorem Frame.Sound.exists_perturbations {requests : List (Request R)} {frame : Frame R}
    (hframe : frame.Sound extent requests) {d : Direction}
    (hd : d ∈ frame.cached.plan.directions) (site : Site R) (own : Settings R) :
    ∃ ps, d.seeds.mapM (perturbation site frame.nominal own) = .ok ps ∧
      ∀ p ∈ ps, ∃ n, extent p.name = some n ∧ p.index < n := by
  have hrange := Plan.inRange_of_build hframe.build
  have hentry (seed : Seed) (hseed : seed ∈ d.seeds) : ∃ vs, frame.nominal.get? seed.wrt = some vs ∧
      extent seed.wrt = some vs.length ∧ seed.index < vs.length := by
    obtain ⟨⟨q, hq, hwrt⟩, n, hn, hlt⟩ := hrange.seed d hd seed hseed
    obtain ⟨vs, hvs, hlength⟩ := hframe.nominal q.wrt (List.mem_map_of_mem hq)
    rw [hwrt] at hvs hlength
    obtain rfl := Option.some.inj ((hframe.sizes _ n hn).symm.trans hlength)
    exact ⟨vs, hvs, hlength, hlt⟩
  obtain ⟨ps, hps⟩ : ∃ ps, d.seeds.mapM (perturbation site frame.nominal own) = .ok ps := by
    refine Except.exists_mapM fun seed hseed => ?_
    obtain ⟨vs, hvs, -, hlt⟩ := hentry seed hseed
    obtain ⟨h, hstep⟩ := Steps.exists_at? (R := R) hlt (stepRule own) (site.baseStep own)
      own.minimumStep
    exact ⟨_, Except.bind_eq_ok.2 ⟨vs, by rw [hvs]; rfl,
      Except.bind_eq_ok.2 ⟨h, by rw [hstep]; rfl, rfl⟩⟩⟩
  refine ⟨ps, hps, fun p hp => ?_⟩
  obtain ⟨seed, hseed, hp⟩ := (Except.mem_mapM hps).1 hp
  obtain ⟨hname, hindex⟩ := entry_of_perturbation hp
  obtain ⟨vs, -, hlength, hlt⟩ := hentry seed hseed
  exact ⟨vs.length, hname ▸ hlength, hindex ▸ hlt⟩

variable {frame : Frame R}

/-- **A direction of the plan is answered**, and what it delivers can be deposited. -/
theorem replies_runDirection (hframe : frame.Sound extent w.scheme.requests) (hw : P w.target)
    {a : Assembler R} (ha : a.Laid w.scheme.requests frame.cached.sizes
      frame.cached.plan.directions.length) {d : Direction × Nat}
    (hd : d ∈ frame.cached.plan.directions.zipIdx) :
    Action.Replies (fun b v => v.scheme = w.scheme ∧ P v.target ∧
        b.Laid w.scheme.requests frame.cached.sizes frame.cached.plan.directions.length)
      (fun e _ => T.Accounts P e) ((runDirection T frame a d.1 d.2).perform w) := by
  have hd' := List.mem_zipIdx_iff_getElem?.1 hd
  have hmem : d.1 ∈ frame.cached.plan.directions := List.mem_of_getElem? hd'
  have hindex := (List.getElem?_eq_some_iff.1 hd').1
  have hrange := Plan.inRange_of_build hframe.build
  obtain ⟨⟨own, found⟩, hmethod⟩ : ∃ x, frame.methods[d.1.settings]? = some x :=
    ⟨_, List.getElem?_eq_getElem (hframe.methods ▸ hrange.settings d.1 hmem)⟩
  obtain ⟨perturbations, hperturbations, hentries⟩ :=
    hframe.exists_perturbations hmem w.scheme.site own
  obtain ⟨active, hactive⟩ : ∃ active, frame.cached.active[d.2]? = some active :=
    ⟨_, List.getElem?_eq_getElem (hframe.active ▸ hindex)⟩
  have hbaseline : Target.Sized extent (w.scheme.ofNames d.1.requests) frame.baseline := by
    intro name hname
    obtain ⟨q, hq, rfl⟩ := exists_request_of_mem_ofNames hname
    exact hframe.baseline q.of (List.mem_map_of_mem hq)
  have hasks : Target.Asks extent perturbations (w.scheme.ofNames d.1.requests) := by
    refine ⟨hentries, fun name hname => ?_⟩
    obtain ⟨vs, -, hlength⟩ := hbaseline name hname
    exact ⟨_, hlength⟩
  unfold runDirection
  rw [Action.perform_get_bind]
  dsimp only
  refine Action.replies_ok_bind ((Outcome.ofOption_eq_ok _ _).2 hmethod)
    (Action.replies_ok_bind hperturbations
      (Action.replies_ok_bind ((Outcome.ofOption_eq_ok _ _).2 hactive) ?_))
  refine Action.replies_bind (Q := fun numerators v => v.scheme = w.scheme ∧ P v.target ∧
    Target.Sized extent (w.scheme.ofNames d.1.requests) numerators) (Action.replies_on ?_) ?_
  · refine Action.Replies.mono ?_ (fun _ _ h => ⟨rfl, h⟩) fun _ _ h => h
    cases found with
    | some st => exact Stencil.replies_difference hT hasks st hbaseline hw
    | none => exact StepEngine.replies_runIdle hT hasks w.scheme.owner hw
  rintro numerators v ⟨hscheme, hv, hsized⟩
  have hreaches (seed : Seed) (hseed : seed ∈ d.1.seeds) (c : Column) (hc : c ∈ seed.columns) :
      Assembler.Reaches w.scheme.requests frame.cached.sizes numerators c := by
    obtain ⟨q, rows, cols, hq, hrows, hcols, hcol, hentry⟩ := hrange.column d.1 hmem seed hseed c hc
    obtain ⟨vs, hvs, hlength⟩ := hsized q.of (mem_ofNames hseed hc hq)
    refine ⟨q, rows, cols, vs, hq, hrows, hcols, hcol, hvs, fun i hi => ?_⟩
    obtain ⟨n, hn, hlt⟩ := hentry i hi
    obtain rfl := Option.some.inj ((hframe.sizes _ n hn).symm.trans hlength)
    exact hlt
  obtain ⟨⟨⟩, b, hdeposit, hb⟩ := ha.yields_deposit (Plan.build_eq_ok hframe.build).1 hindex hreaches
    (perturbations.map Perturbation.step)
  rw [hdeposit]
  exact ⟨hscheme, hv, hb⟩

/-- Directions are evaluated one after another, until one of them fails. -/
theorem replies_runDirections (hframe : frame.Sound extent w.scheme.requests) (hw : P w.target)
    {ds : List (Direction × Nat)} (hds : ∀ d ∈ ds, d ∈ frame.cached.plan.directions.zipIdx)
    {a : Assembler R} (ha : a.Laid w.scheme.requests frame.cached.sizes
      frame.cached.plan.directions.length) :
    Action.Replies (fun _ _ => True) (fun e _ => T.Accounts P e)
      ((runDirections T frame ds a).perform w) := by
  induction ds generalizing w a with
  | nil => exact Action.replies_pure trivial
  | cons d rest ih =>
    refine Action.replies_bind (replies_runDirection hT hframe hw ha (hds d List.mem_cons_self))
      fun b v ⟨hscheme, hv, hb⟩ => ?_
    rw [← hscheme] at hframe hb
    exact ih hframe hv (fun d hd => hds d (List.mem_cons_of_mem _ hd)) hb

end Directions

section Values

omit [Scalar R] in
/-- **The variables of the requests are read with all their entries.** -/
theorem sized_readValues (ht : P t) {requests : List (Request R)}
    (hof : ∀ q ∈ requests, ∃ n, extent q.of = some n)
    (hwrt : ∀ q ∈ requests, ∃ n, extent q.wrt = some n) :
    (readValues T requests t).Gives (fun x => Target.Sized extent (requests.map Request.wrt) x.1 ∧
      Target.Sized extent (requests.map Request.of) x.2) (T.Accounts P) := by
  have hvalues {name : String} (hname : ∃ n, extent name = some n) :
      (T.values t name .real).Gives (fun _ => True) (T.Accounts P) := by
    obtain ⟨n, hn⟩ := hname
    exact (hT.gives_values ht hn .real).mono (fun _ _ => trivial) fun _ h => h
  have hread := gives_readValues fun q hq => ⟨hvalues (hof q hq), hvalues (hwrt q hq)⟩
  have hsized {names : List String} {known : Table String (List R)}
      (hkeys : ∀ name ∈ names, name ∈ known.keys ∧ ∃ n, extent name = some n)
      (hknown : ∀ name vs, known.get? name = some vs → T.values t name .real = .ok vs) :
      Target.Sized extent names known := by
    intro name hname
    obtain ⟨hmem, n, hn⟩ := hkeys name hname
    obtain ⟨vs, hvs⟩ : ∃ vs, known.get? name = some vs :=
      Option.ne_none_iff_exists'.1 fun hnone => (Table.get?_eq_none_iff _ _).1 hnone hmem
    have hlength := hT.values ht hn .real
    rw [hknown name vs hvs] at hlength
    exact ⟨vs, hvs, by rw [hn, show vs.length = n from hlength]⟩
  refine (hread.and (K := fun x => readValues T requests t = .ok x) fun _ => id).mono
    (fun (nominal, baseline) ⟨hkeys, hok⟩ => ?_) fun _ h => h
  refine ⟨hsized (fun name hname => ?_) fun _ _ => (values_of_readValues hok).1,
    hsized (fun name hname => ?_) fun _ _ => (values_of_readValues hok).2⟩
  · obtain ⟨q, hq, rfl⟩ := List.mem_map.1 hname
    exact ⟨(hkeys q hq).1, hwrt q hq⟩
  · obtain ⟨q, hq, rfl⟩ := List.mem_map.1 hname
    exact ⟨(hkeys q hq).2, hof q hq⟩

end Values

section Computing

variable {c : CachedPlan R} {rank ranks : Nat}

omit [Scalar R] in
/-- The variables of the requests of a planned scheme are announced. -/
theorem Planned.exists_extent [Scalar R] (hc : Planned T w.scheme w.target c) (hw : P w.target)
    {name : String} (hname : name ∈ w.scheme.variableNames) : ∃ n, extent name = some n := by
  obtain ⟨sizes, hsizes, -⟩ := hc.sizes
  obtain ⟨n, -, hn⟩ := get?_of_mem_variableNames hsizes hname
  have hsize := hT.size hw name
  rw [hn] at hsize
  exact ⟨n, hsize⟩

/-- **A rank is evaluated, or the target fails.** -/
theorem replies_evaluateRank (hc : Planned T w.scheme w.target c) (hw : P w.target) :
    Action.Replies (fun _ _ => True) (fun e _ => T.Accounts P e)
      ((evaluateRank T c rank ranks).perform w) := by
  have hvalid := (Plan.build_eq_ok hc.build).1
  obtain ⟨a, hstart⟩ := Assembler.exists_start c.plan fun q hq => by
    obtain ⟨-, rows, cols, hrows, hcols, -⟩ := Request.of_validate (hvalid q hq)
    exact ⟨rows, cols, hrows, hcols⟩
  obtain ⟨u, hchosen, hu⟩ := perform_chooseMethods (T := T) c.plan.settings w
  obtain ⟨methods, hmethods⟩ := exists_methods hc fun q hq => (Request.of_validate (hvalid q hq)).1
  have hrequests : u.scheme.requests = w.scheme.requests :=
    congrArg Role.requests (inRole_of_onSession hu).right
  have htarget : u.target = w.target := congrArg Prod.snd hu
  unfold evaluateRank
  rw [Action.perform_get_bind]
  refine Action.replies_ok_bind ((Outcome.ofExcept_eq_ok _ _).2 hstart) ?_
  rw [Action.perform_bind, hchosen]
  refine Action.replies_ok_bind ((Outcome.ofExcept_eq_ok _ _).2 hmethods) ?_
  have hread := sized_readValues hT hw
    (fun q hq => hc.exists_extent hT hw (mem_variableNames (s := w.scheme) hq).1)
    fun q hq => hc.exists_extent hT hw (mem_variableNames hq).2
  rw [← hrequests, ← htarget] at hread
  refine Action.replies_read_bind hread fun (nominal, baseline) hsized => ?_
  rw [hrequests] at hsized
  obtain ⟨sizes, hsizes, hget⟩ := hc.sizes
  have hframe : Frame.Sound extent u.scheme.requests ⟨c, methods, nominal, baseline⟩ := by
    rw [hrequests]
    refine ⟨hc.build, fun name n hn => ?_, hc.length_active, ?_, hsized.1, hsized.2⟩
    · have hsize := hT.size hw name
      rwa [size_of_sizes hsizes ((hget name).symm.trans hn)] at hsize
    · rw [← (Except.mapM_eq_ok.1 hmethods).length_eq, List.length_map]
  refine replies_runDirections hT hframe (htarget ▸ hw)
    (fun d hd => (Plan.mem_directionsFor.1 hd).1) ?_
  rw [hrequests]
  exact Assembler.laid_start hstart w.scheme.tolerance

omit hT in
/-- **The only rank has all directions in.** -/
theorem completed_of_evaluateRank (hbuild : Plan.build w.scheme.requests c.sizes = .ok c.plan)
    {a : Assembler R} {v : Session R σ} (h : (evaluateRank T c 0 1).perform w = (.ok a, v)) :
    a.completed = a.deposited.length := by
  have hborne : Borne T (fun _ => True) fun _ => True :=
    ⟨fun _ _ _ => trivial, fun _ _ => trivial, fun _ _ _ _ _ _ _ => .inl trivial,
      fun _ _ _ _ _ _ => .inl trivial⟩
  obtain ⟨frame, es, -, hes, ha⟩ :=
    hborne.delivered_of_evaluateRank trivial (Plan.nodup_columns hbuild) h
  have hindices : es.map Delivery.index = List.range c.plan.directions.length := by
    rw [Plan.directionsFor_zero_one] at hes
    have hsame : List.Forall₂ (fun d e => d.2 = e.index) c.plan.directions.zipIdx es :=
      hes.imp fun d e ⟨u, _, he⟩ => by
        obtain ⟨x, -, rfl⟩ := delivery_eq_ok.1 he
        rfl
    have hmap : List.Forall₂ Eq (c.plan.directions.zipIdx.map Prod.snd) (es.map Delivery.index) :=
      List.forall₂_map_left_iff.2 (List.forall₂_map_right_iff.2 hsame)
    rw [List.forall₂_eq_eq_eq] at hmap
    rw [← hmap, List.zipIdx_map_snd, List.range_eq_range']
  rw [ha.completed_eq, ha.deposited_eq, hindices, List.length_map]
  refine congrArg List.length (List.filter_eq_self.2 fun i hi => ?_)
  simpa using hi

/-- **Ranks are answered.** -/
theorem replies_computePartition (hcurrent : w.scheme.Current T) (hw : P w.target) :
    Action.Replies (fun _ _ => True) (fun e _ => T.Accounts P e)
      ((computePartition T rank ranks).perform w) := by
  refine Action.replies_bind (replies_takePlan hT hcurrent hw) fun c v ⟨hc, hv⟩ => ?_
  exact Action.replies_bind (Action.replies_attempt (replies_evaluateRank hT hc hv)) fun _ _ hr => hr

omit hT in
/-- Blocks are handed out, or an excess is refused. -/
theorem replies_finish {a : Assembler R} (ha : a.completed = a.deposited.length) :
    Action.Replies (fun _ _ => True) (fun e _ => T.Accounts P e)
      ((finish a : Work R σ (Jacobian R)).perform w) := by
  have hpolicy (mismatches : List (Mismatch R)) (w : Session R σ) :
      Action.Replies (fun _ _ => True) (fun e _ => T.Accounts P e)
        ((applyPolicy mismatches : Work R σ Unit).perform w) := by
    induction mismatches generalizing w with
    | nil => exact Action.replies_pure trivial
    | cons m rest ih =>
      unfold applyPolicy
      rw [Action.perform_get_bind]
      dsimp only
      split
      · exact Action.replies_pure trivial
      · exact Action.replies_modify_bind (ih _)
      · intro done total h
        cases h
  obtain ⟨found, hfound⟩ : ∃ found, a.finish = .ok found := by
    rw [Assembler.finish, if_pos ha]
    exact ⟨_, rfl⟩
  refine Action.replies_ok_bind ((Outcome.ofExcept_eq_ok _ _).2 hfound) ?_
  rw [Action.perform_get_bind]
  refine Action.replies_modify_bind ?_
  dsimp only
  split
  · exact Action.replies_bind (hpolicy _ _) fun _ _ _ => Action.replies_pure trivial
  · exact Action.replies_pure trivial

/-- **Computations are answered**, and miss no direction. -/
theorem replies_computeJacobian (hcurrent : w.scheme.Current T) (hw : P w.target) :
    Action.Replies (fun _ _ => True) (fun e _ => T.Accounts P e)
      ((computeJacobian T).perform w) := by
  refine Action.replies_bind ((replies_computePartition hT hcurrent hw).and
    (K := fun a _ => a.completed = a.deposited.length) fun a v h => ?_) fun a v h =>
      replies_finish h.2
  obtain ⟨c, u, x, htake, hrun, -⟩ := computePartition_eq_ok.1 h
  exact completed_of_evaluateRank (planned_taken hcurrent htake).1.build hrun

/-- Directions are counted, or a request is refused, or the target fails. -/
theorem replies_directionCount (hcurrent : w.scheme.Current T) (hw : P w.target) :
    Action.Replies (fun _ _ => True) (fun e _ => T.Accounts P e)
      ((directionCount T).perform w) :=
  Action.replies_bind (replies_takePlan hT hcurrent hw) fun _ _ _ =>
    Action.replies_modify_bind (Action.replies_pure trivial)

end Computing

section Reached

/-- A scheme after any calls: between calls the target may be brought to any state, with other sizes and
other dependencies too, and calls may fail. -/
inductive Reached (T : Target R σ) : Scheme R → Prop
  | new (owner : String) (site : Site R) (policy : PatternPolicy) (tolerance : R) :
    Reached T { empty owner site policy with tolerance := tolerance }
  | call {s : Scheme R} (h : Reached T s) (c : Call R) (diagnostics : Diagnostics) (t : σ)
    (hc : ((c.run T).perform ⟨s, diagnostics, t⟩).1.Answers) :
    Reached T ((c.run T).perform ⟨s, diagnostics, t⟩).2.scheme

omit hT in
theorem Reached.current (h : Reached T s) : s.Current T := by
  induction h with
  | new => exact fun _ hc => nomatch hc
  | @call s _ c diagnostics t hc ih => exact ih.run (w := ⟨s, diagnostics, t⟩) c hc

/-- **Computations are answered**: whatever the requests of a scheme are, and whatever calls there were
before, on a steady target directions are counted, ranks are computed and blocks are assembled without
a breach, and no direction is missing unless the target itself says so. The entries, columns, settings
and components that a plan refers to exist. -/
theorem answers_of_reached (hs : Reached T s) (ht : P t) (diagnostics : Diagnostics) :
    ((directionCount T).perform ⟨s, diagnostics, t⟩).1.Answers ∧
    (∀ rank ranks, ((computePartition T rank ranks).perform ⟨s, diagnostics, t⟩).1.Answers) ∧
    ((computeJacobian T).perform ⟨s, diagnostics, t⟩).1.Answers ∧
    (∀ done total, ((computeJacobian T).perform ⟨s, diagnostics, t⟩).1 =
      .fail (.incomplete done total) → T.Reports P (.incomplete done total)) ∧
    ∀ c w, (takePlan T).perform ⟨s, diagnostics, t⟩ = (.ok c, w) →
      c.plan.InRange s.requests c.sizes ∧ c.active.length = c.plan.directions.length := by
  let w : Session R σ := ⟨s, diagnostics, t⟩
  have hcurrent : w.scheme.Current T := hs.current
  have hcompute := replies_computeJacobian hT hcurrent ht
  refine ⟨(replies_directionCount hT hcurrent ht).answers,
    fun rank ranks => (replies_computePartition hT hcurrent ht).answers, hcompute.answers,
    fun done total h => hcompute.of_eq_fail h done total rfl, fun c v htake => ?_⟩
  have hplanned := planned_of_takePlan hcurrent htake
  exact ⟨Plan.inRange_of_build hplanned.build, hplanned.length_active⟩

end Reached

end Steady

section RunningSums

/-- Running sums are as many as what they are sums of. -/
theorem runningSums_steady (n : Nat) :
    runningSums.Steady (fun x => x.length = n) fun _ => some n where
  size h _ := congrArg some h.symm
  values {x} h name m hm part := by
    obtain rfl := Option.some.inj hm
    cases part with
    | real =>
      change (if name = "y" then (x.scanl (· + ·) 0).tail else x).length = n
      split
      · simpa using h
      · exact h
    | imag => trivial
  perturb {x} h name m hm i hi delta := by
    cases delta with
    | real step => exact (List.length_modify ..).trans h
    | imag step => exact h
  evaluate h _ _ := h
  restore h _ := h
  enter h _ _ := h
  leave h := h
  graph _ _ h := nomatch h

/-- The second running sum, twice, by the entries of `x`, the last one twice. -/
def repeating : Request Rat :=
  { Request.whole "y" "x" { Settings.finiteDifference with directional := true } with
    pattern := some ⟨[0, 1, 1, 0], [0, 1, 2, 2]⟩
    ofEntries := some [1, 1]
    wrtEntries := some [2, 0, 2] }

/-- A new scheme, once it has the request. -/
def repeatingScheme : Scheme Rat :=
  (((Call.add repeating).run runningSums).perform
    ⟨{ empty "model" .group .warn with tolerance := 0 }, default, [3, 5, 7]⟩).2.scheme

/-- Rows and columns that are asked for twice are computed. -/
theorem answers_repeating : Reached runningSums repeatingScheme ∧
    ((computeJacobian runningSums).perform
      ⟨repeatingScheme, default, [3, 5, 7]⟩).1.toOption.isSome = true ∧
    ((directionCount runningSums).perform ⟨repeatingScheme, default, [3, 5, 7]⟩).1.Answers ∧
    (∀ rank ranks, ((computePartition runningSums rank ranks).perform
      ⟨repeatingScheme, default, [3, 5, 7]⟩).1.Answers) ∧
    ∀ c w, (takePlan runningSums).perform ⟨repeatingScheme, default, [3, 5, 7]⟩ = (.ok c, w) →
      c.plan.InRange repeatingScheme.requests c.sizes ∧
        c.active.length = c.plan.directions.length := by
  have hreached : Reached runningSums repeatingScheme :=
    (Reached.new "model" .group .warn 0).call (.add repeating) default [3, 5, 7] (by decide +kernel)
  obtain ⟨hcount, hpartition, -, -, hrange⟩ :=
    answers_of_reached (runningSums_steady 3) hreached (t := [3, 5, 7]) rfl default
  exact ⟨hreached, by decide +kernel, hcount, hpartition, hrange⟩

end RunningSums

end Scheme

end Sensitivity
