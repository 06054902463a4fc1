import Sensitivity.Proofs.Approximation.Masking

/-!
# Blocks of selected entries

A request may select entries of its variables, in any order and with repetitions. Next to the scheme
that asks for all entries of the same variables (`Scheme.Selects`), a scheme without patterns plans
fewer directions, and each of them feeds more columns where entries are repeated. But a direction
still perturbs a single entry, for all requests by its variable, so what it measures is what the other
scheme measures for that entry, and the block holds the selected entries of the whole block
(`Scheme.entry_of_selects`).

The two computations need not start from the same state. It is enough that whatever is measured from
the states that they come back to comes to the same (`Target.Concordant`).
-/

namespace Sensitivity

variable {R σ : Type}

/-- The request for all entries of the same variables. -/
def Request.entire (q : Request R) : Request R := { q with ofEntries := none, wrtEntries := none }

/-- Directions that serve the same requests list them alike. -/
theorem Direction.requests_eq_of_mem_iff {d e : Direction}
    (h : ∀ r, r ∈ d.requests ↔ r ∈ e.requests) : d.requests = e.requests := by
  have hsorted (d : Direction) : d.requests.Pairwise (· < ·) := List.pairwise_lt_range.filter _
  have hnodup (d : Direction) : d.requests.Nodup := (hsorted d).imp Nat.ne_of_lt
  exact ((List.perm_ext_iff_of_nodup (hnodup d) (hnodup e)).2 h).eq_of_pairwise
    (fun _ _ _ _ hab hba => absurd hab (Nat.lt_asymm hba)) (hsorted d) (hsorted e)

variable [Scalar R]

/-- A target of which related states are measured alike: they show the same, and whatever is measured
from both of them comes to the same. -/
structure Target.Concordant (T : Target R σ) (rel : σ → σ → Prop) : Prop where
  size : ∀ {s t}, rel s t → ∀ name, T.size s name = T.size t name
  values : ∀ {s t}, rel s t → ∀ name part, T.values s name part = T.values t name part
  complexCapable : ∀ {s t}, rel s t → T.complexCapable s = T.complexCapable t
  complexStepActive : ∀ {s t}, rel s t → T.complexStepActive s = T.complexStepActive t
  graph : ∀ s t, T.graph s = T.graph t
  measure : ∀ {s t}, rel s t → ∀ active owner found perturbations of baseline x y s' t',
    (Scheme.measure (T.focus active) owner found perturbations of baseline).perform s = (.ok x, s') →
    (Scheme.measure (T.focus active) owner found perturbations of baseline).perform t = (.ok y, t') →
      x = y

omit [Scalar R] in
/-- What is not told apart is not told apart either when the same components always run. -/
theorem Target.Coupled.focus {T : Target R σ} {rel : σ → σ → Prop} (hT : T.Coupled rel)
    (active : ActiveSet) : (T.focus active).Coupled rel where
  size := hT.size
  values := hT.values
  perturb := hT.perturb
  evaluate _ mode := hT.evaluate active mode
  restore h h' hs ht := hT.restore h h' (Target.moved_of_focus hs) (Target.moved_of_focus ht)
  enter := hT.enter
  leave h h' hs ht := hT.leave h h' (Target.moved_of_focus hs) (Target.moved_of_focus ht)
  complexCapable := hT.complexCapable
  complexStepActive := hT.complexStepActive
  graph := hT.graph

/-- No measurement tells related states apart. -/
theorem Target.Coupled.twins_measure {T : Target R σ} {rel : σ → σ → Prop} (hT : T.Coupled rel)
    (owner : String) (found : Option (Stencil R)) (perturbations : List (Perturbation R))
    (of : List String) (baseline : Table String (List R)) :
    Action.Twins rel (Scheme.measure T owner found perturbations of baseline)
      (Scheme.measure T owner found perturbations of baseline) := by
  cases found with
  | some st => exact Stencil.twins_difference hT st perturbations .all of baseline
  | none => exact StepEngine.twins_runIdle hT owner perturbations .all of

namespace Plan

variable {requests : List (Request R)} {sizes : Sizes} {plan : Plan R}

/-- A direction with a single seed serves the requests by its variable that select its entry and have
its settings. -/
theorem mem_requests_iff [LawfulScalar R] (h : build requests sizes = .ok plan) {d : Direction}
    (hd : d ∈ plan.directions) {seed : Seed} (hsingle : d.seeds = [seed]) {own : Settings R}
    (hown : plan.settings[d.settings]? = some own) {r : Nat} :
    r ∈ d.requests ↔ ∃ q cols, requests[r]? = some q ∧ q.wrt = seed.wrt ∧
      (own == q.settings) = true ∧ q.cols sizes = .ok cols ∧ seed.index ∈ cols := by
  have hseed : seed ∈ d.seeds := hsingle ▸ List.mem_singleton_self seed
  rw [Direction.mem_requests, hsingle, List.flatMap_singleton]
  constructor
  · rintro ⟨column, hcolumn, rfl⟩
    obtain ⟨q, cols, own', hq, hcols, hk, hwrt, hown', hset⟩ :=
      exists_request_of_column h hd hseed hcolumn
    obtain rfl := Option.some.inj (hown.symm.trans hown')
    exact ⟨q, cols, hq, hwrt.symm, hset, hcols, List.mem_of_getElem? hk⟩
  · rintro ⟨q, cols, hq, hwrt, hset, hcols, hmem⟩
    obtain ⟨k, hk⟩ := List.mem_iff_getElem?.1 hmem
    exact ⟨⟨r, k⟩, mem_columns_of_beq h hd hseed hown hq hwrt.symm hset hcols hk, rfl⟩

end Plan

namespace Scheme

/-- A scheme that asks for selected entries of the blocks of another one, without patterns. Requests by
one variable select the same entries of it. -/
structure Selects (a b : Scheme R) : Prop where
  owner_eq : b.owner = a.owner
  site_eq : b.site = a.site
  requests_eq : b.requests = a.requests.map Request.entire
  plain : ∀ q ∈ a.requests, q.pattern = none
  uniform : ∀ p ∈ a.requests, ∀ q ∈ a.requests, p.wrt = q.wrt → p.wrtEntries = q.wrtEntries

variable {a b : Scheme R} {T : Target R σ} {P : Session R σ → Prop} {c c' : CachedPlan R}
  {frame frame' : Frame R} {w w' u u' : Session R σ}

omit [Scalar R] in
theorem Selects.sameVariables (h : a.Selects b) : SameVariables a b := by
  rw [SameVariables, h.requests_eq, List.map_map]
  rfl

omit [Scalar R] in
/-- What is selected of a variable are some of its entries. -/
theorem exists_size_of_select {name : String} {entries : Option (List Nat)} {sizes : Sizes}
    {is : List Nat} (h : Request.select (R := R) name entries sizes = .ok is) :
    ∃ n, sizes.get? name = some n ∧
      Request.select (R := R) name none sizes = .ok (List.range n) ∧ ∀ i ∈ is, i < n := by
  cases hn : sizes.get? name with
  | none => simp [Request.select, hn] at h
  | some n =>
    refine ⟨n, rfl, by simp [Request.select, hn], fun i hi => ?_⟩
    simpa [hn] using Request.lt_of_mem_select h hi

/-- **A direction of the selected entries serves the same requests** as the direction of all entries
that perturbs the same entry. -/
theorem Selects.requests_eq_of_single [LawfulScalar R] (hab : a.Selects b)
    (hbuild : Plan.build a.requests c.sizes = .ok c.plan)
    (hbuild' : Plan.build b.requests c'.sizes = .ok c'.plan)
    (hsizes : ∀ n, c'.sizes.get? n = c.sizes.get? n) {d d' : Direction}
    (hd : d ∈ c.plan.directions) (hd' : d' ∈ c'.plan.directions) {seed seed' : Seed}
    (hsingle : d.seeds = [seed]) (hsingle' : d'.seeds = [seed']) (hindex : seed'.index = seed.index)
    {q : Request R} (hq : q ∈ a.requests) (hwrt : seed.wrt = q.wrt) (hwrt' : seed'.wrt = q.wrt)
    {cols : List Nat} (hcols : q.cols c.sizes = .ok cols) (hmem : seed.index ∈ cols)
    (hown : c.plan.settings[d.settings]? = some q.settings)
    (hown' : c'.plan.settings[d'.settings]? = some q.settings) : d'.requests = d.requests := by
  refine Direction.requests_eq_of_mem_iff fun r => ?_
  rw [Plan.mem_requests_iff hbuild' hd' hsingle' hown', Plan.mem_requests_iff hbuild hd hsingle hown,
    hwrt, hwrt', hindex, hab.requests_eq]
  constructor
  · rintro ⟨_, -, hp, hpwrt, hset, -, -⟩
    obtain ⟨p, hp', rfl⟩ := Option.map_eq_some_iff.1 ((List.getElem?_map ..).symm.trans hp)
    have hpwrt : p.wrt = q.wrt := hpwrt
    refine ⟨p, cols, hp', hpwrt, hset, ?_, hmem⟩
    rw [← hcols, Request.cols, Request.cols, hpwrt,
      hab.uniform p (List.mem_of_getElem? hp') q hq hpwrt]
  · rintro ⟨p, cols', hp, hpwrt, hset, hcols', hmem'⟩
    obtain ⟨n, -, hall, hlt⟩ := exists_size_of_select hcols'
    refine ⟨p.entire, List.range n, by rw [List.getElem?_map, hp]; rfl, hpwrt, hset, ?_,
      List.mem_range.2 (hlt _ hmem')⟩
    rw [Request.cols_congr hsizes]
    exact hall

/-- Without patterns a column comes from a direction that perturbs the entry that it stands for, and
nothing else. -/
theorem exists_delivery_of_column [StrictScalar R]
    (hbuild : Plan.build w.scheme.requests c.sizes = .ok c.plan)
    (hplain : ∀ q ∈ w.scheme.requests, q.pattern = none) {es : List (Delivery R)}
    (hes : List.Forall₂ (DeliversIn T P frame) c.plan.directions.zipIdx es) {r k j : Nat}
    {q : Request R} (hq : w.scheme.requests[r]? = some q) {cols : List Nat}
    (hcols : q.cols c.sizes = .ok cols) (hk : cols[k]? = some j) :
    ∃ d ∈ c.plan.directions.zipIdx, ∃ e seed step u, d.1.seeds = [seed] ∧ seed.wrt = q.wrt ∧
      seed.index = j ∧ c.plan.settings[d.1.settings]? = some q.settings ∧ P u ∧
      delivery T frame u d = .ok e ∧ e.steps = [step] ∧
      ∃ alone, Assembler.sources (es.flatMap Delivery.columns) r k =
        some ⟨e.numerators, step, alone⟩ := by
  obtain ⟨d, hd, e, hin, seed, step, hzip, hcolumn, hsource⟩ :=
    source_of_delivered (fun _ _ h => h.map_fst_columns) hbuild hes hq hcols hk
  obtain ⟨u, hu, he⟩ := hin
  have hd' : d.1 ∈ c.plan.directions := List.mem_of_getElem? (List.mem_zipIdx_iff_getElem?.1 hd)
  obtain ⟨v, found, perturbations, active, numerators, t, -, hperturbations, -, -, rfl⟩ :=
    measured_of_delivery he
  have hseed : seed ∈ d.1.seeds := (List.of_mem_zip hzip).1
  obtain ⟨q', cols', own, hq', hcols', hindex, hwrt, hown, hset⟩ :=
    Plan.exists_request_of_column hbuild hd' hseed hcolumn
  obtain rfl := Option.some.inj (hq.symm.trans hq')
  obtain rfl := Except.ok.inj (hcols.symm.trans hcols')
  obtain rfl : own = q.settings := by
    obtain ⟨q', hq', rfl⟩ := Plan.exists_request_of_settings hbuild (List.mem_of_getElem? hown)
    exact Settings.eq_of_beq_of_validate hset
      (Request.of_validate ((Plan.build_eq_ok hbuild).1 q' hq')).1
  have hsingle := Plan.seeds_eq_singleton hbuild hd' hseed hcolumn hq
    (.inr (hplain q (List.mem_of_getElem? hq)))
  rw [hsingle] at hzip hperturbations
  obtain ⟨p, -, rfl⟩ := Except.mapM_singleton_eq_ok.1 hperturbations
  obtain rfl : step = p.step := by simpa using hzip
  exact ⟨d, hd, _, seed, p.step, u, hsingle, hwrt, Option.some.inj (hindex.symm.trans hk), hown, hu,
    he, rfl, _, hsource⟩

section Concordant

variable {rel : σ → σ → Prop} (hT : T.Concordant rel)

include hT

theorem Target.Concordant.settingsAt_eq {s t : σ} (h : rel s t) (own : Settings R) :
    settingsAt T s own = settingsAt T t own := by
  simp only [settingsAt, hT.complexCapable h, hT.complexStepActive h]

/-- **Directions that perturb the same entry for the same requests measure the same**, in schemes of
one scope that ask for the same variables. -/
theorem eq_of_deliveries (hw : rel w.target w'.target) (hu : rel u.target u'.target)
    (hrole : u.scheme.role = w.scheme.role) (hrole' : u'.scheme.role = w'.scheme.role)
    (howner : w'.scheme.owner = w.scheme.owner) (hsite : w'.scheme.site = w.scheme.site)
    (hsame : SameVariables w.scheme w'.scheme) (hc : Planned T w.scheme w.target c)
    (hc' : Planned T w'.scheme w'.target c') (hframe : frameAt T c w.scheme w.target = .ok frame)
    (hframe' : frameAt T c' w'.scheme w'.target = .ok frame') {d d' : Direction × Nat}
    (hd : d ∈ c.plan.directions.zipIdx) (hd' : d' ∈ c'.plan.directions.zipIdx) {seed seed' : Seed}
    (hsingle : d.1.seeds = [seed]) (hsingle' : d'.1.seeds = [seed']) (hwrt : seed'.wrt = seed.wrt)
    (hindex : seed'.index = seed.index) {own : Settings R}
    (hown : c.plan.settings[d.1.settings]? = some own)
    (hown' : c'.plan.settings[d'.1.settings]? = some own) (hserves : d'.1.requests = d.1.requests)
    {e e' : Delivery R} (he : delivery T frame u d = .ok e) (he' : delivery T frame' u' d' = .ok e') :
    e'.steps = e.steps ∧ e'.numerators = e.numerators := by
  obtain ⟨v, found, perturbations, active, numerators, t, hmethod, hperturbations, hactive,
    hmeasure, rfl⟩ := measured_of_delivery he
  obtain ⟨v', found', perturbations', active', numerators', t', hmethod', hperturbations', hactive',
    hmeasure', rfl⟩ := measured_of_delivery he'
  obtain ⟨methods, hmethods, hframe⟩ := Except.bind_eq_ok.1 hframe
  obtain ⟨values, hvalues, hframe⟩ := Except.bind_eq_ok.1 hframe
  cases hframe
  obtain ⟨methods', hmethods', hframe'⟩ := Except.bind_eq_ok.1 hframe'
  obtain ⟨values', hvalues', hframe'⟩ := Except.bind_eq_ok.1 hframe'
  cases hframe'
  -- both read the same values before any perturbation
  have hread : readValues T w'.scheme.requests w'.target = readValues T w.scheme.requests w.target := by
    rw [hsame.readValues_eq]
    simp only [readValues, hT.values hw]
  rw [hread, hvalues] at hvalues'
  obtain rfl := Except.ok.inj hvalues'
  -- and use the same settings
  obtain ⟨hv, hfound⟩ := getElem?_of_methods ((Outcome.ofExcept_eq_ok _ _).1 hmethods) hmethod
  obtain ⟨hv', hfound'⟩ := getElem?_of_methods ((Outcome.ofExcept_eq_ok _ _).1 hmethods') hmethod'
  rw [List.getElem?_map, hown, Option.map_some, Option.some.injEq] at hv
  rw [List.getElem?_map, hown', Option.map_some, Option.some.injEq,
    ← Target.Concordant.settingsAt_eq hT hw] at hv'
  subst hv hv'
  obtain rfl := Except.ok.inj (hfound.symm.trans hfound')
  have howner' : u'.scheme.owner = u.scheme.owner :=
    (congrArg Role.owner hrole').trans (howner.trans (congrArg Role.owner hrole).symm)
  have hsite' : u'.scheme.site = u.scheme.site :=
    (congrArg Role.site hrole').trans (hsite.trans (congrArg Role.site hrole).symm)
  have hnames : u'.scheme.ofNames d'.1.requests = u.scheme.ofNames d.1.requests := by
    have hrequests : u.scheme.requests = w.scheme.requests := congrArg Role.requests hrole
    have hrequests' : u'.scheme.requests = w'.scheme.requests := congrArg Role.requests hrole'
    have := hsame.ofNames_eq d.1.requests
    simp only [ofNames, hrequests, hrequests', hserves] at this ⊢
    exact this
  -- they perturb the same entry by the same step
  have hperturbation (nominal : Table String (List R)) (own : Settings R) :
      perturbation u'.scheme.site nominal own seed' = perturbation u.scheme.site nominal own seed := by
    simp only [perturbation, hsite', hwrt, hindex]
  rw [hsingle'] at hperturbations'
  rw [hsingle] at hperturbations
  obtain ⟨p, hp, rfl⟩ := Except.mapM_singleton_eq_ok.1 hperturbations
  obtain ⟨p', hp', rfl⟩ := Except.mapM_singleton_eq_ok.1 hperturbations'
  rw [hperturbation] at hp'
  obtain rfl := Except.ok.inj (hp.symm.trans hp')
  -- and run the same components
  obtain ⟨g, hg⟩ := hc.activeSet hd hactive
  obtain ⟨g', hg'⟩ := hc'.activeSet hd' hactive'
  have hperturbed : d'.1.perturbed = d.1.perturbed := by
    simp only [Direction.perturbed, hsingle, hsingle', List.map_cons, List.map_nil, hwrt]
  have hdirection : w'.scheme.activeSet (T.graph g') d'.1 = w.scheme.activeSet (T.graph g) d.1 := by
    rw [hsame.activeSet_eq, hT.graph g' g]
    simp only [activeSet, hperturbed, hserves]
  obtain rfl := Except.ok.inj (hg.symm.trans (hdirection.symm.trans hg'))
  rw [howner', hnames] at hmeasure'
  exact ⟨rfl, (hT.measure hu _ _ _ _ _ _ _ _ _ _ hmeasure hmeasure').symm⟩

end Concordant

section Blocks

variable {γ : Type} {view : σ → γ} {I : σ → Prop} {a b : Scheme R} {T : Target R σ}

/-- Evaluating directions sustains the identity and the view together with an invariant of the
target. -/
theorem borne_invariant (hT : T.Restoring view) (hI : T.Invariant I) (w : Session R σ) :
    Borne T (fun u => onSession view u = onSession view w ∧ I u.target) fun _ => True := by
  have hview := borne_onSession hT w
  have hinv := borne_target hI.sustained
  have hboth {α : Type} {x : Work R σ α}
      (h : x.Sustains (fun u => onSession view u = onSession view w) fun _ => True)
      (h' : x.Sustains (fun u => I u.target) fun _ => True) :
      x.Sustains (fun u => onSession view u = onSession view w ∧ I u.target) fun _ => True :=
    fun u hu => Action.ends_of_answers fun ha =>
      ⟨(h u hu.1).of_answers ha, (h' u hu.2).of_answers ha⟩
  exact {
    warned := fun _ _ hu => hu
    noticed := fun _ hu => hu
    difference := fun st perturbations active of baseline =>
      hboth (hview.difference st perturbations active of baseline)
        (hinv.difference st perturbations active of baseline)
    step := fun owner perturbations active of =>
      hboth (hview.step owner perturbations active of) (hinv.step owner perturbations active of) }

/-- The column of an entry that is selected and the column of that entry among all have one source. -/
theorem exists_sources_of_selects [StrictScalar R] {w w' : Session R σ} {c c' : CachedPlan R}
    {frame frame' : Frame R} {es es' : List (Delivery R)}
    (hrel : T.Concordant fun s t => I s ∧ I t ∧ view s = view t) (hab : w.scheme.Selects w'.scheme)
    (hs : I w.target) (ht : I w'.target) (hst : view w.target = view w'.target)
    (hc : Planned T w.scheme w.target c) (hc' : Planned T w'.scheme w'.target c')
    (hsizes : ∀ n, c'.sizes.get? n = c.sizes.get? n)
    (hframe : frameAt T c w.scheme w.target = .ok frame)
    (hframe' : frameAt T c' w'.scheme w'.target = .ok frame')
    (hes : List.Forall₂ (DeliversIn T (fun u => onSession view u = onSession view w ∧ I u.target) frame)
      c.plan.directions.zipIdx es)
    (hes' : List.Forall₂
      (DeliversIn T (fun u => onSession view u = onSession view w' ∧ I u.target) frame')
      c'.plan.directions.zipIdx es') {r : Nat} {q : Request R} (hq : w.scheme.requests[r]? = some q)
    {cols cols' : List Nat} (hcols : q.cols c.sizes = .ok cols)
    (hcols' : q.entire.cols c'.sizes = .ok cols') {l l' j : Nat} (hl : cols[l]? = some j)
    (hl' : cols'[l']? = some j) :
    ∃ numerators step alone alone',
      Assembler.sources (es.flatMap Delivery.columns) r l = some ⟨numerators, step, alone⟩ ∧
      Assembler.sources (es'.flatMap Delivery.columns) r l' = some ⟨numerators, step, alone'⟩ := by
  have hq' : w'.scheme.requests[r]? = some q.entire := by
    rw [hab.requests_eq, List.getElem?_map, hq]
    rfl
  have hplain' : ∀ q ∈ w'.scheme.requests, q.pattern = none := by
    intro _ hp
    rw [hab.requests_eq] at hp
    obtain ⟨p, hp', rfl⟩ := List.mem_map.1 hp
    exact hab.plain p hp'
  obtain ⟨e, he, x, seed, step, u, hsingle, hwrt, hindex, hown, ⟨hu, hiu⟩, hx, hstep, alone,
    hsource⟩ := exists_delivery_of_column hc.build hab.plain hes hq hcols hl
  obtain ⟨e', he', x', seed', step', u', hsingle', hwrt', hindex', hown', ⟨hu', hiu'⟩, hx', hstep',
    alone', hsource'⟩ := exists_delivery_of_column hc'.build hplain' hes' hq' hcols' hl'
  have hserves : e'.1.requests = e.1.requests :=
    hab.requests_eq_of_single hc.build hc'.build hsizes
      (List.mem_of_getElem? (List.mem_zipIdx_iff_getElem?.1 he))
      (List.mem_of_getElem? (List.mem_zipIdx_iff_getElem?.1 he')) hsingle hsingle'
      (hindex'.trans hindex.symm) (List.mem_of_getElem? hq) hwrt hwrt' hcols
      (hindex ▸ List.mem_of_getElem? hl) hown hown'
  have huu' : view u.target = view u'.target :=
    (congrArg Prod.snd hu).trans (hst.trans (congrArg Prod.snd hu').symm)
  obtain ⟨hsteps, hnumerators⟩ := eq_of_deliveries hrel ⟨hs, ht, hst⟩ ⟨hiu, hiu', huu'⟩
    (inRole_of_onSession hu).right (inRole_of_onSession hu').right hab.owner_eq hab.site_eq
    hab.sameVariables hc hc' hframe hframe' he he' hsingle hsingle' (hwrt'.trans hwrt.symm)
    (hindex'.trans hindex.symm) hown hown' hserves hx hx'
  rw [hstep, hstep', List.singleton_inj] at hsteps
  exact ⟨x.numerators, step, alone, alone', hsource, hnumerators ▸ hsteps ▸ hsource'⟩

/-- **The block of selected entries holds the entries of the whole block** that its rows and columns
stand for. -/
theorem entry_of_selects [StrictScalar R] (hT : T.Restoring view) (hI : T.Invariant I)
    (hrel : T.Concordant fun s t => I s ∧ I t ∧ view s = view t) (hab : a.Selects b)
    (ha : a.Current T) (hb : b.Current T)
    (hdistinct : (a.requests.map fun q => (q.of, q.wrt)).Nodup) {s t : σ} (hs : I s) (ht : I t)
    (hst : view s = view t) {d d' : Diagnostics} {chosen full : Jacobian R} {w w' : Session R σ}
    (h : (computeJacobian T).perform ⟨a, d, s⟩ = (.ok chosen, w))
    (h' : (computeJacobian T).perform ⟨b, d', t⟩ = (.ok full, w')) :
    ∃ sizes, a.sizes T s = .ok sizes ∧ ∀ q ∈ a.requests, ∃ rows cols block dense,
      q.rows sizes = .ok rows ∧ q.cols sizes = .ok cols ∧
      chosen.get? (q.of, q.wrt) = some (.dense block) ∧ full.get? (q.of, q.wrt) = some (.dense dense) ∧
      block.rows = rows.length ∧ block.cols = cols.length ∧ ∀ k l i j, rows[k]? = some i →
        cols[l]? = some j → i < dense.rows ∧ j < dense.cols ∧ block.entry k l = dense.entry i j := by
  have hcongr (w : Session R σ) {u u' : Session R σ}
      (hu : onSession view u = onSession view w ∧ I u.target)
      (huu' : onSession id u' = onSession id u) :
      onSession view u' = onSession view w ∧ I u'.target := by
    obtain ⟨hidentity, htarget⟩ := Prod.mk.inj huu'
    have htarget : u'.target = u.target := htarget
    exact ⟨hu.1 ▸ Prod.ext hidentity (congrArg view htarget), htarget ▸ hu.2⟩
  obtain ⟨c, frame, es, x, hc, hframe, hes, hx, rfl⟩ :=
    (borne_invariant hT hI ⟨a, d, s⟩).delivered_of_computeJacobian (hcongr _) ⟨rfl, hs⟩ ha h
  obtain ⟨c', frame', es', x', hc', hframe', hes', hx', rfl⟩ :=
    (borne_invariant hT hI ⟨b, d', t⟩).delivered_of_computeJacobian (hcongr _) ⟨rfl, ht⟩ hb h'
  have hw : I s ∧ I t ∧ view s = view t := ⟨hs, ht, hst⟩
  have hsame := hab.sameVariables
  obtain ⟨sizes, hsizes, hget⟩ := hc.sizes
  obtain ⟨sizes', hsizes', hget'⟩ := hc'.sizes
  have hsizes₀ : b.sizes T t = a.sizes T s := by
    rw [hsame.sizes_eq]
    simp only [Scheme.sizes, hrel.size hw]
  obtain rfl := Except.ok.inj (hsizes.symm.trans (hsizes₀.symm.trans hsizes'))
  have hgets (n : String) : c'.sizes.get? n = c.sizes.get? n := (hget' n).trans (hget n).symm
  refine ⟨sizes, hsizes, fun q hq => ?_⟩
  obtain ⟨r, hr⟩ := List.mem_iff_getElem?.1 hq
  have hr' : b.requests[r]? = some q.entire := by rw [hab.requests_eq, List.getElem?_map, hr]; rfl
  obtain ⟨slot, hslot, hfilled⟩ := hx.slot r q hr
  obtain ⟨slot', hslot', hfilled'⟩ := hx'.slot r q.entire hr'
  obtain ⟨cols, hcols, hblock⟩ := hfilled.block
  obtain ⟨cols', hcols', hblock'⟩ := hfilled'.block
  rw [hab.plain q hq] at hblock
  rw [show q.entire.pattern = none from hab.plain q hq] at hblock'
  obtain ⟨block, hdense, hrows, hwidth, hentries⟩ := hblock
  obtain ⟨dense, hdense', hrows', hwidth', hentries'⟩ := hblock'
  have hdistinct' : (b.requests.map fun q => (q.of, q.wrt)).Nodup := hsame ▸ hdistinct
  have hchosen := get?_of_slots hx hdistinct hslot hfilled
  have hfull := get?_of_slots hx' hdistinct' (q := q.entire) hslot' hfilled'
  rw [hdense] at hchosen
  rw [hdense'] at hfull
  refine ⟨slot.rows, cols, block, dense, Request.rows_congr hget q ▸ hfilled.rows_eq,
    Request.cols_congr hget q ▸ hcols, hchosen, hfull, hrows, hwidth, fun k l i j hk hl => ?_⟩
  -- the whole block has a row and a column for each entry
  obtain ⟨n, -, hall, hlt⟩ := exists_size_of_select hfilled.rows_eq
  obtain ⟨m, -, hall', hlt'⟩ := exists_size_of_select hcols
  obtain hslots : List.range n = slot'.rows :=
    Except.ok.inj (hall.symm.trans ((Request.rows_congr hgets q.entire).symm.trans hfilled'.rows_eq))
  obtain rfl : List.range m = cols' :=
    Except.ok.inj (hall'.symm.trans ((Request.cols_congr hgets q.entire).symm.trans hcols'))
  have hi := hlt i (List.mem_of_getElem? hk)
  have hj := hlt' j (List.mem_of_getElem? hl)
  rw [← hslots, List.length_range] at hrows'
  rw [List.length_range] at hwidth'
  have hat : slot'.rows[i]? = some i := by rw [← hslots, List.getElem?_range hi]
  obtain ⟨numerators, step, alone, alone', hsource, hsource'⟩ := exists_sources_of_selects hrel hab hs
    ht hst hc hc' hgets hframe hframe' hes hes' hr hcols hcols' hl (List.getElem?_range hj)
  obtain ⟨hk', -⟩ := List.getElem?_eq_some_iff.1 hk
  obtain ⟨hl', -⟩ := List.getElem?_eq_some_iff.1 hl
  refine ⟨hrows' ▸ hi, hwidth' ▸ hj, congrArg (Option.getD · 0) ?_⟩
  rw [hentries k (hrows ▸ hk') l (hwidth ▸ hl'), hentries' i (hrows' ▸ hi) j (hwidth' ▸ hj),
    AssemblySlot.cell, AssemblySlot.cell, hsource, hsource', hk, hat]
  rfl

end Blocks

end Scheme

end Sensitivity
