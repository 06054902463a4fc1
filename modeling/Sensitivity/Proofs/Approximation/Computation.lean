import Sensitivity.Proofs.Approximation.Coloring
import Sensitivity.Proofs.Approximation.Deposits
import Sensitivity.Proofs.Approximation.Invariants
import Sensitivity.Proofs.Approximation.Response

/-!
# What a computation stores

A computation on an exact target without a graph takes a plan for the requests of the scheme
(`Scheme.planned_of_takePlan`), chooses the settings that are used from what the target can do
(`Scheme.eq_of_chooseMethods`), and deposits every column of every direction. Each deposit holds
what the responses of the target at the starting point yield (`Scheme.Measured`), and the blocks are
read off the deposits (`Scheme.stored_of_computeJacobian`).
-/

namespace Sensitivity

variable {R σ γ : Type} [Scalar R]

/-- A direction serves the requests of the columns that its seeds feed. -/
theorem Direction.mem_requests {d : Direction} {r : Nat} :
    r ∈ d.requests ↔ ∃ c ∈ d.seeds.flatMap Seed.columns, c.request = r := by
  have hbound (rs : List Nat) (hr : r ∈ rs) :
      r < rs.foldr (fun r bound => max (r + 1) bound) 0 := by
    induction rs with
    | nil => cases hr
    | cons x rest ih =>
      rw [List.foldr_cons]
      rcases List.mem_cons.1 hr with rfl | hr
      · omega
      · have := ih hr
        omega
  simp only [Direction.requests, List.mem_filter, List.mem_range, List.contains_iff_mem]
  rw [← List.mem_map]
  exact ⟨And.right, fun hr => ⟨hbound _ hr, hr⟩⟩

namespace Scheme

variable {T : Target R σ} {view : σ → γ}

omit [Scalar R] in
/-- The sizes of a scheme are those that its target has for the variables. -/
theorem size_of_sizes {s : Scheme R} {t : σ} {sizes : Sizes} (h : s.sizes T t = .ok sizes)
    {name : String} {n : Nat} (hn : sizes.get? name = some n) : T.size t name = .ok n := by
  obtain ⟨entries, hentries, h⟩ := Except.bind_eq_ok.1 h
  cases h
  obtain ⟨name', -, hsize⟩ := (Except.mem_mapM hentries).1 (Table.mem_of_get?_ofList hn)
  obtain ⟨n', hn', hsize⟩ := Except.bind_eq_ok.1 hsize
  obtain ⟨rfl, rfl⟩ := Prod.mk.inj (Except.ok.inj hsize)
  exact hn'

section Planned

omit [Scalar R] in
/-- What an action that answers leaves of the identity of the scheme and of the view. -/
theorem onSession_eq {α : Type} {f : σ → γ} {a : Work R σ α} (ha : a.Keeps (onSession f))
    {w w' : Session R σ} {v : α} (h : a.perform w = (.ok v, w')) :
    onSession f w' = onSession f w := by
  have := ha _ w rfl (by rw [h]; exact Outcome.answers_ok v)
  rwa [h] at this

/-- The kept plan of a scheme, as long as its version is current, was made for its requests. -/
def Current (T : Target R σ) (s : Scheme R) : Prop :=
  ∀ c, s.cache = some c → c.version ≤ s.version ∧
    (c.version = s.version → ∃ t, s.makePlan T t c.sizes = .ok c)

/-- A plan that fits a scheme on a target: it was made for the requests of the scheme, at the
current sizes. -/
structure Planned (T : Target R σ) (s : Scheme R) (t : σ) (c : CachedPlan R) : Prop where
  version_eq : c.version = s.version
  made : ∃ u, s.makePlan T u c.sizes = .ok c
  sizes : ∃ sizes, s.sizes T t = .ok sizes ∧ ∀ n, c.sizes.get? n = sizes.get? n

theorem planned_of_takePlan {w w' : Session R σ} {c : CachedPlan R}
    (hw : w.scheme.Current T) (h : (takePlan T).perform w = (.ok c, w')) :
    Planned T w.scheme w.target c := by
  unfold takePlan at h
  rw [Action.perform_get_bind] at h
  obtain ⟨sizes, hsizes, h⟩ := Action.ofOutcome_bind_eq_ok.1 h
  obtain ⟨⟨⟩, w₁, hmodify, h⟩ := Action.bind_eq_ok.1 h
  cases hmodify
  dsimp only at h
  split at h
  · rename_i found hfound
    cases h
    obtain ⟨hcache, hfits⟩ := Option.filter_eq_some_iff.1 hfound
    obtain ⟨hversion, hsame⟩ := Bool.and_eq_true_iff.1 hfits
    have hv : c.version = w.scheme.version := by simpa using hversion
    exact ⟨hv, (hw c hcache).2 hv, sizes, hsizes, Table.get?_eq_of_sameEntries hsame⟩
  · obtain ⟨made, hmade, h⟩ := Action.ofOutcome_bind_eq_ok.1 h
    obtain ⟨⟨⟩, w₂, hmodify, h⟩ := Action.bind_eq_ok.1 h
    cases h
    obtain ⟨plan, hplan, hactive⟩ := Except.bind_eq_ok.1 hmade
    obtain ⟨active, hactive, hc⟩ := Except.bind_eq_ok.1 hactive
    cases hc
    exact ⟨rfl, ⟨w.target, hmade⟩, sizes, hsizes, fun _ => rfl⟩

/-- The plan of the requests, and what its directions run on a target without a graph. -/
theorem Planned.build {s : Scheme R} {t : σ} {c : CachedPlan R} (h : Planned T s t c) :
    Plan.build s.requests c.sizes = .ok c.plan := by
  obtain ⟨u, hu⟩ := h.made
  obtain ⟨plan, hplan, hactive⟩ := Except.bind_eq_ok.1 hu
  obtain ⟨active, -, hc⟩ := Except.bind_eq_ok.1 hactive
  rw [← Except.ok.inj hc]
  exact hplan

/-- Without a graph every direction runs everything. -/
theorem Planned.active {s : Scheme R} {t : σ} {c : CachedPlan R} (h : Planned T s t c)
    (hgraph : ∀ u, T.graph u = none) {index : Nat} {active : ActiveSet}
    (hactive : c.active[index]? = some active) : active = .all := by
  obtain ⟨u, hu⟩ := h.made
  obtain ⟨plan, -, hactives⟩ := Except.bind_eq_ok.1 hu
  obtain ⟨actives, hactives, hc⟩ := Except.bind_eq_ok.1 hactives
  rw [← Except.ok.inj hc] at hactive
  obtain ⟨d, -, hd⟩ := (Except.mem_mapM hactives).1 (List.mem_of_getElem? hactive)
  simp only [activeSet, hgraph u] at hd
  exact (Except.ok.inj hd).symm

/-- Of a target, only the dependencies matter for which plans are current. -/
theorem Current.of_graph {U : Target R σ} (hgraph : ∀ t, T.graph t = U.graph t) {s : Scheme R}
    (h : s.Current T) : s.Current U := by
  intro c hc
  obtain ⟨hle, hmade⟩ := h c hc
  refine ⟨hle, fun hversion => ?_⟩
  obtain ⟨t, ht⟩ := hmade hversion
  exact ⟨t, by simpa only [makePlan, hgraph] using ht⟩

/-- A new scheme has no plan. -/
theorem current_empty (owner : String) (site : Site R) (policy : PatternPolicy) :
    (empty owner site policy).Current T := fun _ h => nomatch h

/-- A kept plan is older than requests that change now. -/
theorem Current.of_cache_eq {s s' : Scheme R} (h : s.Current T)
    (hcache : s'.cache = s.cache) (hversion : s'.version = s.version + 1) : s'.Current T := by
  intro c hc
  obtain ⟨hle, -⟩ := h c (hcache ▸ hc)
  exact ⟨by omega, fun heq => by omega⟩

theorem Current.addRequest {s s' : Scheme R} (h : s.Current T) {q : Request R}
    (hq : s.addRequest q = .ok s') : s'.Current T := by
  unfold Scheme.addRequest at hq
  split at hq
  · cases hq
  · cases hq
    exact h.of_cache_eq rfl rfl

theorem Current.addRequests {s s' : Scheme R} (h : s.Current T) {qs : List (Request R)}
    (hqs : s.addRequests qs = .ok s') : s'.Current T := by
  unfold Scheme.addRequests at hqs
  induction qs generalizing s with
  | nil =>
    cases hqs
    exact h
  | cons q rest ih =>
    rw [List.foldlM_cons] at hqs
    obtain ⟨s₁, hs₁, hrest⟩ := Except.bind_eq_ok.1 hqs
    exact ih (h.addRequest hs₁) hrest

theorem Current.clearRequests {s : Scheme R} (h : s.Current T) : s.clearRequests.Current T :=
  h.of_cache_eq rfl rfl

/-- Plans are made from the requests and their version. -/
theorem makePlan_congr {s s' : Scheme R} (hrequests : s'.requests = s.requests)
    (hversion : s'.version = s.version) (t : σ) (sizes : Sizes) :
    s'.makePlan T t sizes = s.makePlan T t sizes := by
  have hof (rs : List Nat) : s'.ofNames rs = s.ofNames rs := by simp only [ofNames, hrequests]
  have hactive : s'.activeSet (T.graph t) = s.activeSet (T.graph t) := by
    funext d
    simp only [activeSet, hof]
  simp only [makePlan, hrequests, hversion, hactive]

section Settled

variable {ι : String × Site R × List (Request R) × Nat × PatternPolicy × R}

/-- A session whose scheme is the one that it was, with a current plan. -/
def Settled (T : Target R σ) (ι : String × Site R × List (Request R) × Nat × PatternPolicy × R)
    (w : Session R σ) : Prop := w.scheme.identity = ι ∧ w.scheme.Current T

/-- A session whose scheme is the one that it was, with a plan of which something holds, if it has
one. -/
def Holding (K : CachedPlan R → Prop)
    (ι : String × Site R × List (Request R) × Nat × PatternPolicy × R) (w : Session R σ) : Prop :=
  w.scheme.identity = ι ∧ ∀ c, w.scheme.cache = some c → K c

/-- What holds of a current plan of a scheme with some identity. -/
def CurrentPlan (T : Target R σ) (ι : String × Site R × List (Request R) × Nat × PatternPolicy × R)
    (c : CachedPlan R) : Prop :=
  ∀ s : Scheme R, s.identity = ι → c.version ≤ s.version ∧
    (c.version = s.version → ∃ t, s.makePlan T t c.sizes = .ok c)

theorem settled_iff {w : Session R σ} : Settled T ι w ↔ Holding (CurrentPlan T ι) ι w := by
  refine ⟨fun hw => ⟨hw.1, fun c hc s hs => ?_⟩, fun hw => ⟨hw.1, fun c hc => hw.2 c hc _ hw.1⟩⟩
  have hsame := hw.1.trans hs.symm
  simp only [identity, Prod.mk.injEq] at hsame
  obtain ⟨-, -, hrequests, hversion, -⟩ := hsame
  obtain ⟨hle, hmade⟩ := hw.2 c hc
  refine ⟨hle.trans hversion.le, fun h => ?_⟩
  obtain ⟨t, ht⟩ := hmade (h.trans hversion.symm)
  exact ⟨t, (makePlan_congr hrequests.symm hversion.symm t _).trans ht⟩

theorem sustains_holding_takePlan {K : CachedPlan R → Prop} :
    (takePlan T).Sustains (Holding K ι) (Holding K ι) := by
  unfold takePlan
  refine Action.sustains_bind Action.sustains_get fun w => ?_
  refine Action.sustains_bind (Action.sustains_ofOutcome _) fun sizes => ?_
  refine Action.sustains_bind
    (Action.sustains_modify fun _ h => ⟨h.1, fun _ hc => nomatch hc⟩) fun _ => ?_
  dsimp only
  split
  · exact Action.sustains_pure _
  · exact Action.sustains_bind (Action.sustains_ofOutcome _) fun c =>
      Action.sustains_bind (Action.sustains_modify fun _ h => h) fun _ => Action.sustains_pure _

theorem sustains_takePlan : (takePlan T).Sustains (Settled T ι) (Settled T ι) := by
  simp only [Action.Sustains, Action.Ends, settled_iff]
  exact sustains_holding_takePlan

/-- A plan is taken out. -/
theorem cache_of_takePlan {w w' : Session R σ} {c : CachedPlan R}
    (h : (takePlan T).perform w = (.ok c, w')) : w'.scheme.cache = none := by
  unfold takePlan at h
  rw [Action.perform_get_bind] at h
  obtain ⟨sizes, -, h⟩ := Action.ofOutcome_bind_eq_ok.1 h
  obtain ⟨⟨⟩, w₁, hmodify, h⟩ := Action.bind_eq_ok.1 h
  cases hmodify
  dsimp only at h
  split at h
  · cases h
    rfl
  · obtain ⟨made, -, h⟩ := Action.ofOutcome_bind_eq_ok.1 h
    obtain ⟨⟨⟩, w₂, hmodify, h⟩ := Action.bind_eq_ok.1 h
    cases h
    cases hmodify
    rfl

/-- While directions are evaluated, a scheme is the one that it was, and has no plan. -/
theorem borne_identity (T : Target R σ) : Borne T
    (fun w => w.scheme.identity = ι ∧ w.scheme.cache = none)
    fun w => w.scheme.identity = ι ∧ w.scheme.cache = none where
  warned _ _ h := h
  noticed _ h := h
  difference _ _ _ _ _ _ h := .inl h
  step _ _ _ _ _ h := .inl h

/-- **A computation keeps the scheme the one that it was**, however it ends, and a plan of which holds
what holds of all plans that it takes. -/
theorem sustains_holding_computePartition {K : CachedPlan R → Prop}
    (hK : ∀ {w v : Session R σ} {c}, Holding K ι w → (takePlan T).perform w = (.ok c, v) → K c)
    (rank ranks : Nat) :
    (computePartition T rank ranks).Sustains (Holding K ι) (Holding K ι) := by
  intro w hw
  refine Action.ends_bind (sustains_holding_takePlan w hw) fun c v htake hv => ?_
  have hidle : v.scheme.identity = ι ∧ v.scheme.cache = none := ⟨hv.1, cache_of_takePlan htake⟩
  have hattempt : Action.Ends _ _ ((Action.attempt (evaluateRank T c rank ranks) :
      Work R σ (Except (ApproximationError R) (Assembler R))).perform v) :=
    Action.ends_attempt ((borne_identity T).evaluateRank c rank ranks v hidle)
  have hnone {u : Session R σ} (hu : u.scheme.identity = ι ∧ u.scheme.cache = none) :
      Holding K ι u := ⟨hu.1, fun c hc => absurd (hu.2.symm.trans hc) (by simp)⟩
  -- the plan that is put back is the one that was taken
  refine Action.ends_bind (hattempt.imp hnone fun h => ⟨h.1, hnone h.2⟩) fun _ u _ hu => .inl ?_
  exact ⟨hu.1, fun c' hc' => Option.some.inj hc' ▸ hK hw htake⟩

theorem sustains_holding_computeJacobian {K : CachedPlan R → Prop}
    (hK : ∀ {w v : Session R σ} {c}, Holding K ι w → (takePlan T).perform w = (.ok c, v) → K c) :
    (computeJacobian T).Sustains (Holding K ι) (Holding K ι) :=
  Action.sustains_bind (sustains_holding_computePartition hK 0 1) fun a =>
    sustains_finish (fun _ _ h => h) (fun _ h => h) a

/-- **A computation keeps the scheme the one that it was, with a current plan**, however it ends. -/
theorem sustains_settled_computeJacobian :
    (computeJacobian T).Sustains (Settled T ι) (Settled T ι) := by
  have htaken {w v : Session R σ} {c : CachedPlan R} (hw : Holding (CurrentPlan T ι) ι w)
      (h : (takePlan T).perform w = (.ok c, v)) : CurrentPlan T ι c := by
    intro s hs
    have hplanned := planned_of_takePlan (settled_iff.2 hw).2 h
    have hsame := hs.trans hw.1.symm
    simp only [identity, Prod.mk.injEq] at hsame
    obtain ⟨-, -, hrequests, hversion, -⟩ := hsame
    obtain ⟨u, hu⟩ := hplanned.made
    exact ⟨(hplanned.version_eq.trans hversion.symm).le,
      fun _ => ⟨u, (makePlan_congr hrequests hversion u _).trans hu⟩⟩
  simp only [Action.Sustains, Action.Ends, settled_iff]
  exact sustains_holding_computeJacobian htaken

theorem preserves_current_computeJacobian :
    (computeJacobian T).Preserves fun w => w.scheme.Current T :=
  fun w hw ha => (sustains_settled_computeJacobian.preserves w ⟨rfl, hw⟩ ha).2

end Settled

end Planned

section Methods

/-- The settings that are used on a target at some state. -/
def settingsAt (T : Target R σ) (t : σ) (s : Settings R) : Settings R :=
  if s.method = .finiteDifference then s
  else if T.complexStepActive t || !T.complexCapable t then fallback s
  else s

/-- The choice of settings depends on the target alone. -/
theorem eq_of_effective {s v : Settings R} {w w' : Session R σ}
    (h : (effective T s).perform w = (.ok v, w')) :
    v = settingsAt T w.target s ∧ w'.target = w.target := by
  unfold effective at h
  unfold settingsAt
  split at h
  · rename_i hfd
    cases h
    exact ⟨by rw [if_pos hfd], rfl⟩
  · rename_i hfd
    rw [if_neg hfd]
    rw [Action.perform_get_bind] at h
    split at h
    · rename_i hactive
      split at h <;> cases h <;> exact ⟨by simp [hactive], rfl⟩
    · rename_i hactive
      split at h
      · rename_i hcapable
        split at h <;> cases h <;> exact ⟨by simp [hcapable], rfl⟩
      · rename_i hcapable
        cases h
        exact ⟨by simp_all, rfl⟩

/-- All settings are chosen alike. -/
theorem eq_of_chooseMethods {settings chosen : List (Settings R)} {w w' : Session R σ}
    (h : (chooseMethods T settings).perform w = (.ok chosen, w')) :
    chosen = settings.map (settingsAt T w.target) ∧ w'.target = w.target := by
  induction settings generalizing chosen w with
  | nil =>
    cases h
    exact ⟨rfl, rfl⟩
  | cons s rest ih =>
    obtain ⟨v, w₁, hv, h⟩ := Action.bind_eq_ok.1 h
    obtain ⟨vs, w₂, hvs, h⟩ := Action.bind_eq_ok.1 h
    cases h
    obtain ⟨rfl, htarget⟩ := eq_of_effective hv
    obtain ⟨rfl, htarget'⟩ := ih hvs
    rw [htarget] at htarget' ⊢
    exact ⟨rfl, htarget'⟩

/-- A complex step that is used can be taken. -/
theorem complexCapable_of_method {t : σ} {own : Settings R}
    (h : (settingsAt T t own).method = .complexStep) : T.complexCapable t = true := by
  unfold settingsAt at h
  split at h
  · rename_i hmethod
    rw [hmethod] at h
    cases h
  · split at h
    · cases h
    · rename_i hcapable
      simp only [Bool.or_eq_true, Bool.not_eq_true', not_or, Bool.not_eq_false] at hcapable
      exact hcapable.2

end Methods

section Measured

/-- What a direction reads at an entry of a variable, from the responses at a state: by a stencil,
or by a complex step when there is none. -/
def Reads (T : Target R σ) (owner : String) (t : σ) (baseline : Table String (List R))
    (stencil : Option (Stencil R)) (perturbations : List (Perturbation R)) (name : String) (i : Nat)
    (v : Option R) : Prop :=
  match stencil with
  | some st => ∃ f entries, baseline.get? name = some f ∧
      Stencil.Responds T perturbations name i t st.points entries ∧
      v = f[i]?.map fun x =>
        Stencil.sumEntries st.points entries (st.baseline * x) / st.denominator
  | none => ∃ vs, T.response (StepEngine.moves perturbations) .complex name .imag
      (StepEngine.announced T owner perturbations t) = .ok vs ∧ vs[i]? = v

/-- A deposit of a direction of a plan, as measured at a state: its numerators are what the
direction reads, and its step is that of the seed that feeds its column. -/
structure Measured (T : Target R σ) (s : Scheme R) (t : σ) (plan : Plan R)
    (nominal baseline : Table String (List R)) (e : Deposit R) : Prop where
  measured : ∃ d ∈ plan.directions, ∃ own stencil perturbations,
    plan.settings[d.settings]? = some own ∧
    Scheme.stencil (settingsAt T t own) = .ok stencil ∧
    d.seeds.mapM (perturbation s.site nominal (settingsAt T t own)) = .ok perturbations ∧
    (∃ seed p, (seed, p) ∈ d.seeds.zip perturbations ∧ e.column ∈ seed.columns ∧ e.step = p.step) ∧
    ∀ q, s.requests[e.column.request]? = some q → ∃ vs, e.numerators.get? q.of = some vs ∧
      ∀ i, Reads T s.owner t baseline stencil perturbations q.of i vs[i]?

/-- The evaluation of a direction, by a stencil or by a complex step. -/
def measure (T : Target R σ) (owner : String) (stencil : Option (Stencil R))
    (perturbations : List (Perturbation R)) (of : List String) (baseline : Table String (List R)) :
    Action σ (ApproximationError R) (Table String (List R)) :=
  match stencil with
  | some st => st.difference T perturbations .all of baseline
  | none => StepEngine.runIdle T owner perturbations .all of

/-- The numerators of a direction, from the responses at any state with the same view. -/
theorem reads_of_measure (hT : T.Exact view) {owner : String} {s t u : σ} (hv : view s = view t)
    {stencil : Option (Stencil R)} {perturbations : List (Perturbation R)} {of : List String}
    (hn : of.Nodup) {baseline numerators : Table String (List R)}
    (h : (measure T owner stencil perturbations of baseline).perform s = (.ok numerators, u))
    {name : String} (hname : name ∈ of) :
    ∃ vs, numerators.get? name = some vs ∧
      ∀ i, Reads T owner t baseline stencil perturbations name i vs[i]? := by
  cases stencil with
  | some st =>
    obtain ⟨f, vs, hf, hvs, hentries⟩ := Stencil.get?_of_difference hT hn h hname
    refine ⟨vs, hvs, fun i => ?_⟩
    obtain ⟨entries, hresponds, hi⟩ := hentries i
    refine ⟨f, entries, hf, hresponds.imp fun point entry ⟨ws, hws, hentry⟩ => ?_, hi⟩
    exact ⟨ws, hT.response hv .. ▸ hws, hentry⟩
  | none =>
    obtain ⟨vs, hvs, hresponse⟩ := StepEngine.get?_of_runIdle hn h hname
    exact ⟨vs, hvs, fun i => ⟨vs, hT.response (hT.enter hv ..) .. ▸ hresponse, rfl⟩⟩

omit [Scalar R] in
/-- The variable of a request that a seed serves is measured with its direction. -/
theorem mem_ofNames {s : Scheme R} {d : Direction} {seed : Seed} (hseed : seed ∈ d.seeds)
    {c : Column} (hc : c ∈ seed.columns) {q : Request R} (hq : s.requests[c.request]? = some q) :
    q.of ∈ s.ofNames d.requests := by
  have hr : c.request ∈ d.requests :=
    Direction.mem_requests.2 ⟨c, List.mem_flatMap.2 ⟨seed, hseed, hc⟩, rfl⟩
  refine List.mem_eraseDups.2 (List.mem_filterMap.2 ⟨c.request, hr, ?_⟩)
  rw [hq]
  rfl

/-- The settings and the stencil at a place are made from the settings of the plan there. -/
theorem getElem?_of_methods {settings : List (Settings R)}
    {methods : List (Settings R × Option (Stencil R))}
    (h : settings.mapM (fun v => do return (v, ← Scheme.stencil v)) = .ok methods) {k : Nat}
    {v : Settings R} {stencil : Option (Stencil R)} (hk : methods[k]? = some (v, stencil)) :
    settings[k]? = some v ∧ Scheme.stencil v = .ok stencil := by
  have hall := Except.mapM_eq_ok.1 h
  obtain ⟨hlt, hget⟩ := List.getElem?_eq_some_iff.1 hk
  have hlt' : k < settings.length := hall.length_eq ▸ hlt
  have hstep := hall.get hlt' hlt
  simp only [List.get_eq_getElem, hget] at hstep
  obtain ⟨found, hfound, he⟩ := Except.bind_eq_ok.1 hstep
  cases he
  exact ⟨List.getElem?_eq_getElem hlt', hfound⟩

/-- **Evaluating a direction deposits its columns as measured.** -/
theorem holds_of_runDirection (hT : T.Exact view) (hgraph : ∀ u, T.graph u = none)
    {s : Scheme R} {t : σ} {c : CachedPlan R} (hc : Planned T s t c)
    {nominal baseline : Table String (List R)} {methods : List (Settings R × Option (Stencil R))}
    (hmethods : (c.plan.settings.map (settingsAt T t)).mapM
      (fun v => do return (v, ← Scheme.stencil v)) = .ok methods)
    {d : Direction} (hd : d ∈ c.plan.directions) {index : Nat} {a b : Assembler R}
    {w w' : Session R σ} (hw : onSession view w = (s.identity, view t))
    {deposits : List (Deposit R)} (ha : a.Holds s.requests c.sizes deposits)
    (h : (runDirection T ⟨c, methods, nominal, baseline⟩ a d index).perform w = (.ok b, w')) :
    ∃ own, (∀ e ∈ own, Measured T s t c.plan nominal baseline e) ∧
      (∀ seed ∈ d.seeds, ∀ k ∈ seed.columns, ∃ e ∈ own, e.column = k) ∧
      b.Holds s.requests c.sizes (deposits ++ own) := by
  obtain ⟨hidentity, hview⟩ := Prod.mk.inj hw
  simp only [identity, Prod.mk.injEq] at hidentity
  obtain ⟨howner, hsite, hrequests, -⟩ := hidentity
  unfold runDirection at h
  rw [Action.perform_get_bind] at h
  obtain ⟨⟨v, stencil⟩, hmethod, h₁⟩ := Action.ofOutcome_bind_eq_ok.1 h
  obtain ⟨perturbations, hperturbations, h₂⟩ := Action.ofOutcome_bind_eq_ok.1 h₁
  obtain ⟨active, hactive, h₃⟩ := Action.ofOutcome_bind_eq_ok.1 h₂
  rw [Outcome.ofOption_eq_ok] at hmethod hactive
  rw [hc.active hgraph hactive] at h₃
  obtain ⟨numerators, w₁, hmeasure, h₄⟩ := Action.bind_eq_ok.1 h₃
  obtain ⟨hsettings, hstencil⟩ := getElem?_of_methods hmethods hmethod
  obtain ⟨own, hown, rfl⟩ := Option.map_eq_some_iff.1 (List.getElem?_map ▸ hsettings)
  rcases hdeposit : (Assembler.deposit index d (perturbations.map Perturbation.step)
    numerators).perform a with ⟨outcome, b'⟩
  simp only [hdeposit] at h₄
  obtain ⟨⟨⟩, houtcome, hresult⟩ := Action.ofOutcome_bind_eq_ok.1 h₄
  cases hresult
  rw [houtcome] at hdeposit
  refine ⟨_, fun e he => ?_, fun seed hseed k hk => ?_, ha.deposit hdeposit⟩
  · obtain ⟨⟨seed, step⟩, hzip, he⟩ := List.mem_flatMap.1 he
    obtain ⟨k, hk, rfl⟩ := List.mem_map.1 he
    rw [List.zip_map_right, List.mem_map] at hzip
    obtain ⟨⟨seed, p⟩, hzip, hseed⟩ := hzip
    cases hseed
    rw [hsite] at hperturbations
    refine ⟨d, hd, own, stencil, perturbations, hown, hstencil, hperturbations,
      ⟨seed, p, hzip, hk, rfl⟩, fun q hq => ?_⟩
    have hq' : w.scheme.requests[k.request]? = some q := by
      rw [hrequests]
      exact hq
    have hnumerators : ((measure T w.scheme.owner stencil perturbations
        (w.scheme.ofNames d.requests) baseline).perform w.target).1 = .ok numerators :=
      congrArg Prod.fst hmeasure
    rw [← howner]
    exact reads_of_measure hT hview (nodup_eraseDups _) (Prod.ext hnumerators rfl)
      (mem_ofNames (List.of_mem_zip hzip).1 hk hq')
  · have hlength := (Except.mapM_eq_ok.1 hperturbations).length_eq
    obtain ⟨j, hj, rfl⟩ := List.getElem_of_mem hseed
    have hj' : j < (perturbations.map Perturbation.step).length := by
      rw [List.length_map, ← hlength]
      exact hj
    refine ⟨⟨k, numerators, (perturbations.map Perturbation.step)[j]⟩, ?_, rfl⟩
    refine List.mem_flatMap.2 ⟨(d.seeds[j], (perturbations.map Perturbation.step)[j]), ?_,
      List.mem_map.2 ⟨k, hk, rfl⟩⟩
    rw [List.mem_iff_getElem]
    exact ⟨j, by simpa [hlength] using hj, by simp⟩

/-- Directions one after another: the view is the same before each. -/
theorem holds_of_runDirections (hT : T.Exact view) (hgraph : ∀ u, T.graph u = none)
    {s : Scheme R} {t : σ} {c : CachedPlan R} (hc : Planned T s t c)
    {nominal baseline : Table String (List R)} {methods : List (Settings R × Option (Stencil R))}
    (hmethods : (c.plan.settings.map (settingsAt T t)).mapM
      (fun v => do return (v, ← Scheme.stencil v)) = .ok methods)
    {ds : List (Direction × Nat)} (hds : ∀ x ∈ ds, x.1 ∈ c.plan.directions)
    {a b : Assembler R} {w w' : Session R σ} (hw : onSession view w = (s.identity, view t))
    {deposits : List (Deposit R)} (ha : a.Holds s.requests c.sizes deposits)
    (h : (runDirections T ⟨c, methods, nominal, baseline⟩ ds a).perform w = (.ok b, w')) :
    ∃ own, (∀ e ∈ own, Measured T s t c.plan nominal baseline e) ∧
      (∀ x ∈ ds, ∀ seed ∈ x.1.seeds, ∀ k ∈ seed.columns, ∃ e ∈ own, e.column = k) ∧
      b.Holds s.requests c.sizes (deposits ++ own) := by
  induction ds generalizing a w deposits with
  | nil =>
    cases h
    exact ⟨[], by simp, by simp, by simpa using ha⟩
  | cons x rest ih =>
    obtain ⟨b₁, w₁, hx, hrest⟩ := Action.bind_eq_ok.1 h
    obtain ⟨own, hown, hcover, hb₁⟩ :=
      holds_of_runDirection hT hgraph hc hmethods (hds x List.mem_cons_self) hw ha hx
    have hw₁ : onSession view w₁ = (s.identity, view t) := by
      have := keeps_runDirection hT.toRestoring ⟨c, methods, nominal, baseline⟩ a x.1 x.2 _ w hw
        (by rw [hx]; exact Outcome.answers_ok b₁)
      rwa [hx] at this
    obtain ⟨more, hmore, hcover', hb⟩ :=
      ih (fun y hy => hds y (List.mem_cons_of_mem _ hy)) hw₁ hb₁ hrest
    refine ⟨own ++ more, fun e he => ?_, fun y hy seed hseed k hk => ?_, by simpa using hb⟩
    · rcases List.mem_append.1 he with he | he
      · exact hown e he
      · exact hmore e he
    · rcases List.mem_cons.1 hy with rfl | hy
      · obtain ⟨e, he, hk⟩ := hcover seed hseed k hk
        exact ⟨e, List.mem_append_left _ he, hk⟩
      · obtain ⟨e, he, hk⟩ := hcover' y hy seed hseed k hk
        exact ⟨e, List.mem_append_right _ he, hk⟩

/-- Blocks that are read off measured deposits of every column of a plan for the requests. -/
structure Stored (T : Target R σ) (s : Scheme R) (t : σ) (c : CachedPlan R)
    (nominal baseline : Table String (List R)) (deposits : List (Deposit R)) (a : Assembler R)
    (j : Jacobian R) : Prop where
  planned : Planned T s t c
  values : readValues T s.requests t = .ok (nominal, baseline)
  measured : ∀ e ∈ deposits, Measured T s t c.plan nominal baseline e
  covered : ∀ d ∈ c.plan.directions, ∀ seed ∈ d.seeds, ∀ k ∈ seed.columns,
    ∃ e ∈ deposits, e.column = k
  holds : a.Holds s.requests c.sizes deposits
  jacobian_eq : j = .ofList (a.slots.map fun x => ((x.of, x.wrt), x.block))

/-- What the evaluation of all directions leaves in the assembler. -/
theorem holds_of_evaluateRank (hT : T.Exact view) (hgraph : ∀ u, T.graph u = none)
    {s : Scheme R} {t : σ} {c : CachedPlan R} (hc : Planned T s t c) {w w' : Session R σ}
    (hidentity : w.scheme.identity = s.identity) (htarget : w.target = t) {a : Assembler R}
    (h : (evaluateRank T c 0 1).perform w = (.ok a, w')) :
    ∃ nominal baseline deposits, readValues T s.requests t = .ok (nominal, baseline) ∧
      (∀ e ∈ deposits, Measured T s t c.plan nominal baseline e) ∧
      (∀ d ∈ c.plan.directions, ∀ seed ∈ d.seeds, ∀ k ∈ seed.columns,
        ∃ e ∈ deposits, e.column = k) ∧ a.Holds s.requests c.sizes deposits := by
  subst htarget
  unfold evaluateRank at h
  rw [Action.perform_get_bind] at h
  obtain ⟨a₀, hstart, h₁⟩ := Action.ofOutcome_bind_eq_ok.1 h
  obtain ⟨chosen, w₁, hchosen, h₂⟩ := Action.bind_eq_ok.1 h₁
  obtain ⟨methods, hmethods, h₃⟩ := Action.ofOutcome_bind_eq_ok.1 h₂
  obtain ⟨⟨nominal, baseline⟩, w₂, hread, h₄⟩ := Action.bind_eq_ok.1 h₃
  obtain ⟨hvalues, rfl⟩ := Prod.mk.inj hread
  obtain ⟨rfl, htarget⟩ := eq_of_chooseMethods hchosen
  have hsession := onSession_eq (keeps_chooseMethods _ : Action.Keeps (onSession view) _) hchosen
  have hrequests : w₁.scheme.requests = s.requests := by
    have := (congrArg Prod.fst hsession).trans hidentity
    simp only [onSession, identity, Prod.mk.injEq] at this
    exact this.2.2.1
  have hrequests' : w.scheme.requests = s.requests := by
    simp only [identity, Prod.mk.injEq] at hidentity
    exact hidentity.2.2.1
  have hvalues : readValues T s.requests w.target = .ok (nominal, baseline) := by
    rw [← hrequests, ← htarget]
    exact hvalues
  rw [hrequests'] at hstart
  have hall (d : Direction) :
      (∃ i, (d, i) ∈ c.plan.directionsFor 0 1) ↔ d ∈ c.plan.directions := by
    simp [Plan.directionsFor, Nat.mod_one, List.mem_iff_getElem?, List.getElem?_zipIdx]
  have hholds : ({ a₀ with tolerance := w.scheme.tolerance } : Assembler R).Holds s.requests
      c.sizes [] := by
    have := Assembler.holds_start ((Outcome.ofExcept_eq_ok _ _).1 hstart)
    exact ⟨this.length_eq, this.slot⟩
  obtain ⟨own, hown, hcover, hb⟩ := holds_of_runDirections hT hgraph hc
    ((Outcome.ofExcept_eq_ok _ _).1 hmethods) (fun x hx => (hall x.1).1 ⟨x.2, hx⟩)
    (hsession.trans (congrArg (·, view w.target) hidentity)) hholds h₄
  refine ⟨nominal, baseline, own, hvalues, hown, fun d hd => ?_, by simpa using hb⟩
  obtain ⟨i, hi⟩ := (hall d).2 hd
  exact hcover (d, i) hi

/-- Evaluating a rank takes the plan, and puts it back. -/
theorem computePartition_eq_ok {rank ranks : Nat} {a : Assembler R} {w w' : Session R σ} :
    (computePartition T rank ranks).perform w = (.ok a, w') ↔
      ∃ c w₁ w₂, (takePlan T).perform w = (.ok c, w₁) ∧
        (evaluateRank T c rank ranks).perform w₁ = (.ok a, w₂) ∧
        w' = { w₂ with scheme := { w₂.scheme with cache := some c } } := by
  constructor
  · intro h
    obtain ⟨c, w₁, htake, h⟩ := Action.bind_eq_ok.1 h
    obtain ⟨result, w₂, hattempt, h⟩ := Action.bind_eq_ok.1 h
    obtain ⟨⟨⟩, w₃, hkeep, h⟩ := Action.bind_eq_ok.1 h
    cases hkeep
    obtain ⟨hresult, rfl⟩ := Prod.mk.inj h
    obtain rfl := (Outcome.ofExcept_eq_ok _ _).1 hresult
    exact ⟨c, w₁, w₂, htake, Action.attempt_eq_ok.1 hattempt, rfl⟩
  · rintro ⟨c, w₁, w₂, htake, hrun, rfl⟩
    exact Action.bind_eq_ok.2 ⟨c, w₁, htake, Action.bind_eq_ok.2
      ⟨.ok a, w₂, Action.attempt_eq_ok.2 hrun, rfl⟩⟩

/-- The blocks of a finished assembler. -/
theorem eq_of_finish {a : Assembler R} {j : Jacobian R} {w w' : Session R σ}
    (h : (finish a).perform w = (.ok j, w')) :
    j = .ofList (a.slots.map fun s => ((s.of, s.wrt), s.block)) := by
  obtain ⟨⟨found, mismatches⟩, hfound, hrest⟩ := Action.ofOutcome_bind_eq_ok.1 h
  have hj : found = j := by
    rw [Action.perform_get_bind] at hrest
    obtain ⟨⟨⟩, w₁, -, hreturn⟩ := Action.bind_eq_ok.1 hrest
    dsimp only at hreturn
    split at hreturn
    · obtain ⟨⟨⟩, w₂, -, hreturn⟩ := Action.bind_eq_ok.1 hreturn
      exact Except.ok.inj (congrArg Prod.fst hreturn)
    · exact Except.ok.inj (congrArg Prod.fst hreturn)
  have hfound := (Outcome.ofExcept_eq_ok _ _).1 hfound
  unfold Assembler.finish at hfound
  split at hfound
  · rw [← hj]
    exact (congrArg Prod.fst (Except.ok.inj hfound)).symm
  · cases hfound

/-- **What a computation stores** on an exact target without a graph. -/
theorem stored_of_computeJacobian (hT : T.Exact view) (hgraph : ∀ u, T.graph u = none)
    {w w' : Session R σ} (hw : w.scheme.Current T) {j : Jacobian R}
    (h : (computeJacobian T).perform w = (.ok j, w')) :
    ∃ c nominal baseline deposits a,
      Stored T w.scheme w.target c nominal baseline deposits a j := by
  obtain ⟨a, w₁, hpartition, hfinish⟩ := Action.bind_eq_ok.1 h
  obtain ⟨c, w₂, w₃, hplan, hrun, -⟩ := computePartition_eq_ok.1 hpartition
  have hplanned := planned_of_takePlan hw hplan
  obtain ⟨hidentity, htarget⟩ :=
    Prod.mk.inj (onSession_eq (keeps_takePlan : Action.Keeps (onSession id) _) hplan)
  obtain ⟨nominal, baseline, deposits, hvalues, hmeasured, hcover, ha⟩ :=
    holds_of_evaluateRank hT hgraph hplanned hidentity htarget hrun
  exact ⟨c, nominal, baseline, deposits, a, hplanned, hvalues, hmeasured, hcover, ha,
    eq_of_finish hfinish⟩

end Measured

end Scheme

end Sensitivity
