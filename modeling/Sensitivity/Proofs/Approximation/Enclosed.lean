import Sensitivity.Proofs.Approximation.Quotients

/-!
# Approximating inside a complex step

A scheme takes no complex step while one is under way around its scope. Two targets that differ in
nothing but complex steps (`Target.RealTwin`) then cannot be told apart by a computation
(`Scheme.computeJacobian_of_realTwin`): it perturbs real parts and evaluates in real arithmetic only.

What stands in for a complex step is the forward difference of first order with the default step. A
request for a complex step whose columns may not merge gets these differences in its block, each of
them from a state with the view of the starting point (`Scheme.differences_of_computeJacobian`). The
target may keep a memory that the view does not show, so the states need not be the same.
-/

namespace Sensitivity

variable {R σ γ : Type}

namespace Target

/-- A target that differs from another one in nothing but complex steps: imaginary perturbations,
evaluations in complex arithmetic and readings of imaginary parts may be anything, and so may what
beginning and ending a step do and whether the target is capable of one. -/
structure RealTwin (T T' : Target R σ) : Prop where
  size : T'.size = T.size
  values : ∀ s name, T'.values s name .real = T.values s name .real
  perturb : ∀ name index h, T'.perturb name index (.real h) = T.perturb name index (.real h)
  evaluate : ∀ active, T'.evaluate active .real = T.evaluate active .real
  restore : T'.restore = T.restore
  complexStepActive : T'.complexStepActive = T.complexStepActive
  graph : T'.graph = T.graph

variable {T T' : Target R σ}

theorem readAll_of_realTwin (h : T.RealTwin T') (names : List String) :
    T'.readAll names .real = T.readAll names .real := by
  simp only [readAll, h.values]

end Target

variable [Scalar R] {T T' : Target R σ} {view : σ → γ}

theorem Stencil.difference_of_realTwin (h : T.RealTwin T') (st : Stencil R)
    (perturbations : List (Perturbation R)) (active : ActiveSet) (of : List String)
    (baseline : Table String (List R)) :
    st.difference T' perturbations active of baseline =
      st.difference T perturbations active of baseline := by
  have hsum (saved : σ) (points : List (R × R)) (sums : Table String (List R)) :
      sumPoints T' saved perturbations active of points sums =
        sumPoints T saved perturbations active of points sums := by
    induction points generalizing sums with
    | nil => rfl
    | cons point rest ih =>
      simp only [sumPoints, evaluatePoint, Target.thenRestore, h.perturb, h.evaluate, h.restore,
        Target.readAll_of_realTwin h, ih]
  simp only [difference, hsum]

namespace Scheme

section Twin

variable (h : T.RealTwin T') (hactive : ∀ s, T.complexStepActive s = true)

include h hactive

/-- Inside a complex step the choice of settings never asks what the target is capable of. -/
theorem chooseMethods_of_realTwin (settings : List (Settings R)) :
    chooseMethods T' settings = chooseMethods T settings := by
  induction settings with
  | nil => rfl
  | cons s rest ih => simp only [chooseMethods, effective, h.complexStepActive, hactive, if_true, ih]

omit hactive in
/-- A direction with a stencil takes no complex step. -/
theorem runDirection_of_realTwin (frame : Frame R)
    (hframe : ∀ method ∈ frame.methods, method.2.isSome) (a : Assembler R) (d : Direction)
    (index : Nat) : runDirection T' frame a d index = runDirection T frame a d index := by
  unfold runDirection
  refine Action.bind_congr_of_value fun w _ _ _ => ?_
  refine Action.bind_congr_of_value fun method s t hmethod => ?_
  have hmem : method ∈ frame.methods := by
    have := congrArg Prod.fst hmethod
    rw [Action.perform_ofOutcome, Outcome.ofOption_eq_ok] at this
    exact List.mem_of_getElem? this
  obtain ⟨settings, stencil⟩ := method
  obtain ⟨st, rfl⟩ := Option.isSome_iff_exists.1 (hframe _ hmem)
  simp only [Stencil.difference_of_realTwin h]

omit hactive in
theorem runDirections_of_realTwin (frame : Frame R)
    (hframe : ∀ method ∈ frame.methods, method.2.isSome) (ds : List (Direction × Nat))
    (a : Assembler R) : runDirections T' frame ds a = runDirections T frame ds a := by
  induction ds generalizing a with
  | nil => rfl
  | cons d rest ih =>
    simp only [runDirections, runDirection_of_realTwin h frame hframe, ih]

omit h in
/-- Inside a complex step every method that is used has a stencil. -/
theorem isSome_stencil_of_chooseMethods {settings chosen : List (Settings R)} {w v : Session R σ}
    (hchosen : (chooseMethods T settings).perform w = (.ok chosen, v))
    {methods : List (Settings R × Option (Stencil R))}
    (hmethods : (chosen.mapM fun s => do return (s, ← stencil s)) = .ok methods) :
    ∀ method ∈ methods, method.2.isSome := by
  intro (s, found) hmem
  obtain ⟨k, hk⟩ := List.mem_iff_getElem?.1 hmem
  obtain ⟨hs, hstencil⟩ := getElem?_of_methods hmethods hk
  rw [(eq_of_chooseMethods hchosen).1, List.getElem?_map] at hs
  obtain ⟨own, -, rfl⟩ := Option.map_eq_some_iff.1 hs
  have hmethod : (settingsAt T w.target own).method = .finiteDifference := by
    unfold settingsAt
    split
    · assumption
    · simp only [hactive, Bool.true_or, if_true]
      rfl
  simp only [stencil, hmethod] at hstencil
  cases hform : (Stencil.ofForm (settingsAt T w.target own).form
      (settingsAt T w.target own).resolvedOrder : Except (ApproximationError R) (Stencil R)) with
  | error e =>
    rw [hform] at hstencil
    cases hstencil
  | ok st =>
    rw [hform] at hstencil
    cases hstencil
    rfl

/-- **Inside a complex step a computation cannot tell what imaginary perturbations and evaluations
in complex arithmetic would do.** -/
theorem computeJacobian_of_realTwin : computeJacobian T' = computeJacobian T := by
  have htake : takePlan T' = takePlan T := by
    simp only [takePlan, sizes, makePlan, h.size, h.graph]
  have hrank (c : CachedPlan R) : evaluateRank T' c 0 1 = evaluateRank T c 0 1 := by
    unfold evaluateRank
    refine Action.bind_congr_of_value fun w _ _ _ => ?_
    refine Action.bind_congr_of_value fun a _ _ _ => ?_
    rw [chooseMethods_of_realTwin h hactive]
    refine Action.bind_congr_of_value fun chosen _ _ hchosen => ?_
    refine Action.bind_congr_of_value fun methods _ _ hmethods => ?_
    have hstencils := isSome_stencil_of_chooseMethods hactive hchosen
      ((Outcome.ofExcept_eq_ok _ _).1 (congrArg Prod.fst hmethods))
    simp only [readValues, h.values]
    refine Action.bind_congr_of_value fun values _ _ _ => ?_
    exact runDirections_of_realTwin h _ hstencils _ _
  simp only [computeJacobian, computePartition, htake, hrank]

end Twin

section Differences

/-- Inside a complex step the settings that are used for one are those of a difference. -/
theorem settingsAt_of_active {t : σ} (hactive : T.complexStepActive t = true) {own : Settings R}
    (hmethod : own.method = .complexStep) : settingsAt T t own = fallback own := by
  simp [settingsAt, hmethod, hactive]

variable {c : CachedPlan R} {frame : Frame R} {w u : Session R σ}

/-- **A value that is written for a complex step inside another one is a forward difference**, at
some state with the view of the starting point. -/
theorem exists_quotient_of_enclosed [StrictScalar R]
    (hvalues : ∀ {s t}, view s = view t → ∀ name part, T.values s name part = T.values t name part)
    (hgraph : ∀ u, T.graph u = none) (hactive : ∀ s, T.complexStepActive s = true)
    (hc : Planned T w.scheme w.target c) (hframe : frameAt T c w.scheme w.target = .ok frame)
    {es : List (Delivery R)}
    (hes : List.Forall₂ (DeliversFrom T view frame w) c.plan.directions.zipIdx es) {r : Nat}
    {q : Request R} (hq : w.scheme.requests[r]? = some q) (hmethod : q.settings.method = .complexStep)
    (hdirectional : q.settings.directional = false) {rows cols : List Nat} {k l i j : Nat}
    (hcols : q.cols c.sizes = .ok cols) (hk : rows[k]? = some i) (hl : cols[l]? = some j) {v : R}
    (hcell : AssemblySlot.cell (Assembler.sources (es.flatMap Delivery.columns) r) q.of rows k l =
      some v) :
    ∃ t, view t = view w.target ∧
      quotient T w.scheme.owner w.scheme.site q.settings t q.of i q.wrt j = .ok v := by
  have halone (d : Direction) (hd : d ∈ c.plan.directions) (seed : Seed) (hseed : seed ∈ d.seeds)
      (k : Column) (hk : k ∈ seed.columns) (hkr : k.request = r) : d.seeds = [seed] :=
    Plan.seeds_eq_singleton hc.build hd hseed hk (hkr ▸ hq) (.inl hdirectional)
  obtain ⟨u, d, active, found, nominal, h, numerators, t, vs, x, hu, ⟨s, hall⟩, -, hof, hstencil,
    hnominal, hstep, hmeasure, hvs, hx, rfl⟩ :=
    measured_of_cell hc hframe (fun _ hu => (inRole_of_onSession hu).right) hes hq halone hcols hk hl
      hcell
  have hsettings (t : σ) := settingsAt_of_active (hactive t) hmethod
  simp only [activeSet, hgraph s] at hall
  cases hall
  rw [hsettings, ← hsettings u.target] at hstencil hstep
  have hfound := hstencil
  rw [hsettings] at hfound
  cases hfound
  have hview : view u.target = view w.target := congrArg Prod.snd hu
  obtain ⟨f, vs', hf, hvs', hentries⟩ :=
    Stencil.get?_of_difference_singleton (nodup_eraseDups _) hmeasure hof
  obtain rfl := Option.some.inj (hvs.symm.trans hvs')
  obtain ⟨entries, hresponds, hi⟩ := hentries i
  obtain ⟨methods, -, hframe⟩ := Except.bind_eq_ok.1 hframe
  obtain ⟨⟨nominals, baseline⟩, hread, hframe⟩ := Except.bind_eq_ok.1 hframe
  cases hframe
  refine ⟨u.target, hview, quotient_of_reads
    (fun fs hfs => (hvalues hview _ _).trans ((values_of_readValues hread).2 hfs))
    ((hvalues hview _ _).trans hnominal) hstep hstencil ⟨f, entries, hf, hresponds, hx ▸ hi⟩⟩

end Differences

/-- **Inside a complex step a computation stores forward differences** for every request for a
complex step whose columns may not merge, whatever else is requested. -/
theorem differences_of_computeJacobian [StrictScalar R] (hT : T.Restoring view)
    (hvalues : ∀ {s t}, view s = view t → ∀ name part, T.values s name part = T.values t name part)
    (hgraph : ∀ u, T.graph u = none) (hactive : ∀ s, T.complexStepActive s = true) {s : Scheme R}
    {t : σ} {d : Diagnostics} (hcurrent : s.Current T)
    (hdistinct : (s.requests.map fun q => (q.of, q.wrt)).Nodup) {j : Jacobian R} {w : Session R σ}
    (h : (computeJacobian T).perform ⟨s, d, t⟩ = (.ok j, w)) :
    ∃ sizes, s.sizes T t = .ok sizes ∧ ∀ q ∈ s.requests, q.settings.method = .complexStep →
      q.settings.directional = false → ∃ rows cols block, q.rows sizes = .ok rows ∧
        q.cols sizes = .ok cols ∧ j.get? (q.of, q.wrt) = some block ∧
        block.Holds q.pattern rows.length cols.length fun k l v => ∃ i j u, rows[k]? = some i ∧
          cols[l]? = some j ∧ view u = view t ∧
          quotient T s.owner s.site q.settings u q.of i q.wrt j = .ok v := by
  obtain ⟨c, frame, es, a, hc, hframe, hes, ha, rfl⟩ := delivered_of_computeJacobian hT hcurrent h
  obtain ⟨sizes, hsizes, hget⟩ := hc.sizes
  refine ⟨sizes, hsizes, fun q hq hmethod hdirectional => ?_⟩
  obtain ⟨r, hr⟩ := List.mem_iff_getElem?.1 hq
  obtain ⟨slot, hslot, hfilled⟩ := ha.slot r q hr
  obtain ⟨cols, hcols, -⟩ := hfilled.block
  refine ⟨slot.rows, cols, slot.block, Request.rows_congr hget q ▸ hfilled.rows_eq,
    Request.cols_congr hget q ▸ hcols, ?_, ?_⟩
  · have hentry : ((q.of, q.wrt), slot.block) ∈ a.slots.map fun s => ((s.of, s.wrt), s.block) :=
      List.mem_map.2 ⟨slot, List.mem_of_getElem? hslot, by rw [hfilled.of_eq, hfilled.wrt_eq]⟩
    have hkeys := ha.map_keys ▸ hdistinct
    exact (Table.get?_ofList hkeys _).trans (Table.find_of_mem hkeys hentry)
  · refine hfilled.holds ((Plan.build_eq_ok hc.build).1 q hq) hcols fun k hk l hl v hcell => ?_
    have hi := List.getElem?_eq_getElem hk
    have hj := List.getElem?_eq_getElem hl
    obtain ⟨u, hu, hquotient⟩ := exists_quotient_of_enclosed hvalues hgraph hactive hc hframe hes hr
      hmethod hdirectional hcols hi hj hcell
    exact ⟨_, _, u, hi, hj, hu, hquotient⟩

end Scheme

end Sensitivity
