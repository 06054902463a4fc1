import Sensitivity.Proofs.Approximation.Merging
import Sensitivity.Proofs.Approximation.Partition

/-!
# One column at a time

On an exact target without a graph, a scheme whose columns may not merge stores difference quotients
with a single entry moved: every value of a block is the quotient of its entry (`Scheme.quotient`),
which the target, the scope and the settings of the request alone settle
(`Scheme.quotients_of_computeJacobian`).
-/

namespace Sensitivity

variable {R σ γ : Type} [Scalar R]

/-- A seed with a column of a request that lets no columns merge is alone in its direction. -/
theorem Plan.seeds_eq_singleton {requests : List (Request R)} {sizes : Sizes} {plan : Plan R}
    (h : build requests sizes = .ok plan) {d : Direction} (hd : d ∈ plan.directions) {s : Seed}
    (hs : s ∈ d.seeds) {c : Column} (hc : c ∈ s.columns) {q : Request R}
    (hq : requests[c.request]? = some q)
    (hmerge : q.settings.directional = false ∨ q.pattern = none) : d.seeds = [s] := by
  obtain ⟨-, gs, hgs, -, harranged⟩ := build_eq_ok h
  obtain ⟨τ, σ, horigin, -⟩ := harranged.origin d hd
  obtain ⟨number, seeds⟩ := d
  dsimp only at horigin hs ⊢
  cases horigin with
  | alone hg ht => rw [List.mem_singleton.1 hs]
  | together hg hm apart =>
    -- the request is in the group of the seed, whose requests all ask for merging and have patterns
    obtain ⟨x, hx, rfl⟩ := List.mem_map.1 hs
    obtain ⟨-, m, ms, hmem, hxm, hcolorable, -⟩ := hm x hx
    obtain ⟨hgroup, hseeds⟩ := (hgs m ms).1 hmem
    obtain ⟨q', -, hq', -⟩ := ((groupSeeds_columns hseeds hxm).2 c).1 hc
    obtain rfl := Option.some.inj (hq.symm.trans (getElem?_of_mem_group hgroup hq'))
    obtain ⟨hasks, hpatterns⟩ := Bool.and_eq_true_iff.1 hcolorable
    rcases hmerge with hdirectional | hpattern
    · obtain ⟨-, -, hsettings⟩ := (grouped_groups requests).mem m hgroup _ _ hq'
      have hsame : m.settings.directional = q.settings.directional := by
        rcases hsettings with hsettings | hsettings
        · rw [hsettings]
        · exact ((Settings.beq_iff _ _).1 hsettings).2.2.2.2.2.2
      rw [hsame, hdirectional] at hasks
      cases hasks
    · have hsome := List.all_eq_true.1 hpatterns _ hq'
      dsimp only at hsome
      rw [hpattern] at hsome
      cases hsome

/-- **A slot that is filled holds of its values what holds of every value that is written.** -/
theorem AssemblySlot.FilledBy.holds {sizes : Sizes} {tolerance : R} {q : Request R}
    {f : Nat → Option (Source R)} {s : AssemblySlot R} (h : s.FilledBy sizes tolerance q f)
    (hvalid : q.validate sizes = .ok ()) {cols : List Nat} (hcols : q.cols sizes = .ok cols)
    {P : Nat → Nat → R → Prop} (hP : ∀ k < s.rows.length, ∀ l < cols.length, ∀ v,
      AssemblySlot.cell f q.of s.rows k l = some v → P k l v) :
    s.block.Holds q.pattern s.rows.length cols.length P := by
  obtain ⟨cols', hcols', hblock⟩ := h.block
  obtain rfl := Except.ok.inj (hcols.symm.trans hcols')
  cases hp : q.pattern with
  | none =>
    rw [hp] at hblock
    obtain ⟨m, hm, hmrows, hmcols, hentries⟩ := hblock
    rw [hm]
    refine ⟨rfl, hmrows, hmcols, fun k hk l hl => ?_⟩
    obtain ⟨v, hv⟩ := Option.isSome_iff_exists.1
      ((m.isSome_get? k l).2 ⟨hmrows ▸ hk, hmcols ▸ hl⟩)
    exact ⟨v, hv, hP k hk l hl v ((hentries k (hmrows ▸ hk) l (hmcols ▸ hl)).symm.trans hv)⟩
  | some p =>
    rw [hp] at hblock
    obtain ⟨values, hvalues, hlength, hentries⟩ := hblock
    rw [hvalues]
    refine ⟨rfl, rfl, rfl, hlength, fun x k l hk hl => ?_⟩
    -- the pattern was checked against the shape of the block
    obtain ⟨-, rows', cols', hrows', hcols', hfits⟩ := Request.of_validate hvalid
    obtain rfl := Except.ok.inj (h.rows_eq.symm.trans hrows')
    obtain rfl := Except.ok.inj (hcols.symm.trans hcols')
    obtain ⟨-, hkrows, hlcols⟩ := Pattern.fits_iff.1 (hfits p hp)
    have hk' := hkrows k (List.mem_of_getElem? hk)
    have hl' := hlcols l (List.mem_of_getElem? hl)
    have hx : x < values.length := hlength ▸ (List.getElem?_eq_some_iff.1 hk).1
    have hv := List.getElem?_eq_getElem hx
    exact ⟨hk', hl', _, hv, hP k hk' l hl' _ ((hentries x k l hk hl).symm.trans hv)⟩

namespace Target

omit [Scalar R]

/-- A target that always runs the same components. -/
def focus (T : Target R σ) (active : ActiveSet) : Target R σ :=
  { T with evaluate := fun _ mode => T.evaluate active mode }

variable {T : Target R σ} {view : σ → γ} {active : ActiveSet}

theorem moved_of_focus {s t : σ} (h : (T.focus active).Moved s t) : T.Moved s t := by
  induction h with
  | start => exact .start
  | perturb name index delta _ ha ih => exact .perturb name index delta ih ha
  | evaluate _ mode _ ha ih => exact .evaluate active mode ih ha
  | restore _ ih => exact .restore ih

theorem Exact.focus (hT : T.Exact view) (active : ActiveSet) : (T.focus active).Exact view where
  restore h := hT.restore (moved_of_focus h)
  leave owner step h := hT.leave owner step (moved_of_focus h)
  size := hT.size
  values := hT.values
  perturb := hT.perturb
  evaluate _ mode := hT.evaluate active mode
  enter := hT.enter
  complexCapable := hT.complexCapable
  complexStepActive := hT.complexStepActive

end Target

namespace Stencil

variable {T : Target R σ} {active : ActiveSet}

/-- Evaluating with some components is evaluating the target that always runs them. -/
theorem sumPoints_focus (saved : σ) (perturbations : List (Perturbation R)) (of : List String)
    (points : List (R × R)) (sums : Table String (List R)) :
    sumPoints (T.focus active) saved perturbations .all of points sums =
      sumPoints T saved perturbations active of points sums := by
  induction points generalizing sums with
  | nil => rfl
  | cons point rest ih =>
    simp only [sumPoints, ih]
    rfl

theorem difference_focus (st : Stencil R) (perturbations : List (Perturbation R))
    (of : List String) (baseline : Table String (List R)) :
    st.difference (T.focus active) perturbations .all of baseline =
      st.difference T perturbations active of baseline := by
  simp only [difference, sumPoints_focus]

end Stencil

namespace Scheme

variable {T : Target R σ} {view : σ → γ}

/-- The components that run for a direction of a plan are those that matter for it. -/
theorem Planned.activeSet {s : Scheme R} {t : σ} {c : CachedPlan R} (h : Planned T s t c)
    {d : Direction × Nat} (hd : d ∈ c.plan.directions.zipIdx) {active : ActiveSet}
    (hactive : c.active[d.2]? = some active) :
    ∃ u, s.activeSet (T.graph u) d.1 = .ok active := by
  obtain ⟨u, hu⟩ := h.made
  obtain ⟨plan, -, hactives⟩ := Except.bind_eq_ok.1 hu
  obtain ⟨actives, hactives, hc⟩ := Except.bind_eq_ok.1 hactives
  have hc := Except.ok.inj hc
  rw [← hc] at hd hactive
  have hall := Except.mapM_eq_ok.1 hactives
  obtain ⟨hd, hd'⟩ := List.getElem?_eq_some_iff.1 (List.mem_zipIdx_iff_getElem?.1 hd)
  obtain ⟨ha, ha'⟩ := List.getElem?_eq_some_iff.1 hactive
  exact ⟨u, hd' ▸ ha' ▸ hall.get hd ha⟩

/-- The step of entry `j` of a variable with the values `nominal`. -/
def entryStep (site : Site R) (used : Settings R) (nominal : List R) (j : Nat) : Option R :=
  (Steps.compute nominal (stepRule used) (site.baseStep used) used.minimumStep).at? j

/-- The difference quotient of entry `i` of `of` by entry `j` of `wrt`, with nothing else moved: a
finite difference over the points of its stencil, or the imaginary part after a complex step. An
entry that is missing at a point adds nothing. -/
def quotient (T : Target R σ) (owner : String) (site : Site R) (own : Settings R) (t : σ)
    (of : String) (i : Nat) (wrt : String) (j : Nat) : Outcome (ApproximationError R) R := do
  let used := settingsAt T t own
  let nominal ← T.values t wrt .real
  let h ← Outcome.ofOption (entryStep site used nominal j)
  match ← Outcome.ofExcept (stencil used) with
  | some st =>
    let f₀ ← Outcome.ofOption (← T.values t of .real)[i]?
    let entries ← st.points.mapM fun point => do
      return (← T.response [⟨wrt, j, .real (point.1 * h)⟩] .real of .real t)[i]?
    return Stencil.sumEntries st.points entries (st.baseline * f₀) / st.denominator / h
  | none =>
    let announced := T.enter owner (Scalar.maximum [h]) t
    let v ← Outcome.ofOption
      (← T.response [⟨wrt, j, .imag h⟩] .complex of .imag announced)[i]?
    return v / h

/-- On an exact target quotients depend on the view alone. -/
theorem quotient_congr (hT : T.Exact view) {s t : σ}
    (h : view s = view t) (owner : String) (site : Site R) (own : Settings R) (of : String) (i : Nat)
    (wrt : String) (j : Nat) :
    quotient T owner site own s of i wrt j = quotient T owner site own t of i wrt j := by
  have hused : settingsAt T s own = settingsAt T t own := by
    simp only [settingsAt, hT.complexStepActive h, hT.complexCapable h]
  simp only [quotient, hused, hT.values h, hT.response h, hT.response (hT.enter h _ _)]

omit [Scalar R] in
/-- The values that were read are the current ones. -/
theorem values_of_readValues {requests : List (Request R)} {t : σ}
    {nominal baseline : Table String (List R)}
    (h : readValues T requests t = .ok (nominal, baseline)) {n : String} {vs : List R} :
    (nominal.get? n = some vs → T.values t n .real = .ok vs) ∧
      (baseline.get? n = some vs → T.values t n .real = .ok vs) := by
  let Known (known : Table String (List R)) : Prop :=
    ∀ n vs, known.get? n = some vs → T.values t n .real = .ok vs
  have hinsert {known : Table String (List R)} {name : String} {ws : List R}
      (hknown : Known known) (hws : T.values t name .real = .ok ws) :
      Known (known.insert name ws) := by
    intro n vs hn
    rw [Table.get?_insert] at hn
    split at hn
    · rename_i hname
      rw [hname, hws, Option.some.inj hn]
    · exact hknown n vs hn
  have hall : Known nominal ∧ Known baseline := by
    have hempty : Known ∅ := by
      intro _ _ hn
      cases hn
    refine Except.of_foldlM_eq_ok (P := fun x => Known x.1 ∧ Known x.2) (fun x q _ x' hx hx' => ?_)
      ⟨hempty, hempty⟩ h
    obtain ⟨known, known'⟩ := x
    obtain ⟨hnominal, hbaseline⟩ := hx
    have hof {start : Table String (List R)} (hstart : Known start)
        (h : (if known'.contains q.of then pure (start, known')
          else do pure (start, known'.insert q.of (← T.values t q.of .real)) :
            Outcome (ApproximationError R) _) = .ok x') : Known x'.1 ∧ Known x'.2 := by
      split at h
      · cases h
        exact ⟨hstart, hbaseline⟩
      · obtain ⟨ws, hws, h⟩ := Except.bind_eq_ok.1 h
        cases h
        exact ⟨hstart, hinsert hbaseline hws⟩
    dsimp only at hx'
    split at hx'
    · exact hof hnominal hx'
    · obtain ⟨ws, hws, hx'⟩ := Except.bind_eq_ok.1 hx'
      exact hof (hinsert hnominal hws) hx'
  exact ⟨hall.1 n vs, hall.2 n vs⟩

/-- What a direction with a single perturbation reads, over the step, is the quotient. -/
theorem quotient_of_reads {owner : String} {site : Site R} {own : Settings R} {t : σ}
    {baseline : Table String (List R)} {found : Option (Stencil R)} {of wrt : String} {i j : Nat}
    {nominal : List R} {h v : R}
    (hbaseline : ∀ vs, baseline.get? of = some vs → T.values t of .real = .ok vs)
    (hnominal : T.values t wrt .real = .ok nominal)
    (hstep : entryStep site (settingsAt T t own) nominal j = some h)
    (hstencil : stencil (settingsAt T t own) = .ok found)
    (hreads : Reads T owner t baseline found [⟨wrt, j, h⟩] of i (some v)) :
    quotient T owner site own t of i wrt j = .ok (v / h) := by
  unfold quotient
  refine Except.bind_eq_ok.2 ⟨nominal, hnominal, Except.bind_eq_ok.2 ⟨h, by rw [hstep]; rfl,
    Except.bind_eq_ok.2 ⟨found, by rw [hstencil]; rfl, ?_⟩⟩⟩
  cases found with
  | some st =>
    obtain ⟨f, entries, hf, hresponds, hv⟩ := hreads
    obtain ⟨f₀, hf₀, rfl⟩ := Option.map_eq_some_iff.1 hv.symm
    refine Except.bind_eq_ok.2 ⟨f, hbaseline f hf, Except.bind_eq_ok.2 ⟨f₀, by rw [hf₀]; rfl,
      Except.bind_eq_ok.2 ⟨entries, Except.mapM_eq_ok.2 ?_, rfl⟩⟩⟩
    refine hresponds.imp fun point entry ⟨vs, hvs, hentry⟩ => ?_
    exact Except.bind_eq_ok.2 ⟨vs, hvs, by rw [hentry]; rfl⟩
  | none =>
    obtain ⟨vs, hvs, hv⟩ := hreads
    exact Except.bind_eq_ok.2 ⟨vs, hvs, Except.bind_eq_ok.2 ⟨v, by rw [hv]; rfl, rfl⟩⟩

section Delivered

variable {c : CachedPlan R} {frame : Frame R} {w : Session R σ}

/-- Whatever a direction delivers was measured with the method that the frame has for it. -/
theorem measured_of_delivery {d : Direction × Nat} {e : Delivery R}
    (h : delivery T frame w d = .ok e) :
    ∃ v found perturbations active numerators t,
      frame.methods[d.1.settings]? = some (v, found) ∧
      d.1.seeds.mapM (perturbation w.scheme.site frame.nominal v) = .ok perturbations ∧
      frame.cached.active[d.2]? = some active ∧
      (measure (T.focus active) w.scheme.owner found perturbations
        (w.scheme.ofNames d.1.requests) frame.baseline).perform w.target = (.ok numerators, t) ∧
      e = ⟨d.2, d.1, perturbations.map Perturbation.step, numerators⟩ := by
  obtain ⟨x, hx, rfl⟩ := delivery_eq_ok.1 h
  have h₁ := Action.perform_eq_ok hx
  unfold evaluateDirection at h₁
  rw [Action.perform_get_bind] at h₁
  obtain ⟨⟨v, found⟩, hmethod, h₂⟩ := Action.ofOutcome_bind_eq_ok.1 h₁
  obtain ⟨perturbations, hperturbations, h₃⟩ := Action.ofOutcome_bind_eq_ok.1 h₂
  obtain ⟨active, hactive, h₄⟩ := Action.ofOutcome_bind_eq_ok.1 h₃
  rw [Outcome.ofOption_eq_ok] at hmethod hactive
  obtain ⟨numerators, u, hmeasure, h₅⟩ := Action.bind_eq_ok.1 h₄
  obtain rfl : (perturbations.map Perturbation.step, numerators) = x :=
    Except.ok.inj (Prod.mk.inj h₅).1
  have hnumerators : ((measure (T.focus active) w.scheme.owner found perturbations
      (w.scheme.ofNames d.1.requests) frame.baseline).perform w.target).1 = .ok numerators := by
    cases found with
    | some st =>
      rw [measure, st.difference_focus]
      exact congrArg Prod.fst hmeasure
    | none => exact congrArg Prod.fst hmeasure
  exact ⟨v, found, perturbations, active, numerators, _, hmethod, hperturbations, hactive,
    Action.perform_eq_ok hnumerators, rfl⟩

/-- The source of a column is what a direction with a seed that feeds it handed over. -/
theorem source_of_delivered {P : Direction × Nat → Delivery R → Prop}
    (hP : ∀ d e, P d e → e.columns.map Prod.fst = d.1.seeds.flatMap Seed.columns)
    (hbuild : Plan.build w.scheme.requests c.sizes = .ok c.plan) {es : List (Delivery R)}
    (hes : List.Forall₂ P c.plan.directions.zipIdx es) {r k i : Nat} {q : Request R}
    {cols : List Nat} (hq : w.scheme.requests[r]? = some q) (hcols : q.cols c.sizes = .ok cols)
    (hk : cols[k]? = some i) :
    ∃ d ∈ c.plan.directions.zipIdx, ∃ e, P d e ∧ ∃ seed step,
      (seed, step) ∈ e.direction.seeds.zip e.steps ∧ ⟨r, k⟩ ∈ seed.columns ∧
      Assembler.sources (es.flatMap Delivery.columns) r k =
        some ⟨e.numerators, step, !e.direction.isColored⟩ := by
  obtain ⟨d, hd, seed, hseed, hcolumn⟩ := Plan.exists_seed_of_column hbuild hq hcols hk
  obtain ⟨index, hindex⟩ := List.mem_iff_getElem?.1 hd
  have hd' : (d, index) ∈ c.plan.directions.zipIdx := List.mem_zipIdx_iff_getElem?.2 hindex
  obtain ⟨n, hlt, hn⟩ := List.mem_iff_getElem.1 hd'
  have hlt' : n < es.length := hes.length_eq ▸ hlt
  have he : P (d, index) es[n] := hn ▸ hes.get hlt hlt'
  obtain ⟨⟨_, source⟩, hmem, rfl⟩ : ∃ x ∈ es[n].columns, x.1 = ⟨r, k⟩ := by
    rw [← List.mem_map, hP _ _ he]
    exact List.mem_flatMap.2 ⟨seed, hseed, hcolumn⟩
  refine ⟨_, hd', es[n], he, ?_⟩
  have hfound : Assembler.sources (es.flatMap Delivery.columns) r k = some source := by
    refine Table.find_of_mem ?_ (List.mem_flatMap.2 ⟨es[n], List.getElem_mem hlt', hmem⟩)
    rw [map_fst_columns_of_forall₂ hP hes]
    exact Plan.nodup_columns_of_subperm (Plan.nodup_columns hbuild) (List.Subperm.refl _)
  obtain ⟨⟨seed', step⟩, hzip, hx⟩ := List.mem_flatMap.1 hmem
  obtain ⟨_, hcolumn', hx⟩ := List.mem_map.1 hx
  cases hx
  exact ⟨seed', step, hzip, hcolumn', hfound⟩

/-- **What a value was measured by** that a direction with a single seed wrote: where the sessions of
the directions have the role of a session, the value is an entry of a measurement with one
perturbation, over its step. -/
theorem measured_of_cell [StrictScalar R] {P : Session R σ → Prop}
    (hc : Planned T w.scheme w.target c) (hframe : frameAt T c w.scheme w.target = .ok frame)
    (hP : ∀ u, P u → u.scheme.role = w.scheme.role) {es : List (Delivery R)}
    (hes : List.Forall₂ (DeliversIn T P frame) c.plan.directions.zipIdx es) {r : Nat} {q : Request R}
    (hq : w.scheme.requests[r]? = some q)
    (halone : ∀ d ∈ c.plan.directions, ∀ s ∈ d.seeds, ∀ k ∈ s.columns, k.request = r → d.seeds = [s])
    {rows cols : List Nat} {k l i j : Nat} (hcols : q.cols c.sizes = .ok cols)
    (hk : rows[k]? = some i) (hl : cols[l]? = some j) {v : R}
    (hcell : AssemblySlot.cell (Assembler.sources (es.flatMap Delivery.columns) r) q.of rows k l =
      some v) :
    ∃ u d active found nominal h numerators t vs x, P u ∧
      (∃ s, w.scheme.activeSet (T.graph s) d = .ok active) ∧ d.perturbed = [q.wrt] ∧
      q.of ∈ w.scheme.ofNames d.requests ∧
      stencil (settingsAt T w.target q.settings) = .ok found ∧
      T.values w.target q.wrt .real = .ok nominal ∧
      entryStep w.scheme.site (settingsAt T w.target q.settings) nominal j = some h ∧
      (measure (T.focus active) w.scheme.owner found [⟨q.wrt, j, h⟩] (w.scheme.ofNames d.requests)
        frame.baseline).perform u.target = (.ok numerators, t) ∧
      numerators.get? q.of = some vs ∧ vs[i]? = some x ∧ v = x / h := by
  have hbuild := hc.build
  obtain ⟨d, hd, e, ⟨u, hu, he⟩, seed, step, hzip, hcolumn, hsource⟩ :=
    source_of_delivered (fun _ _ h => h.map_fst_columns) hbuild hes hq hcols hl
  obtain ⟨methods, hmethods, hframe⟩ := Except.bind_eq_ok.1 hframe
  obtain ⟨⟨nominals, baseline⟩, hvalues, hframe⟩ := Except.bind_eq_ok.1 hframe
  cases hframe
  obtain ⟨used, found, perturbations, active, numerators, t, hmethod, hperturbations, hactive,
    hmeasure, rfl⟩ := measured_of_delivery he
  obtain ⟨hsettings, hstencil⟩ :=
    getElem?_of_methods ((Outcome.ofExcept_eq_ok _ _).1 hmethods) hmethod
  obtain ⟨own, hown, rfl⟩ := Option.map_eq_some_iff.1 (List.getElem?_map ▸ hsettings)
  have hd' : d.1 ∈ c.plan.directions := List.mem_of_getElem? (List.mem_zipIdx_iff_getElem?.1 hd)
  dsimp only at hzip hsource
  have hseed := (List.of_mem_zip hzip).1
  obtain ⟨q', cols', σ, hq', hcols', hindex, hwrt, hσ, hset⟩ :=
    Plan.exists_request_of_column hbuild hd' hseed hcolumn
  obtain rfl := Option.some.inj (hq.symm.trans hq')
  obtain rfl := Except.ok.inj (hcols.symm.trans hcols')
  obtain rfl := Option.some.inj (hown.symm.trans hσ)
  obtain rfl : seed.index = j := Option.some.inj (hindex.symm.trans hl)
  obtain rfl : own = q.settings := by
    obtain ⟨q', hq', rfl⟩ := Plan.exists_request_of_settings hbuild (List.mem_of_getElem? hown)
    exact Settings.eq_of_beq_of_validate hset
      (Request.of_validate ((Plan.build_eq_ok hbuild).1 q' hq')).1
  have hrole := hP u hu
  have hrequests : u.scheme.requests = w.scheme.requests := congrArg Role.requests hrole
  have hsite : u.scheme.site = w.scheme.site := congrArg Role.site hrole
  have howner : u.scheme.owner = w.scheme.owner := congrArg Role.owner hrole
  have hnames : u.scheme.ofNames d.1.requests = w.scheme.ofNames d.1.requests := by
    simp only [ofNames, hrequests]
  rw [howner, hnames] at hmeasure
  -- the seed is alone in its direction, and so is its perturbation
  have hsingle := halone d.1 hd' seed hseed _ hcolumn rfl
  rw [hsingle] at hzip hperturbations
  rw [hsite] at hperturbations
  obtain ⟨p, hp, rfl⟩ : ∃ p, perturbation w.scheme.site nominals
      (settingsAt T w.target q.settings) seed = .ok p ∧ perturbations = [p] := by
    obtain ⟨p, rest, hp, hrest, rfl⟩ :=
      List.forall₂_cons_left_iff.1 (Except.mapM_eq_ok.1 hperturbations)
    exact ⟨p, hp, by rw [List.forall₂_nil_left_iff.1 hrest]⟩
  obtain ⟨nominal, hnominal, hp⟩ := Except.bind_eq_ok.1 hp
  obtain ⟨h, hstep, hp⟩ := Except.bind_eq_ok.1 hp
  cases hp
  obtain rfl : step = h := by simpa using hzip
  rw [Outcome.expect_eq_ok] at hnominal
  rw [Outcome.ofOption_eq_ok] at hstep
  obtain ⟨vs, hvs, x, hx, hv⟩ : ∃ vs, numerators.get? q.of = some vs ∧ ∃ x, vs[i]? = some x ∧
      x / step = v := by
    simpa [AssemblySlot.cell, hsource, hk, Source.value?, Option.bind_eq_some_iff] using hcell
  have hperturbed : d.1.perturbed = [q.wrt] := by
    rw [Direction.perturbed, hsingle, ← hwrt]
    rfl
  exact ⟨u, d.1, active, found, nominal, step, numerators, t, vs, x, hu, hc.activeSet hd hactive,
    hperturbed, mem_ofNames hseed hcolumn hq, hstencil,
    hwrt ▸ (values_of_readValues hvalues).1 hnominal, hstep, hwrt ▸ hmeasure, hvs, hx, hv.symm⟩

/-- **A value that is written is the quotient of its entry**, with the components running that
matter for a direction with the variable of the entry and, among others, the variable that is
read. -/
theorem exists_quotient_of_cell [StrictScalar R] (hT : T.Exact view)
    (hc : Planned T w.scheme w.target c) (hframe : frameAt T c w.scheme w.target = .ok frame)
    (hdelivers : ∀ d ∈ c.plan.directions.zipIdx, ∃ e, delivery T frame w d = .ok e)
    {r : Nat} {q : Request R} (hq : w.scheme.requests[r]? = some q)
    (hmerge : q.settings.directional = false ∨ q.pattern = none) {rows cols : List Nat}
    {k l i j : Nat} (hcols : q.cols c.sizes = .ok cols) (hk : rows[k]? = some i)
    (hl : cols[l]? = some j) {v : R}
    (hcell : AssemblySlot.cell (Assembler.sources ((deliveries T frame w
      c.plan.directions.zipIdx).flatMap Delivery.columns) r) q.of rows k l = some v) :
    ∃ u d active, w.scheme.activeSet (T.graph u) d = .ok active ∧ d.perturbed = [q.wrt] ∧
      q.of ∈ w.scheme.ofNames d.requests ∧
      quotient (T.focus active) w.scheme.owner w.scheme.site q.settings w.target q.of i q.wrt j =
        .ok v := by
  have hes : List.Forall₂ (DeliversIn T (· = w) frame) c.plan.directions.zipIdx
      (deliveries T frame w c.plan.directions.zipIdx) :=
    (forall₂_deliveries hdelivers).imp fun _ _ he => ⟨w, rfl, he⟩
  have halone (d : Direction) (hd : d ∈ c.plan.directions) (seed : Seed) (hseed : seed ∈ d.seeds)
      (k : Column) (hk : k ∈ seed.columns) (hkr : k.request = r) : d.seeds = [seed] :=
    Plan.seeds_eq_singleton hc.build hd hseed hk (hkr ▸ hq) hmerge
  obtain ⟨_, d, active, found, nominal, h, numerators, t, vs, x, rfl, ⟨u, hactive⟩, hperturbed, hof,
    hstencil, hnominal, hstep, hmeasure, hvs, hx, rfl⟩ :=
    measured_of_cell (P := (· = w)) hc hframe (fun _ hu => congrArg (·.scheme.role) hu) hes hq halone
      hcols hk hl hcell
  obtain ⟨vs', hvs', hreads⟩ :=
    reads_of_measure (hT.focus active) rfl (nodup_eraseDups _) hmeasure hof
  obtain rfl := Option.some.inj (hvs.symm.trans hvs')
  obtain ⟨methods, -, hframe⟩ := Except.bind_eq_ok.1 hframe
  obtain ⟨⟨nominals, baseline⟩, hvalues, hframe⟩ := Except.bind_eq_ok.1 hframe
  cases hframe
  exact ⟨u, d, active, hactive, hperturbed, hof,
    quotient_of_reads (T := T.focus active) (fun fs hfs => (values_of_readValues hvalues).2 hfs)
      hnominal hstep hstencil (hx ▸ hreads i)⟩

/-- Without a graph all components run. -/
theorem quotient_of_cell [StrictScalar R] (hT : T.Exact view) (hgraph : ∀ u, T.graph u = none)
    (hc : Planned T w.scheme w.target c) (hframe : frameAt T c w.scheme w.target = .ok frame)
    (hdelivers : ∀ d ∈ c.plan.directions.zipIdx, ∃ e, delivery T frame w d = .ok e)
    {r : Nat} {q : Request R} (hq : w.scheme.requests[r]? = some q)
    (hmerge : q.settings.directional = false ∨ q.pattern = none) {rows cols : List Nat}
    {k l i j : Nat} (hcols : q.cols c.sizes = .ok cols) (hk : rows[k]? = some i)
    (hl : cols[l]? = some j) {v : R}
    (hcell : AssemblySlot.cell (Assembler.sources ((deliveries T frame w
      c.plan.directions.zipIdx).flatMap Delivery.columns) r) q.of rows k l = some v) :
    quotient T w.scheme.owner w.scheme.site q.settings w.target q.of i q.wrt j = .ok v := by
  obtain ⟨u, d, active, hactive, -, -, hquotient⟩ := exists_quotient_of_cell hT hc hframe hdelivers
    hq hmerge hcols hk hl hcell
  simp only [activeSet, hgraph u] at hactive
  cases hactive
  exact hquotient

end Delivered

/-- What a computation stores for a request that lets no columns merge: the quotients of its own
settings, whatever else is requested. -/
theorem holds_of_computeJacobian [StrictScalar R] (hT : T.Exact view) (hgraph : ∀ u, T.graph u = none)
    {s : Scheme R} {t : σ} {d : Diagnostics} (hcurrent : s.Current T)
    (hdistinct : (s.requests.map fun q => (q.of, q.wrt)).Nodup) {j : Jacobian R} {w : Session R σ}
    (h : (computeJacobian T).perform ⟨s, d, t⟩ = (.ok j, w)) :
    ∃ sizes, s.sizes T t = .ok sizes ∧ ∀ q ∈ s.requests,
      (q.settings.directional = false ∨ q.pattern = none) → ∃ rows cols block,
        q.rows sizes = .ok rows ∧ q.cols sizes = .ok cols ∧ j.get? (q.of, q.wrt) = some block ∧
        block.Holds q.pattern rows.length cols.length fun k l v => ∃ i j, rows[k]? = some i ∧
          cols[l]? = some j ∧ quotient T s.owner s.site q.settings t q.of i q.wrt j = .ok v := by
  obtain ⟨c, frame, a, hc, hframe, hdelivers, ha, rfl⟩ := received_of_computeJacobian hT
    (fun {u v} _ => (hgraph u).trans (hgraph v).symm) hcurrent h
  obtain ⟨sizes, hsizes, hget⟩ := hc.sizes
  refine ⟨sizes, hsizes, fun q hq hmerge => ?_⟩
  obtain ⟨r, hr⟩ := List.mem_iff_getElem?.1 hq
  obtain ⟨slot, hslot, hfilled⟩ := ha.slot r q hr
  obtain ⟨cols, hcols, -⟩ := hfilled.block
  refine ⟨slot.rows, cols, slot.block, Request.rows_congr hget q ▸ hfilled.rows_eq,
    Request.cols_congr hget q ▸ hcols, ?_, ?_⟩
  · have hentry : ((q.of, q.wrt), slot.block) ∈ a.slots.map fun s => ((s.of, s.wrt), s.block) :=
      List.mem_map.2 ⟨slot, List.mem_of_getElem? hslot, by rw [hfilled.of_eq, hfilled.wrt_eq]⟩
    have hkeys := ha.map_keys ▸ hdistinct
    exact (Table.get?_ofList hkeys _).trans (Table.find_of_mem hkeys hentry)
  · have hvalid := (Plan.exists_arrange_of_build hc.build).1 q hq
    refine hfilled.holds hvalid hcols fun k hk l hl v hcell => ?_
    have hi := List.getElem?_eq_getElem hk
    have hj := List.getElem?_eq_getElem hl
    exact ⟨_, _, hi, hj, quotient_of_cell hT hgraph hc hframe hdelivers hr hmerge hcols hi hj hcell⟩

/-- A block for a request at some state that holds quotients: at every coordinate of a dense block
and at every listed one of a sparse block. The rows and columns stand for the entries that the
request selects. -/
def HoldsQuotients (T : Target R σ) (s : Scheme R) (t : σ) (q : Request R) (rows cols : List Nat) :
    Block R → Prop
  | .dense m => q.pattern = none ∧ m.rows = rows.length ∧ m.cols = cols.length ∧
      ∀ k < rows.length, ∀ l < cols.length, ∃ i j v, rows[k]? = some i ∧ cols[l]? = some j ∧
        m.get? k l = some v ∧ quotient T s.owner s.site q.settings t q.of i q.wrt j = .ok v
  | .sparse p values n m => q.pattern = some p ∧ n = rows.length ∧ m = cols.length ∧
      values.length = p.count ∧
      ∀ x k l : Nat, p.rows[x]? = some k → p.cols[x]? = some l → ∃ i j v,
        rows[k]? = some i ∧ cols[l]? = some j ∧ values[x]? = some v ∧
        quotient T s.owner s.site q.settings t q.of i q.wrt j = .ok v

/-- **A computation stores the quotients of one column at a time**, for each request those of its
own settings, whatever else is requested. -/
theorem quotients_of_computeJacobian [StrictScalar R] (hT : T.Exact view)
    (hgraph : ∀ u, T.graph u = none) {s : Scheme R} {t : σ} {d : Diagnostics}
    (hcurrent : s.Current T) (hdistinct : (s.requests.map fun q => (q.of, q.wrt)).Nodup)
    (hdirectional : ∀ q ∈ s.requests, q.settings.directional = false) {j : Jacobian R}
    {w : Session R σ} (h : (computeJacobian T).perform ⟨s, d, t⟩ = (.ok j, w)) :
    ∃ sizes, s.sizes T t = .ok sizes ∧ ∀ q ∈ s.requests, ∃ rows cols block,
      q.rows sizes = .ok rows ∧ q.cols sizes = .ok cols ∧ j.get? (q.of, q.wrt) = some block ∧
      HoldsQuotients T s t q rows cols block := by
  obtain ⟨sizes, hsizes, hall⟩ := holds_of_computeJacobian hT hgraph hcurrent hdistinct h
  refine ⟨sizes, hsizes, fun q hq => ?_⟩
  obtain ⟨rows, cols, block, hrows, hcols, hblock, hholds⟩ := hall q hq (.inl (hdirectional q hq))
  refine ⟨rows, cols, block, hrows, hcols, hblock, ?_⟩
  cases block with
  | dense m =>
    obtain ⟨hpattern, hmrows, hmcols, hentries⟩ := hholds
    refine ⟨hpattern, hmrows, hmcols, fun k hk l hl => ?_⟩
    obtain ⟨v, hv, i, j, hi, hj, hquotient⟩ := hentries k hk l hl
    exact ⟨i, j, v, hi, hj, hv, hquotient⟩
  | sparse p values n m =>
    obtain ⟨hpattern, hn, hm, hlength, hentries⟩ := hholds
    refine ⟨hpattern, hn, hm, hlength, fun x k l hk hl => ?_⟩
    obtain ⟨-, -, v, hv, i, j, hi, hj, hquotient⟩ := hentries x k l hk hl
    exact ⟨i, j, v, hi, hj, hv, hquotient⟩

section Squares

/-- A request with repeated entries, and one with a pattern and settings of its own. -/
def selectedRequests : List (Request Float) :=
  [{ Request.whole "y" "x" Settings.finiteDifference with
      ofEntries := some [1, 0, 1], wrtEntries := some [1] },
    { Request.whole "z" "x" { Settings.finiteDifference with form := .central } with
      pattern := some ⟨[0, 1], [1, 1]⟩ }]

def selected : Scheme Float := { empty "model" .group .warn with requests := selectedRequests }

/-- The squares, with some of their entries requested. -/
theorem quotients_squares :
    ∃ j w, (computeJacobian squares).perform ⟨selected, default, [3.0, 5.0]⟩ = (.ok j, w) ∧
      ∃ sizes, selected.sizes squares [3.0, 5.0] = .ok sizes ∧
        ∀ q ∈ selectedRequests, ∃ rows cols block, q.rows sizes = .ok rows ∧
          q.cols sizes = .ok cols ∧ j.get? (q.of, q.wrt) = some block ∧
          HoldsQuotients squares selected [3.0, 5.0] q rows cols block := by
  have hrun : ((computeJacobian squares).perform
      ⟨selected, default, [3.0, 5.0]⟩).1.toOption.isSome = true := by decide +kernel
  obtain ⟨j, hj⟩ := Option.isSome_iff_exists.1 hrun
  have h := Action.perform_eq_ok (Except.eq_ok_of_toOption hj)
  have hcurrent : selected.Current squares := fun _ hc => nomatch hc
  exact ⟨j, _, h, quotients_of_computeJacobian squares_exact (fun _ => rfl) hcurrent (by decide)
    (by decide +kernel) h⟩

end Squares

end Scheme

end Sensitivity
