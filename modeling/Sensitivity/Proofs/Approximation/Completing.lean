import Sensitivity.Proofs.Approximation.Planning
import Sensitivity.Proofs.Approximation.Quotients
import Sensitivity.Proofs.Approximation.Writing

/-!
# Computations that succeed

A target is willing when its variables can be read and perturbed and it can be evaluated, wherever
some property holds that none of this ends (`Target.Willing`). Directions on such a target can be
evaluated (`Stencil.yields_difference`, `StepEngine.yields_runIdle`), what they deliver can be
deposited, and a scheme of requests for entries that are there computes their blocks
(`Scheme.Grantable.exists_computeJacobian`), whatever the method, the step, and the policy on
patterns.
-/

namespace Sensitivity

variable {R σ γ : Type}

/-- A target that does what it is asked where `P` holds. Its variables have so many entries, which can
be read and perturbed, and it can be evaluated, in complex arithmetic if complex evaluations carry
derivatives. -/
structure Target.Willing (T : Target R σ) (P : σ → Prop) (extent : String → Option Nat)
    (capable : Bool) : Prop where
  size : ∀ {s}, P s → ∀ {name n}, extent name = some n → T.size s name = .ok n
  values : ∀ {s}, P s → ∀ {name n}, extent name = some n → ∀ part,
    ∃ vs, T.values s name part = .ok vs ∧ vs.length = n
  perturb : ∀ {s}, P s → ∀ {name n}, extent name = some n → ∀ {i}, i < n → ∀ h,
    Action.Yields (fun _ t => P t) ((T.perturb name i (.real h)).perform s)
  perturbStep : capable = true → ∀ {s}, P s → ∀ {name n}, extent name = some n → ∀ {i}, i < n →
    ∀ h, Action.Yields (fun _ t => P t) ((T.perturb name i (.imag h)).perform s)
  evaluate : ∀ {s}, P s → ∀ active,
    Action.Yields (fun _ t => P t) ((T.evaluate active .real).perform s)
  evaluateStep : capable = true → ∀ {s}, P s → ∀ active,
    Action.Yields (fun _ t => P t) ((T.evaluate active .complex).perform s)
  restore : ∀ {s t}, P s → P t → P (T.restore s t)
  enter : ∀ {s}, P s → ∀ owner h, P (T.enter owner h s)
  leave : ∀ {s}, P s → P (T.leave s)
  capable : ∀ {s}, P s → T.complexCapable s = capable

/-- A target that always runs the same components. -/
theorem Target.Willing.focus {T : Target R σ} {P : σ → Prop} {extent : String → Option Nat}
    {capable : Bool} (hT : T.Willing P extent capable) (active : ActiveSet) :
    (T.focus active).Willing P extent capable where
  size := hT.size
  values := hT.values
  perturb := hT.perturb
  perturbStep := hT.perturbStep
  evaluate hs _ := hT.evaluate hs active
  evaluateStep hcapable _ hs _ := hT.evaluateStep hcapable hs active
  restore := hT.restore
  enter := hT.enter
  leave := hT.leave
  capable := hT.capable

/-- Perturbed entries that exist, and variables to read that do. -/
structure Target.Asks (extent : String → Option Nat) (perturbations : List (Perturbation R))
    (of : List String) : Prop where
  entries : ∀ p ∈ perturbations, ∃ n, extent p.name = some n ∧ p.index < n
  of : ∀ name ∈ of, ∃ n, extent name = some n

variable {T : Target R σ} {P : σ → Prop} {extent : String → Option Nat} {capable : Bool}
  (hT : T.Willing P extent capable)

theorem Target.Willing.readAll (hT : T.Willing P extent capable) {s : σ} (hs : P s)
    {of : List String} (hof : ∀ name ∈ of, ∃ n, extent name = some n) (part : Part) :
    Action.Yields (fun _ t => P t) ((T.readAll of part).perform s) := by
  obtain ⟨read, hread⟩ : ∃ read, (of.mapM fun n => do return (n, ← T.values s n part)) = .ok read :=
    Except.exists_mapM fun name hname => by
      obtain ⟨n, hn⟩ := hof name hname
      obtain ⟨vs, hvs, -⟩ := hT.values hs hn part
      exact ⟨(name, vs), Except.bind_eq_ok.2 ⟨vs, hvs, rfl⟩⟩
  exact ⟨read, s, by rw [Target.readAll, Action.perform_read, hread], hs⟩

variable [Scalar R] {perturbations : List (Perturbation R)} {active : ActiveSet} {of : List String}
  {s : σ} (hasks : Target.Asks extent perturbations of)

include hT hasks

namespace Stencil

omit hT hasks in
/-- Sums can be started for variables whose values at the point are known. -/
theorem exists_startSums (st : Stencil R) {baseline : Table String (List R)}
    (hbaseline : ∀ name ∈ of, name ∈ baseline.keys) :
    ∃ start, st.startSums of baseline = .ok start := by
  obtain ⟨start, hstart, -⟩ : ∃ start, st.startSums of baseline = .ok start ∧ True := by
    refine Except.exists_foldlM (P := fun _ => True) (fun name hname sums _ => ?_) trivial
    cases hget : baseline.get? name with
    | none => exact absurd (hbaseline name hname) ((Table.get?_eq_none_iff _ _).1 hget)
    | some f => exact ⟨_, rfl, trivial⟩
  exact ⟨start, hstart⟩

/-- A point of a stencil can be evaluated. -/
theorem yields_evaluatePoint (offset : R) (hs : P s) : Action.Yields (fun _ t => P t)
    ((evaluatePoint T perturbations offset active of).perform s) := by
  refine Action.yields_bind (Action.yields_forEach (fun p hp t ht => ?_) hs) fun _ t ht => ?_
  · obtain ⟨n, hn, hlt⟩ := hasks.entries p hp
    exact hT.perturb ht hn hlt _
  · exact Action.yields_bind (hT.evaluate ht active) fun _ u hu => hT.readAll hu hasks.of .real

theorem yields_sumPoints {saved : σ} (hsaved : P saved) (points : List (R × R))
    (sums : Table String (List R)) (hs : P s) : Action.Yields (fun _ t => P t)
      ((sumPoints T saved perturbations active of points sums).perform s) := by
  induction points generalizing s sums with
  | nil => exact Action.yields_pure hs
  | cons point rest ih =>
    have hpoint : Action.Yields (fun _ t => P t) ((T.thenRestore saved
        (evaluatePoint T perturbations point.1 active of)).perform s) := by
      obtain ⟨read, t, hread, ht⟩ := yields_evaluatePoint hT hasks point.1 hs
      exact ⟨read, T.restore saved t, by rw [Target.thenRestore, Action.perform_of, hread],
        hT.restore hsaved ht⟩
    exact Action.yields_bind hpoint fun _ t ht => ih _ ht

/-- **A finite difference can be taken** of variables whose values at the point are known. -/
theorem yields_difference (st : Stencil R) {baseline : Table String (List R)}
    (hbaseline : ∀ name ∈ of, name ∈ baseline.keys) (hs : P s) : Action.Yields (fun _ t => P t)
      ((st.difference T perturbations active of baseline).perform s) := by
  obtain ⟨start, hstart⟩ := st.exists_startSums hbaseline
  refine Action.yields_ofOutcome_bind ((Outcome.ofExcept_eq_ok _ _).2 hstart)
    (Action.yields_get_bind ?_)
  exact Action.yields_bind (yields_sumPoints hT hasks hs st.points start hs) fun _ t ht =>
    Action.yields_pure ht

end Stencil

namespace StepEngine

/-- **A complex step can be taken** where evaluations in complex arithmetic carry derivatives. -/
theorem yields_runIdle (hcapable : capable = true) (owner : String) (hs : P s) :
    Action.Yields (fun _ t => P t) ((runIdle T owner perturbations active of).perform s) := by
  -- the state to return to is saved all along
  let Under (p : Phase) (d : Driven σ) : Prop :=
    d.engine = ⟨p, some s⟩ ∧ P d.target
  have hstart : Action.Yields (fun _ d => Under .perturbed d)
      ((start T owner perturbations).perform ⟨idle, s⟩) := by
    unfold start
    rw [perform_require_bind (by rfl)]
    refine Action.yields_modify_bind (Action.yields_forEach (fun p hp d hd => ?_)
      ⟨rfl, hT.enter hs _ _⟩)
    obtain ⟨n, hn, hlt⟩ := hasks.entries p hp
    exact Action.yields_on ((hT.perturbStep hcapable hd.2 hn hlt _).mono fun _ t ht => ⟨hd.1, ht⟩)
  have hcapture (d : Driven σ) (hd : Under .perturbed d) :
      Action.Yields (fun _ d => Under .captured d) ((capture T active of).perform d) := by
    unfold capture
    rw [perform_require_bind (by rw [hd.1]; rfl)]
    refine Action.yields_bind (Q := fun _ d => Under .perturbed d) (Action.yields_on
      ((hT.evaluateStep hcapable hd.2 active).mono fun _ t ht => ⟨hd.1, ht⟩)) fun _ d hd => ?_
    refine Action.yields_bind (Q := fun _ d => Under .perturbed d) (Action.yields_on
      ((hT.readAll hd.2 hasks.of .imag).mono fun _ t ht => ⟨hd.1, ht⟩)) fun _ d hd => ?_
    refine Action.yields_modify_bind (Action.yields_pure ⟨?_, hd.2⟩)
    rw [hd.1]
  have hfinish (d : Driven σ) (hd : Under .captured d) : Action.Yields (fun _ d => P d.target)
      ((finish T : Action _ (ApproximationError R) _).perform d) := by
    unfold finish
    rw [perform_require_bind (by rw [hd.1]; rfl)]
    refine Action.yields_modify ?_
    rw [hd.1]
    exact hT.leave (hT.restore hs hd.2)
  refine Action.yields_on ?_
  refine Action.yields_bind (Action.yields_attempt
    (Action.yields_bind hstart fun _ d hd => hcapture d hd)) fun r d hr => ?_
  obtain ⟨captured, rfl, hd⟩ := hr
  refine Action.yields_bind (hfinish d hd) fun _ e he => ?_
  exact ⟨captured, e, rfl, he⟩

end StepEngine

omit hT hasks

/-- Without a pattern nothing is outside of it. -/
theorem AssemblySlot.FilledBy.mismatch?_eq_none {sizes : Sizes} {tolerance : R} {q : Request R}
    {f : Nat → Option (Source R)} {s : AssemblySlot R} (h : s.FilledBy sizes tolerance q f)
    (hpattern : q.pattern = none) : Assembler.mismatch? s = none := by
  have hempty : s.outside.entries = [] := by
    refine List.eq_nil_iff_forall_not_mem.2 fun x hx => ?_
    have hget := h.outside x.1.1 x.1.2
    rw [hpattern] at hget
    exact (Table.get?_eq_none_iff _ _).1 hget (List.mem_map_of_mem hx)
  rw [Assembler.mismatch?, hempty, List.mergeSort_nil]
  rfl

omit [Scalar R] in
include hT in
/-- A complex step is answered with as many entries as a variable has. -/
theorem Target.Willing.length_response (hcapable : capable = true) (hs : P s)
    (hasks : Target.Asks extent perturbations of) {name : String} {n : Nat}
    (hname : extent name = some n) {vs : List R}
    (h : T.response (StepEngine.moves perturbations) .complex name .imag s = .ok vs) :
    vs.length = n := by
  obtain ⟨x, t, hshift, ht⟩ : Action.Yields (fun _ t => P t)
      ((T.shift (StepEngine.moves perturbations) .complex).perform s) := by
    refine Action.yields_bind (Action.yields_forEach (fun m hm t ht => ?_) hs) fun _ t ht =>
      hT.evaluateStep hcapable ht .all
    obtain ⟨p, hp, rfl⟩ := List.mem_map.1 hm
    obtain ⟨n, hn, hlt⟩ := hasks.entries p hp
    exact hT.perturbStep hcapable ht hn hlt _
  obtain ⟨ws, hws, hlength⟩ := hT.values ht hname .imag
  unfold Target.response at h
  rw [hshift] at h
  rw [← Except.ok.inj (hws.symm.trans h), hlength]

namespace Scheme

include hT hasks in
/-- A direction can be measured, by a stencil or, where it can be taken, by a complex step. -/
theorem yields_measure {found : Option (Stencil R)} (hfound : found = none → capable = true)
    {baseline : Table String (List R)} (hbaseline : ∀ name ∈ of, name ∈ baseline.keys)
    (owner : String) (hs : P s) : Action.Yields (fun _ t => P t)
      ((measure T owner found perturbations of baseline).perform s) := by
  cases found with
  | some st => exact Stencil.yields_difference hT hasks st hbaseline hs
  | none => exact StepEngine.yields_runIdle hT hasks (hfound rfl) owner hs

variable {view : σ → γ}

include hT hasks in
/-- What is measured has an entry for each of the variable. -/
theorem length_of_measure (hexact : T.Exact view) {found : Option (Stencil R)}
    (hfound : found = none → capable = true) {baseline numerators : Table String (List R)}
    (hbaseline : ∀ name f, baseline.get? name = some f → T.values s name .real = .ok f)
    {owner : String} (hs : P s) (hnodup : of.Nodup) {u : σ}
    (h : (measure T owner found perturbations of baseline).perform s = (.ok numerators, u))
    {name : String} (hof : name ∈ of) {n : Nat} (hname : extent name = some n) :
    ∃ vs, numerators.get? name = some vs ∧ n ≤ vs.length := by
  obtain ⟨vs, hvs, hreads⟩ := reads_of_measure hexact rfl hnodup h hof
  refine ⟨vs, hvs, Nat.le_of_not_lt fun hlt => ?_⟩
  have hread := hreads vs.length
  rw [List.getElem?_eq_none (Nat.le_refl _)] at hread
  cases found with
  | some st =>
    obtain ⟨f, entries, hf, -, hnone⟩ := hread
    obtain ⟨f', hf', hlength⟩ := hT.values hs hname .real
    obtain rfl := Except.ok.inj (hf'.symm.trans (hbaseline name f hf))
    rw [List.getElem?_eq_getElem (hlength ▸ hlt)] at hnone
    cases hnone
  | none =>
    obtain ⟨ws, hws, hnone⟩ := hread
    have hlength := hT.length_response (hfound rfl) (hT.enter hs _ _) hasks hname hws
    exact absurd (List.getElem?_eq_none_iff.1 hnone) (by omega)

/-- Blocks with nothing outside a pattern are handed out under every policy. -/
theorem exists_finish_of_ok {a : Assembler R} {j : Jacobian R} (h : a.finish = .ok (j, []))
    (w : Session R σ) : ∃ j v, (finish a : Work R σ (Jacobian R)).perform w = (.ok j, v) := by
  obtain ⟨x, v, hfinish, -⟩ : Action.Yields (fun _ _ => True)
      ((finish a : Work R σ (Jacobian R)).perform w) := by
    refine Action.yields_ofOutcome_bind ((Outcome.ofExcept_eq_ok _ _).2 h)
      (Action.yields_get_bind (Action.yields_modify_bind ?_))
    split
    · exact ⟨j, _, rfl, trivial⟩
    · exact ⟨j, _, rfl, trivial⟩
  exact ⟨x, v, hfinish⟩

/-- A scheme of requests for entries that are there. -/
def Grantable (extent : String → Option Nat) (s : Scheme R) : Prop :=
  ∀ q ∈ s.requests, q.Apt extent

section Computing

variable [LawfulScalar R] {w : Session R σ} {c : CachedPlan R} (hs : w.scheme.Grantable extent)
  (hw : P w.target)

include hs hw hT

omit [LawfulScalar R] in
/-- The values of the variables of the requests can be read. -/
theorem Grantable.exists_values {q : Request R} (hq : q ∈ w.scheme.requests) :
    (∃ vs, T.values w.target q.of .real = .ok vs) ∧
      ∃ vs, T.values w.target q.wrt .real = .ok vs := by
  obtain ⟨n, hn, -⟩ := (hs q hq).of
  obtain ⟨k, hk, -⟩ := (hs q hq).wrt
  obtain ⟨f, hf, -⟩ := hT.values hw hn .real
  obtain ⟨x, hx, -⟩ := hT.values hw hk .real
  exact ⟨⟨f, hf⟩, ⟨x, hx⟩⟩

omit [LawfulScalar R] in
/-- The rows and columns of a request are entries of its variables. -/
theorem Grantable.exists_entries (hc : Planned T w.scheme w.target c) {q : Request R}
    (hq : q ∈ w.scheme.requests) : ∃ n l rows cols, extent q.of = some n ∧ extent q.wrt = some l ∧
      q.rows c.sizes = .ok rows ∧ (∀ i ∈ rows, i < n) ∧ q.cols c.sizes = .ok cols ∧
        ∀ j ∈ cols, j < l := by
  obtain ⟨n, rows, hn, hrows, hbelow⟩ := (hs q hq).exists_rows fun _ hn =>
    hc.get?_sizes (mem_variableNames hq).1 (hT.size hw hn)
  obtain ⟨l, cols, hl, hcols, hbelow'⟩ := (hs q hq).exists_cols fun _ hn =>
    hc.get?_sizes (mem_variableNames hq).2 (hT.size hw hn)
  exact ⟨n, l, rows, cols, hn, hl, hrows, hbelow, hcols, hbelow'⟩

/-- A seed of the plan perturbs an entry of a variable, and its columns are columns of blocks. -/
theorem Grantable.of_column (hc : Planned T w.scheme w.target c) {d : Direction}
    (hd : d ∈ c.plan.directions) {seed : Seed} (hseed : seed ∈ d.seeds) {k : Column}
    (hk : k ∈ seed.columns) : ∃ q n l rows cols, w.scheme.requests[k.request]? = some q ∧
      extent q.of = some n ∧ extent q.wrt = some l ∧ seed.wrt = q.wrt ∧ seed.index < l ∧
      q.rows c.sizes = .ok rows ∧ (∀ i ∈ rows, i < n) ∧ q.cols c.sizes = .ok cols ∧
        k.col < cols.length := by
  obtain ⟨q, cols, -, hq, hcols, hindex, hwrt, -, -⟩ :=
    (Plan.covers_of_build hc.build).of_column d hd seed hseed k hk
  obtain ⟨n, l, rows, cols', hn, hl, hrows, hbelow, hcols', hbelow'⟩ :=
    hs.exists_entries hT hw hc (List.mem_of_getElem? hq)
  obtain rfl := Except.ok.inj (hcols.symm.trans hcols')
  exact ⟨q, n, l, rows, cols, hq, hn, hl, hwrt, hbelow' _ (List.mem_of_getElem? hindex), hrows,
    hbelow, hcols, (List.getElem?_eq_some_iff.1 hindex).1⟩

/-- **Every direction of the plan delivers**, and what it delivers reaches all rows of its columns. -/
theorem Grantable.exists_delivery (hexact : T.Exact view)
    (hc : Planned T w.scheme w.target c) {frame : Frame R}
    (hframe : frameAt T c w.scheme w.target = .ok frame) {d : Direction × Nat}
    (hd : d ∈ c.plan.directions.zipIdx) : ∃ e, delivery T frame w d = .ok e ∧ e.index = d.2 ∧
      e.direction = d.1 ∧ ∀ seed ∈ d.1.seeds, ∀ k ∈ seed.columns,
        Assembler.Reaches w.scheme.requests c.sizes e.numerators k := by
  obtain ⟨methods, nominal, baseline, hframe', hmethods, hread, hknown⟩ :=
    exists_frameAt hc (fun q hq => (hs q hq).valid) fun q hq => hs.exists_values hT hw hq
  obtain rfl := Except.ok.inj (hframe.symm.trans hframe')
  have hd' : d.1 ∈ c.plan.directions := List.mem_of_getElem? (List.mem_zipIdx_iff_getElem?.1 hd)
  -- the settings that are used
  obtain ⟨own, hown⟩ := Plan.exists_settings_of_direction hc.build hd'
  obtain ⟨⟨used, found⟩, hmethod⟩ : ∃ x, methods[d.1.settings]? = some x := by
    have hlt := (List.getElem?_eq_some_iff.1 hown).1
    refine ⟨_, List.getElem?_eq_getElem ?_⟩
    rw [← (Except.mapM_eq_ok.1 hmethods).length_eq, List.length_map]
    exact hlt
  obtain ⟨hused, hstencil⟩ := getElem?_of_methods hmethods hmethod
  obtain rfl : settingsAt T w.target own = used := by
    rw [List.getElem?_map, hown] at hused
    exact Option.some.inj hused
  have hfound (h : found = none) : capable = true := by
    subst h
    refine (hT.capable hw).symm.trans ?_
    have husable : (settingsAt T w.target own).method = .complexStep → T.complexCapable w.target = true :=
      complexCapable_of_method
    refine husable ?_
    cases hused : (settingsAt T w.target own).method with
    | complexStep => rfl
    | finiteDifference =>
      rw [stencil, hused] at hstencil
      cases hform : (Stencil.ofForm (R := R) (settingsAt T w.target own).form
        (settingsAt T w.target own).resolvedOrder) <;> rw [hform] at hstencil <;> cases hstencil
  -- the perturbations
  obtain ⟨perturbations, hperturbations⟩ : ∃ ps, d.1.seeds.mapM (perturbation w.scheme.site nominal
      (settingsAt T w.target own)) = .ok ps := by
    refine Except.exists_mapM fun seed hseed => ?_
    obtain ⟨k, hk⟩ := List.exists_mem_of_ne_nil _
      ((Plan.covers_of_build hc.build).columns_ne_nil d.1 hd' seed hseed)
    obtain ⟨q, n, l, -, -, hq, -, hl, hwrt, hindex, -⟩ := hs.of_column hT hw hc hd' hseed hk
    cases hget : nominal.get? q.wrt with
    | none =>
      exact absurd (hknown q (List.mem_of_getElem? hq)).1 ((Table.get?_eq_none_iff _ _).1 hget)
    | some values =>
      obtain ⟨values', hvalues, hlength⟩ := hT.values hw hl .real
      obtain rfl := Except.ok.inj (hvalues.symm.trans ((values_of_readValues hread).1 hget))
      obtain ⟨h, hstep⟩ := Steps.exists_at? (R := R) (hlength ▸ hindex)
        (stepRule (settingsAt T w.target own)) (w.scheme.site.baseStep (settingsAt T w.target own))
        (settingsAt T w.target own).minimumStep
      exact ⟨_, Except.bind_eq_ok.2 ⟨values', by rw [hwrt, hget]; rfl,
        Except.bind_eq_ok.2 ⟨h, by rw [hstep]; rfl, rfl⟩⟩⟩
  have hasks : Target.Asks extent perturbations (w.scheme.ofNames d.1.requests) := by
    refine ⟨fun p hp => ?_, fun name hname => ?_⟩
    · obtain ⟨seed, hseed, hp⟩ := (Except.mem_mapM hperturbations).1 hp
      obtain ⟨k, hk⟩ := List.exists_mem_of_ne_nil _
        ((Plan.covers_of_build hc.build).columns_ne_nil d.1 hd' seed hseed)
      obtain ⟨q, n, l, -, -, -, -, hl, hwrt, hindex, -⟩ := hs.of_column hT hw hc hd' hseed hk
      obtain ⟨hname, hentry⟩ := entry_of_perturbation hp
      exact ⟨l, by rw [hname, hwrt, hl], hentry ▸ hindex⟩
    · obtain ⟨q, hq, rfl⟩ := exists_request_of_mem_ofNames hname
      exact (hs q hq).of.imp fun _ h => h.1
  obtain ⟨active, hactive⟩ := hc.exists_active hd
  obtain ⟨numerators, u, hmeasure, -⟩ := yields_measure (hT.focus active) hasks hfound
    (fun name hname => by
      obtain ⟨q, hq, rfl⟩ := exists_request_of_mem_ofNames hname
      exact (hknown q hq).2) w.scheme.owner hw
  refine ⟨⟨d.2, d.1, perturbations.map Perturbation.step, numerators⟩, ?_, rfl, rfl,
    fun seed hseed k hk => ?_⟩
  · have hdirection : Action.Yields (fun x _ => x = (perturbations.map Perturbation.step, numerators))
        ((evaluateDirection T ⟨c, methods, nominal, baseline⟩ d.1 d.2).perform w) := by
      refine Action.yields_get_bind (Action.yields_ofOutcome_bind
        ((Outcome.ofOption_eq_ok _ _).2 hmethod) (Action.yields_ofOutcome_bind hperturbations
          (Action.yields_ofOutcome_bind ((Outcome.ofOption_eq_ok _ _).2 hactive) ?_)))
      refine Action.yields_bind (Q := fun x _ => x = numerators) (Action.yields_on
        ⟨numerators, u, ?_, rfl⟩) fun x v hx => Action.yields_pure (by rw [hx])
      cases found with
      | some st =>
        rw [measure, st.difference_focus] at hmeasure
        exact hmeasure
      | none => exact hmeasure
    obtain ⟨x, v, hperform, rfl⟩ := hdirection
    exact delivery_eq_ok.2 ⟨_, congrArg Prod.fst hperform, rfl⟩
  · obtain ⟨q, n, l, rows, cols, hq, hn, -, -, -, hrows, hbelow, hcols, hlt⟩ :=
      hs.of_column hT hw hc hd' hseed hk
    obtain ⟨vs, hvs, hlength⟩ := length_of_measure (hT.focus active) hasks (hexact.focus active) hfound
      (fun name f hf => (values_of_readValues hread).2 hf) hw (nodup_eraseDups _) hmeasure
      (mem_ofNames hseed hk hq) hn
    exact ⟨q, rows, cols, vs, hq, hrows, hcols, hlt, hvs,
      fun i hi => Nat.lt_of_lt_of_le (hbelow i hi) hlength⟩

/-- **A scheme of requests for entries that are there computes their blocks** on a willing and exact
target. -/
theorem Grantable.exists_computeJacobian (hexact : T.Exact view) (hcharted : T.Charted extent)
    (hcurrent : w.scheme.Current T) :
    ∃ j v, (computeJacobian T).perform w = (.ok j, v) := by
  obtain ⟨c, u, htake⟩ := exists_takePlan_of_apt hcharted hcurrent hs fun _ _ hn => hT.size hw hn
  have hc := planned_of_takePlan hcurrent htake
  obtain ⟨methods, nominal, baseline, hframe, -⟩ :=
    exists_frameAt hc (fun q hq => (hs q hq).valid) fun q hq => hs.exists_values hT hw hq
  obtain ⟨a₀, hstart⟩ := Assembler.exists_start c.plan fun q hq => by
    obtain ⟨_, _, rows, cols, -, -, hrows, -, hcols, -⟩ := hs.exists_entries hT hw hc hq
    exact ⟨rows, cols, hrows, hcols⟩
  have hdelivers (d : Direction × Nat) (hd : d ∈ c.plan.directions.zipIdx) :
      ∃ e, delivery T ⟨c, methods, nominal, baseline⟩ w d = .ok e ∧
        (deposited e { a₀ with tolerance := w.scheme.tolerance }).1 = .ok () := by
    obtain ⟨e, he, hindex, hdirection, hreaches⟩ := hs.exists_delivery hT hw hexact hc hframe hd
    have hlt := (List.getElem?_eq_some_iff.1 (List.mem_zipIdx_iff_getElem?.1 hd)).1
    obtain ⟨⟨⟩, a, hdeposit, -⟩ := (Assembler.laid_start hstart w.scheme.tolerance).yields_deposit
      (Plan.build_eq_ok hc.build).1 (hindex ▸ hlt) (hdirection ▸ hreaches) e.steps
    exact ⟨e, he, congrArg Prod.fst hdeposit⟩
  obtain ⟨a, v, hpart, -, ha⟩ := exists_computePartition_serial hexact
    (fun _ => hcharted.constant _ _) rfl htake (Plan.nodup_columns hc.build) hstart hframe
    hdelivers
  obtain ⟨hcompleted, hlength⟩ := completed_of_received (List.Subperm.refl _)
    (fun d hd => (hdelivers d hd).imp fun _ h => h.1) ha
  have hfinish : a.finish = .ok (.ofList (a.slots.map fun s => ((s.of, s.wrt), s.block)), []) := by
    rw [Assembler.finish, if_pos (by rw [hcompleted, hlength, List.length_zipIdx])]
    refine congrArg _ (Prod.ext rfl (List.filterMap_eq_nil_iff.2 fun s hmem => ?_))
    obtain ⟨r, hr, rfl⟩ := List.getElem_of_mem hmem
    have hr' : r < w.scheme.requests.length := ha.length_eq ▸ hr
    obtain ⟨s, hslot, hfilled⟩ := ha.slot r _ (List.getElem?_eq_getElem hr')
    obtain rfl := Option.some.inj ((List.getElem?_eq_getElem hr).symm.trans hslot)
    exact hfilled.mismatch?_eq_none (hs _ (List.getElem_mem hr')).pattern
  obtain ⟨j, z, hresult⟩ := exists_finish_of_ok hfinish v
  refine ⟨j, z, ?_⟩
  rw [computeJacobian, Action.perform_bind, hpart]
  exact hresult

end Computing

end Scheme

end Sensitivity
