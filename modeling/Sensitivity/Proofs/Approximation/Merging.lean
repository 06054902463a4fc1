import Sensitivity.Proofs.Approximation.Ambiguity
import Sensitivity.Proofs.Approximation.Computation

/-!
# Merging columns changes no block

Requests of whole blocks with patterns declare which entries depend on which (`Scheme.declares`). A
target follows these declarations when an entry keeps its value as moves come and go that it is not
declared to depend on (`Target.Follows`).

Every stored value is then isolated: whatever else was perturbed in its direction, its entry was
declared not to depend on (`Scheme.isolated_of_stored`), because the seeds of a direction are apart.
An isolated value is determined by the target and the settings alone (`Scheme.Isolated.unique`), and
neither the stencil nor the steps depend on whether columns may merge. So a scheme whose columns may
merge and one whose columns may not store the same blocks (`Scheme.computeJacobian_undirected`).
-/

namespace Sensitivity

variable {R σ γ : Type}

/-- Some request declares that entry `i` of `of` depends on entry `j` of `wrt`. -/
def Scheme.declares (s : Scheme R) (of : String) (i : Nat) (wrt : String) (j : Nat) : Bool :=
  s.requests.any fun q =>
    q.of == of && q.wrt == wrt && q.pattern.all fun p => p.contains i j

/-- At a state the target follows what a scheme declares: an entry of a variable that is asked for
keeps its value when moves of entries that it is not declared to depend on come or go. -/
def Target.Follows (T : Target R σ) (s : Scheme R) (t : σ) (mode : Mode) (part : Part) : Prop :=
  ∀ of i, (∃ q ∈ s.requests, q.of = of) → ∀ moves moves' : List (Move R),
    (∀ m ∈ moves ++ moves', ∃ q ∈ s.requests, q.wrt = m.name) →
    moves.filter (fun m => s.declares of i m.name m.index) =
      moves'.filter (fun m => s.declares of i m.name m.index) →
    ∀ vs vs', T.response moves mode of part t = .ok vs →
      T.response moves' mode of part t = .ok vs' → vs[i]? = vs'[i]?

/-- The target follows what a scheme declares, in real evaluations and under a complex step. -/
structure Target.Obeys (T : Target R σ) (s : Scheme R) (t : σ) : Prop where
  real : T.Follows s t .real .real
  complex : ∀ h, T.Follows s (T.enter s.owner h t) .complex .imag

variable [Scalar R]

/-- The largest of some equal numbers depends on the number alone. -/
theorem Scalar.maximum_of_forall_eq [LawfulScalar R] {xs : List R} {h : R} (hne : xs ≠ [])
    (hall : ∀ x ∈ xs, x = h) : Scalar.maximum xs = Scalar.max 0 h := by
  obtain ⟨x, rest, rfl⟩ := List.exists_cons_of_ne_nil hne
  obtain rfl := hall x List.mem_cons_self
  have hrest (ys : List R) (hys : ∀ y ∈ ys, y = x) :
      ys.foldl Scalar.max (Scalar.max 0 x) = Scalar.max 0 x := by
    induction ys with
    | nil => rfl
    | cons y ys ih =>
      obtain rfl := hys y List.mem_cons_self
      rw [List.foldl_cons, LawfulScalar.max_max]
      exact ih fun z hz => hys z (List.mem_cons_of_mem _ hz)
  exact hrest rest fun y hy => hall y (List.mem_cons_of_mem _ hy)

namespace Scheme

variable {T : Target R σ} {view : σ → γ} {s : Scheme R} {t : σ}

section Isolated

/-- The perturbations of a direction that an entry is declared to depend on. -/
def felt (s : Scheme R) (of : String) (i : Nat) (ps : List (Perturbation R)) :
    List (Perturbation R) :=
  ps.filter fun p => s.declares of i p.name p.index

/-- The perturbations of a direction for a scheme: of variables that are perturbed for requests, by
steps that the settings `own` yield. -/
def Perturbs (s : Scheme R) (nominal : Table String (List R)) (own : Settings R)
    (ps : List (Perturbation R)) : Prop :=
  ∀ p ∈ ps, (∃ q ∈ s.requests, q.wrt = p.name) ∧
    ∃ seed, perturbation s.site nominal own seed = .ok p

/-- A value at an entry of a block that was read in a direction in which nothing was perturbed that
the row is declared to depend on, apart from the column. -/
def Isolated (T : Target R σ) (s : Scheme R) (t : σ) (nominal baseline : Table String (List R))
    (own : Settings R) (of : String) (i : Nat) (wrt : String) (j : Nat) (w : R) : Prop :=
  ∃ stencil p ps v, Scheme.stencil own = .ok stencil ∧
    perturbation s.site nominal own ⟨wrt, j, []⟩ = .ok p ∧ p ∈ ps ∧ s.Perturbs nominal own ps ∧
    s.felt of i ps = s.felt of i [p] ∧
    Reads T s.owner t baseline stencil ps of i (some v) ∧ w = v / p.step

/-- Moves that an entry feels come from perturbations that it feels. -/
theorem filter_moves (of : String) (i : Nat) (ps : List (Perturbation R)) (offset : R) :
    (Stencil.moves ps offset).filter (fun m => s.declares of i m.name m.index) =
      Stencil.moves (s.felt of i ps) offset := by
  simp only [Stencil.moves, felt, List.filter_map]
  rfl

omit [Scalar R] in
theorem filter_stepMoves (of : String) (i : Nat) (ps : List (Perturbation R)) :
    (StepEngine.moves ps).filter (fun m => s.declares of i m.name m.index) =
      StepEngine.moves (s.felt of i ps) := by
  simp only [StepEngine.moves, felt, List.filter_map]
  rfl

/-- The steps of a complex step are all the same. -/
theorem step_eq_of_complexStep {site : Site R} {nominal : Table String (List R)} {own : Settings R}
    (hown : own.method = .complexStep) {seed : Seed} {p : Perturbation R}
    (h : perturbation site nominal own seed = .ok p) :
    p.step = if site.baseStep own == 0 then own.minimumStep else site.baseStep own := by
  obtain ⟨values, -, h⟩ := Except.bind_eq_ok.1 h
  obtain ⟨step, hstep, h⟩ := Except.bind_eq_ok.1 h
  cases h
  simp only [Outcome.ofOption_eq_ok, stepRule, hown, Steps.compute, Steps.at?,
    Option.some.injEq] at hstep
  exact hstep.symm

variable {nominal baseline : Table String (List R)} {own : Settings R} {of : String} {i : Nat}
  {ps ps' : List (Perturbation R)} {stencil : Option (Stencil R)}

/-- Responses at the points of a stencil agree when an entry feels the same perturbations. -/
theorem responds_unique (hreal : T.Follows s t .real .real) (hof : ∃ q ∈ s.requests, q.of = of)
    (hps : s.Perturbs nominal own ps) (hps' : s.Perturbs nominal own ps')
    (hfelt : s.felt of i ps = s.felt of i ps') {points : List (R × R)}
    {entries entries' : List (Option R)} (h : Stencil.Responds T ps of i t points entries)
    (h' : Stencil.Responds T ps' of i t points entries') : entries = entries' := by
  have hmem (offset : R) : ∀ m ∈ Stencil.moves ps offset ++ Stencil.moves ps' offset,
      ∃ q ∈ s.requests, q.wrt = m.name := by
    intro m hm
    rcases List.mem_append.1 hm with hm | hm <;> obtain ⟨p, hp, rfl⟩ := List.mem_map.1 hm
    · exact (hps p hp).1
    · exact (hps' p hp).1
  unfold Stencil.Responds at h h'
  induction h generalizing entries' with
  | nil =>
    cases h'
    rfl
  | @cons point entry points entries hentry _ ih =>
    cases h' with
    | @cons _ entry' _ entries' hentry' hrest =>
      obtain ⟨vs, hvs, rfl⟩ := hentry
      obtain ⟨vs', hvs', rfl⟩ := hentry'
      rw [ih hrest, hreal of i hof _ _ (hmem point.1) (by rw [filter_moves, filter_moves, hfelt])
        vs vs' hvs hvs']

/-- What is read at an entry depends on the perturbations that it feels. -/
theorem reads_unique [LawfulScalar R] (hT : T.Obeys s t) (hof : ∃ q ∈ s.requests, q.of = of)
    (hps : s.Perturbs nominal own ps) (hps' : s.Perturbs nominal own ps') (hne : ps ≠ [])
    (hne' : ps' ≠ []) (hfelt : s.felt of i ps = s.felt of i ps')
    (hstencil : Scheme.stencil own = .ok stencil) {v v' : Option R}
    (h : Reads T s.owner t baseline stencil ps of i v)
    (h' : Reads T s.owner t baseline stencil ps' of i v') : v = v' := by
  cases stencil with
  | some st =>
    obtain ⟨f, entries, hf, hentries, rfl⟩ := h
    obtain ⟨f', entries', hf', hentries', rfl⟩ := h'
    obtain rfl := Option.some.inj (hf.symm.trans hf')
    rw [responds_unique hT.real hof hps hps' hfelt hentries hentries']
  | none =>
    obtain ⟨vs, hvs, rfl⟩ := h
    obtain ⟨vs', hvs', rfl⟩ := h'
    have hown : own.method = .complexStep := by
      cases hm : own.method with
      | complexStep => rfl
      | finiteDifference =>
        simp only [Scheme.stencil, hm] at hstencil
        cases ho : Stencil.ofForm (R := R) own.form own.resolvedOrder <;>
          simp [ho, Except.map] at hstencil
    -- all steps are equal, so the same step is announced in both directions
    have hsteps (qs : List (Perturbation R)) (hqs : s.Perturbs nominal own qs) (hqne : qs ≠ []) :
        Scalar.maximum (qs.map Perturbation.step) = Scalar.max 0
          (if s.site.baseStep own == 0 then own.minimumStep else s.site.baseStep own) := by
      refine Scalar.maximum_of_forall_eq (by simpa using hqne) fun x hx => ?_
      obtain ⟨p, hp, rfl⟩ := List.mem_map.1 hx
      obtain ⟨-, seed, hseed⟩ := hqs p hp
      exact step_eq_of_complexStep hown hseed
    simp only [StepEngine.announced, hsteps ps hps hne, hsteps ps' hps' hne'] at hvs hvs'
    refine hT.complex _ of i hof _ _ (fun m hm => ?_)
      (by rw [filter_stepMoves, filter_stepMoves, hfelt]) vs vs' hvs hvs'
    rcases List.mem_append.1 hm with hm | hm <;> obtain ⟨p, hp, rfl⟩ := List.mem_map.1 hm
    · exact (hps p hp).1
    · exact (hps' p hp).1

/-- **An isolated value is determined by the target and the settings.** -/
theorem Isolated.unique [LawfulScalar R] (hT : T.Obeys s t) (hof : ∃ q ∈ s.requests, q.of = of)
    {wrt : String} {j : Nat} {w w' : R}
    (h : Isolated T s t nominal baseline own of i wrt j w)
    (h' : Isolated T s t nominal baseline own of i wrt j w') : w = w' := by
  obtain ⟨stencil, p, ps, v, hstencil, hp, hmem, hps, hfelt, hreads, rfl⟩ := h
  obtain ⟨stencil', p', ps', v', hstencil', hp', hmem', hps', hfelt', hreads', rfl⟩ := h'
  obtain rfl := Except.ok.inj (hstencil.symm.trans hstencil')
  obtain rfl := Except.ok.inj (hp.symm.trans hp')
  have hv := reads_unique hT hof hps hps' (List.ne_nil_of_mem hmem) (List.ne_nil_of_mem hmem')
    (hfelt.trans hfelt'.symm) hstencil hreads hreads'
  rw [Option.some.inj hv]

end Isolated

section Stored

/-- Every request is for a whole block, has a pattern, and has the settings `own`. -/
structure Uniform (s : Scheme R) (own : Settings R) : Prop where
  settings : ∀ q ∈ s.requests, q.settings = own
  pattern : ∀ q ∈ s.requests, ∃ p, q.pattern = some p
  entries : ∀ q ∈ s.requests, q.ofEntries = none ∧ q.wrtEntries = none

/-- What a valid request for a whole block selects, and where its pattern lies. -/
theorem whole_of_validate {q : Request R} {sizes : Sizes} (h : q.validate sizes = .ok ())
    (hwhole : q.ofEntries = none ∧ q.wrtEntries = none) :
    ∃ n m, q.rows sizes = .ok (List.range n) ∧ q.cols sizes = .ok (List.range m) ∧
      ∀ p, q.pattern = some p → p.rows.length = p.cols.length ∧ (∀ r ∈ p.rows, r < n) ∧
        ∀ c ∈ p.cols, c < m := by
  obtain ⟨-, rows, cols, hrows, hcols, hfits⟩ := Request.of_validate h
  have hselect {name : String} {is : List Nat}
      (h : Request.select (R := R) name none sizes = .ok is) : ∃ n, is = List.range n := by
    cases hsize : sizes.get? name with
    | none => simp [Request.select, hsize] at h
    | some size =>
      simp only [Request.select, hsize] at h
      exact ⟨size, (Except.ok.inj h).symm⟩
  have hrows' := hrows
  have hcols' := hcols
  rw [Request.rows, hwhole.1] at hrows'
  rw [Request.cols, hwhole.2] at hcols'
  obtain ⟨n, rfl⟩ := hselect hrows'
  obtain ⟨m, rfl⟩ := hselect hcols'
  refine ⟨n, m, hrows, hcols, fun p hp => ?_⟩
  simpa [Pattern.fits, and_assoc] using hfits p hp

/-- What a scheme declares is declared by one of its requests, within the sizes. -/
theorem exists_declares {own : Settings R} (hs : s.Uniform own) {sizes : Sizes}
    (hvalid : ∀ q ∈ s.requests, q.validate sizes = .ok ()) {of wrt : String} {i j : Nat}
    (h : s.declares of i wrt j = true) : ∃ q ∈ s.requests, q.Declares sizes of i wrt j := by
  obtain ⟨q, hq, hdeclares⟩ := List.any_eq_true.1 h
  simp only [Bool.and_eq_true, beq_iff_eq] at hdeclares
  obtain ⟨⟨hof, hwrt⟩, hp⟩ := hdeclares
  obtain ⟨p, hpattern⟩ := hs.pattern q hq
  obtain ⟨n, m, hrows, hcols, hfits⟩ := whole_of_validate (hvalid q hq) (hs.entries q hq)
  obtain ⟨-, hr, hc⟩ := hfits p hpattern
  have hcontains : p.contains i j = true := by simpa [hpattern] using hp
  have hmem : (i, j) ∈ p.rows.zip p.cols := by
    simpa [Pattern.contains, Pattern.coordinates] using hcontains
  refine ⟨q, hq, hof, hwrt, _, _, i, j, hrows, hcols, ?_, ?_, fun p' hp' => ?_⟩
  · rw [List.getElem?_range (hr i (List.of_mem_zip hmem).1)]
  · rw [List.getElem?_range (hc j (List.of_mem_zip hmem).2)]
  · obtain rfl := Option.some.inj (hpattern.symm.trans hp')
    exact hcontains

omit [Scalar R] in
/-- In a direction an entry that a seed writes feels the perturbation of this seed alone. -/
theorem felt_of_apart {of : String} {i : Nat} {seeds : List Seed} {ps : List (Perturbation R)}
    {seed : Seed} {p : Perturbation R} (hlength : seeds.length = ps.length)
    (hnames : ∀ x ∈ seeds.zip ps, x.2.name = x.1.wrt ∧ x.2.index = x.1.index)
    (hapart : seeds.Pairwise fun a b =>
      (a = seed → s.declares of i b.wrt b.index = false) ∧
        (b = seed → s.declares of i a.wrt a.index = false))
    (hmem : (seed, p) ∈ seeds.zip ps) : s.felt of i ps = s.felt of i [p] := by
  obtain ⟨before, after, hzip⟩ := List.append_of_mem hmem
  have hps : ps = before.map Prod.snd ++ p :: after.map Prod.snd := by
    rw [← List.map_snd_zip (Nat.le_of_eq hlength.symm), hzip]
    simp
  rw [← List.map_fst_zip (Nat.le_of_eq hlength), List.pairwise_map, hzip, List.pairwise_append,
    List.pairwise_cons] at hapart
  obtain ⟨-, ⟨hafter, -⟩, hbefore⟩ := hapart
  have hsilent (x : Seed × Perturbation R) (hx : x ∈ before ∨ x ∈ after) :
      s.declares of i x.2.name x.2.index = false := by
    have hxzip : x ∈ seeds.zip ps := by
      rw [hzip]
      rcases hx with hx | hx <;> simp [hx]
    obtain ⟨hname, hindex⟩ := hnames x hxzip
    rw [hname, hindex]
    rcases hx with hx | hx
    · exact (hbefore x hx _ List.mem_cons_self).2 rfl
    · exact (hafter x hx).1 rfl
  have hnone (xs : List (Seed × Perturbation R)) (hxs : ∀ x ∈ xs, x ∈ before ∨ x ∈ after) :
      s.felt of i (xs.map Prod.snd) = [] := by
    refine List.filter_eq_nil_iff.2 fun o ho => ?_
    obtain ⟨x, hx, rfl⟩ := List.mem_map.1 ho
    simp [hsilent x (hxs x hx)]
  have hsplit : s.felt of i ps =
      s.felt of i (before.map Prod.snd) ++ (s.felt of i [p] ++ s.felt of i (after.map Prod.snd)) := by
    rw [hps]
    simp only [felt, ← List.filter_append, List.singleton_append]
  rw [hsplit, hnone before fun _ => .inl, hnone after fun _ => .inr]
  simp

/-- A perturbation is of the entry of its seed. -/
theorem entry_of_perturbation {site : Site R} {nominal : Table String (List R)} {own : Settings R}
    {seed : Seed} {p : Perturbation R} (h : perturbation site nominal own seed = .ok p) :
    p.name = seed.wrt ∧ p.index = seed.index := by
  obtain ⟨values, -, h⟩ := Except.bind_eq_ok.1 h
  obtain ⟨step, -, h⟩ := Except.bind_eq_ok.1 h
  cases h
  exact ⟨rfl, rfl⟩

section Direction

variable {own : Settings R} {sizes : Sizes} {plan : Plan R} {d : Direction}
  {nominal : Table String (List R)} {ps : List (Perturbation R)}

omit [Scalar R] in
/-- A member of a list of pairs pairs members of both lists. -/
theorem of_mem_zip {α β : Type} {P : α → β → Prop} {xs : List α} {ys : List β}
    (h : List.Forall₂ P xs ys) {x : α} {y : β} (hxy : (x, y) ∈ xs.zip ys) : P x y := by
  obtain ⟨k, hk⟩ := List.mem_iff_getElem?.1 hxy
  obtain ⟨hx, hy⟩ := List.getElem?_zip_eq_some.1 hk
  obtain ⟨hlt, rfl⟩ := List.getElem?_eq_some_iff.1 hx
  obtain ⟨hlt', rfl⟩ := List.getElem?_eq_some_iff.1 hy
  exact h.get hlt hlt'

/-- The perturbations of a direction are perturbations for the scheme. -/
theorem perturbs_of_direction (hbuild : Plan.build s.requests sizes = .ok plan)
    (hd : d ∈ plan.directions)
    (h : List.Forall₂ (fun y o => perturbation s.site nominal own y = .ok o) d.seeds ps) :
    s.Perturbs nominal own ps := by
  intro o ho
  obtain ⟨k, hk, rfl⟩ := List.getElem_of_mem ho
  have hk' : k < d.seeds.length := h.length_eq ▸ hk
  have hpair := h.get hk' hk
  obtain ⟨q, hq, hw⟩ := Plan.exists_request_of_seed hbuild hd (List.getElem_mem hk')
  exact ⟨⟨q, hq, hw.trans (entry_of_perturbation hpair).1.symm⟩, _, hpair⟩

/-- **An entry that a seed writes feels nothing else in its direction.** -/
theorem felt_of_writes [LawfulScalar R] {site : Site R} {σ : Settings R} (hs : s.Uniform σ)
    (hbuild : Plan.build s.requests sizes = .ok plan) (hd : d ∈ plan.directions)
    (hσ : plan.settings[d.settings]? = some σ)
    (h : List.Forall₂ (fun y o => perturbation site nominal own y = .ok o) d.seeds ps)
    {seed : Seed} {p : Perturbation R} (hmem : (seed, p) ∈ d.seeds.zip ps) {of : String} {i : Nat}
    (hwrites : seed.Writes s.requests sizes of i) : s.felt of i ps = s.felt of i [p] := by
  have hvalid := (Plan.build_eq_ok hbuild).1
  have hsilent {y z : Seed} (hyz : ∀ q ∈ s.requests, y.Apart s.requests sizes q z)
      (hy : y = seed) : s.declares of i z.wrt z.index = false := by
    subst hy
    by_contra hdeclares
    obtain ⟨q, hq, hdeclares⟩ := exists_declares hs hvalid (by simpa using hdeclares)
    exact hyz q hq _ _ hwrites hdeclares
  -- the settings of the direction equal those of every request, since valid settings equal themselves
  have hbeq (q : Request R) (hq : q ∈ s.requests) : (σ == q.settings) = true := by
    have hq' := hvalid q hq
    rw [Request.validate, hs.settings q hq] at hq'
    rw [hs.settings q hq]
    refine Settings.beq_self_of_validate ?_
    split at hq'
    · cases hq'
    · assumption
  refine felt_of_apart h.length_eq (fun y hy => entry_of_perturbation (of_mem_zip h hy)) ?_ hmem
  rw [List.pairwise_iff_getElem]
  intro k l hk hl hkl
  have hapart (q : Request R) (hq : q ∈ s.requests) :=
    List.pairwise_iff_getElem.1 (Plan.pairwise_apart hbuild hd hσ hq (hbeq q hq)) k l hk hl hkl
  exact ⟨hsilent fun q hq => (hapart q hq).1, hsilent fun q hq => (hapart q hq).2⟩

end Direction

/-- **Stored values are isolated.** -/
theorem isolated_of_stored [LawfulScalar R] {own : Settings R} (hs : s.Uniform own)
    {c : CachedPlan R} {nominal baseline : Table String (List R)} {deposits : List (Deposit R)}
    {a : Assembler R} {j : Jacobian R} (h : Stored T s t c nominal baseline deposits a j) {r : Nat}
    {q : Request R} {p : Pattern} (hq : s.requests[r]? = some q) (hp : q.pattern = some p) :
    ∃ (slot : AssemblySlot R) (values : List R), a.slots[r]? = some slot ∧
      slot.Serves c.sizes q p values ∧ ∀ k row col : Nat, p.rows[k]? = some row →
        p.cols[k]? = some col → ∃ w, values[k]? = some w ∧
          Isolated T s t nominal baseline (settingsAt T t own) q.of row q.wrt col w := by
  obtain ⟨slot, values, hslot, hserves, hexplained⟩ := h.holds.slot r q p hq hp
  refine ⟨slot, values, hslot, hserves, fun k row col hrow hcol => ?_⟩
  have hbuild := h.planned.build
  have hmem := List.mem_of_getElem? hq
  obtain ⟨n, m, hrows, hcols, hfits⟩ :=
    whole_of_validate ((Plan.build_eq_ok hbuild).1 q hmem) (hs.entries q hmem)
  obtain ⟨-, hr, hc⟩ := hfits p hp
  have hrow' : (List.range n)[row]? = some row :=
    List.getElem?_range (hr row (List.mem_of_getElem? hrow))
  have hcol' : (List.range m)[col]? = some col :=
    List.getElem?_range (hc col (List.mem_of_getElem? hcol))
  -- every column is fed, so the value at the coordinate was deposited
  obtain ⟨d₀, hd₀, seed₀, hseed₀, hfed⟩ := Plan.exists_seed_of_column hbuild hq hcols hcol'
  obtain ⟨e, he, hecolumn, i, w, hi, hvalue, hw⟩ :
      ∃ e ∈ deposits, e.column = ⟨r, col⟩ ∧ ∃ i w, slot.rows[row]? = some i ∧
        e.value? q.of i = some w ∧ values[k]? = some w := by
    rcases hexplained k row col hrow hcol with hnone | hsome
    · obtain ⟨e, he, hecolumn⟩ := h.covered d₀ hd₀ seed₀ hseed₀ _ hfed
      exact absurd hecolumn (hnone e he)
    · exact hsome
  obtain rfl : row = i := by
    have hslotrows := Except.ok.inj (hrows.symm.trans hserves.rows_eq)
    rw [← hslotrows, hrow'] at hi
    exact Option.some.inj hi
  obtain ⟨d, hd, σ, stencil, ps, hσ, hstencil, hps, ⟨seed, x, hzip, hcolumn, hstep⟩, hnumerators⟩ :=
    (h.measured e he).measured
  obtain rfl : σ = own := by
    obtain ⟨q', hq', rfl⟩ := Plan.exists_request_of_settings hbuild (List.mem_of_getElem? hσ)
    exact hs.settings q' hq'
  have hall := Except.mapM_eq_ok.1 hps
  rw [hecolumn] at hcolumn hnumerators
  obtain ⟨hwrt, cols, hcols', hindex⟩ :=
    Plan.cols_of_mem_columns hbuild hd (List.of_mem_zip hzip).1 hcolumn hq
  obtain rfl := Except.ok.inj (hcols.symm.trans hcols')
  obtain hindex : col = seed.index := Option.some.inj (hcol'.symm.trans hindex)
  obtain ⟨vs, hvs, hreads⟩ := hnumerators q hq
  simp only [Deposit.value?, hvs, Option.bind_eq_bind, Option.bind_some,
    Option.bind_eq_some_iff] at hvalue
  obtain ⟨v, hv, hvalue⟩ := hvalue
  have hwrites : seed.Writes s.requests c.sizes q.of row := by
    refine ⟨_, hcolumn, q, _, row, hq, rfl, hrows, hrow', fun p' hp' => ?_⟩
    obtain rfl := Option.some.inj (hp.symm.trans hp')
    have hzip : (p.rows.zip p.cols)[k]? = some (row, col) :=
      List.getElem?_zip_eq_some.2 ⟨hrow, hcol⟩
    simpa [Pattern.contains, Pattern.coordinates] using List.mem_of_getElem? hzip
  refine ⟨w, hw, stencil, x, ps, v, hstencil, ?_, (List.of_mem_zip hzip).2,
    perturbs_of_direction hbuild hd hall, felt_of_writes hs hbuild hd hσ hall hzip hwrites,
    hv ▸ hreads row, ?_⟩
  · rw [hwrt, hindex]
    exact (of_mem_zip hall hzip :)
  · rw [hstep] at hvalue
    exact (Option.some.inj hvalue).symm

end Stored

section Undirected

/-- The same request, whose columns may not merge. -/
def undirect (q : Request R) : Request R :=
  { q with settings := { q.settings with directional := false } }

/-- A scheme with the same requests, whose columns may not merge. -/
structure Undirected (s s' : Scheme R) : Prop where
  owner_eq : s'.owner = s.owner
  site_eq : s'.site = s.site
  requests_eq : s'.requests = s.requests.map undirect

variable {s' : Scheme R} (hu : Undirected s s')

include hu

omit [Scalar R] in
theorem Undirected.declares_eq (of : String) (i : Nat) (wrt : String) (j : Nat) :
    s'.declares of i wrt j = s.declares of i wrt j := by
  simp only [declares, hu.requests_eq, List.any_map]
  rfl

omit [Scalar R] in
/-- Whether columns may merge makes no difference to the sizes that are read. -/
theorem Undirected.sizes_eq (t : σ) : s'.sizes T t = s.sizes T t := by
  have hnames : s'.variableNames = s.variableNames := by
    simp only [variableNames, hu.requests_eq, List.flatMap_map]
    rfl
  simp only [sizes, hnames]

omit [Scalar R] in
/-- Nor to the values. -/
theorem Undirected.readValues_eq (t : σ) :
    readValues T s'.requests t = readValues T s.requests t := by
  simp only [readValues, hu.requests_eq, List.foldlM_map]
  rfl

omit [Scalar R] in
theorem Undirected.uniform {own : Settings R} (hs : s.Uniform own) :
    s'.Uniform { own with directional := false } := by
  have hmem (q' : Request R) (hq' : q' ∈ s'.requests) : ∃ q ∈ s.requests, undirect q = q' := by
    rw [hu.requests_eq] at hq'
    exact List.mem_map.1 hq'
  refine ⟨fun q' hq' => ?_, fun q' hq' => ?_, fun q' hq' => ?_⟩ <;>
    obtain ⟨q, hq, rfl⟩ := hmem q' hq'
  · simp only [undirect, hs.settings q hq]
  · exact hs.pattern q hq
  · exact hs.entries q hq

omit hu in
/-- The settings that are used are chosen alike. -/
theorem settingsAt_undirected (own : Settings R) :
    settingsAt T t { own with directional := false } =
      { settingsAt T t own with directional := false } := by
  by_cases hmethod : own.method = .finiteDifference
  · simp only [settingsAt, hmethod, if_true]
  · simp only [settingsAt, hmethod, if_false]
    split <;> rfl

/-- What is isolated without merging is isolated. -/
theorem Undirected.isolated {own : Settings R} {nominal baseline : Table String (List R)}
    {of wrt : String} {i j : Nat} {w : R}
    (h : Isolated T s' t nominal baseline { own with directional := false } of i wrt j w) :
    Isolated T s t nominal baseline own of i wrt j w := by
  obtain ⟨stencil, p, ps, v, hstencil, hp, hmem, hps, hfelt, hreads, hw⟩ := h
  rw [hu.site_eq] at hp
  rw [hu.owner_eq] at hreads
  have hfelt_eq (qs : List (Perturbation R)) : s'.felt of i qs = s.felt of i qs := by
    simp only [felt, hu.declares_eq]
  rw [hfelt_eq, hfelt_eq] at hfelt
  refine ⟨stencil, p, ps, v, hstencil, hp, hmem, fun o ho => ?_, hfelt, hreads, hw⟩
  obtain ⟨⟨q', hq', hwrt⟩, seed, hseed⟩ := hps o ho
  rw [hu.requests_eq] at hq'
  rw [hu.site_eq] at hseed
  obtain ⟨q, hq, rfl⟩ := List.mem_map.1 hq'
  exact ⟨⟨q, hq, hwrt⟩, seed, hseed⟩

/-- A request has the same block in both schemes. -/
theorem Undirected.block_eq [LawfulScalar R] {own : Settings R} (hs : s.Uniform own)
    (hobeys : T.Obeys s t) {c c' : CachedPlan R} {nominal baseline : Table String (List R)}
    {deposits deposits' : List (Deposit R)} {a a' : Assembler R} {j j' : Jacobian R}
    (h : Stored T s t c nominal baseline deposits a j)
    (h' : Stored T s' t c' nominal baseline deposits' a' j')
    (hsizes : ∀ n, c'.sizes.get? n = c.sizes.get? n) {r : Nat} {q : Request R}
    (hq : s.requests[r]? = some q) :
    a'.slots[r]?.map (fun x => ((x.of, x.wrt), x.block)) =
      a.slots[r]?.map (fun x => ((x.of, x.wrt), x.block)) := by
  have hmem := List.mem_of_getElem? hq
  have hq' : s'.requests[r]? = some (undirect q) := by
    rw [hu.requests_eq, List.getElem?_map, hq]
    rfl
  obtain ⟨p, hp⟩ := hs.pattern q hmem
  obtain ⟨slot, values, hslot, hserves, hall⟩ := isolated_of_stored hs h hq hp
  obtain ⟨slot', values', hslot', hserves', hall'⟩ := isolated_of_stored (hu.uniform hs) h' hq' hp
  have hvalues : values' = values := by
    refine List.ext_getElem? fun k => ?_
    obtain ⟨_, _, -, -, hfits⟩ :=
      whole_of_validate ((Plan.build_eq_ok h.planned.build).1 q hmem) (hs.entries q hmem)
    obtain ⟨hlength, -⟩ := hfits p hp
    by_cases hk : k < p.rows.length
    · have hrow := List.getElem?_eq_getElem hk
      have hcol := List.getElem?_eq_getElem (hlength ▸ hk : k < p.cols.length)
      obtain ⟨v, hv, hisolated⟩ := hall k _ _ hrow hcol
      obtain ⟨v', hv', hisolated'⟩ := hall' k _ _ hrow hcol
      rw [settingsAt_undirected] at hisolated'
      rw [hv, hv', (hu.isolated hisolated').unique hobeys ⟨q, hmem, rfl⟩ hisolated]
    · rw [List.getElem?_eq_none (by rw [hserves'.length_eq, Pattern.count]; omega),
        List.getElem?_eq_none (by rw [hserves.length_eq, Pattern.count]; omega)]
  obtain ⟨rows, cols, hshape, hblock⟩ := hserves.block
  obtain ⟨rows', cols', hshape', hblock'⟩ := hserves'.block
  have hshape' : q.shape c'.sizes = .ok (rows', cols') := hshape'
  rw [q.shape_congr hsizes, hshape] at hshape'
  obtain ⟨rfl, rfl⟩ := Prod.mk.inj (Except.ok.inj hshape')
  rw [hslot, hslot', Option.map_some, Option.map_some, hserves.of_eq, hserves'.of_eq,
    hserves.wrt_eq, hserves'.wrt_eq, hblock, hblock', hvalues]
  rfl

/-- **Merging columns is exact**: on a target that returns, that has no graph and that obeys the
declarations of the requests, a scheme stores the same blocks as one whose columns may not
merge. -/
theorem computeJacobian_undirected [LawfulScalar R] (hT : T.Exact view)
    (hgraph : ∀ u, T.graph u = none) {own : Settings R} (hs : s.Uniform own) (hobeys : T.Obeys s t)
    (hcurrent : s.Current T) (hcurrent' : s'.Current T) {d d' : Diagnostics} {j j' : Jacobian R}
    {w w' : Session R σ} (h : (computeJacobian T).perform ⟨s, d, t⟩ = (.ok j, w))
    (h' : (computeJacobian T).perform ⟨s', d', t⟩ = (.ok j', w')) : j = j' := by
  obtain ⟨c, nominal, baseline, deposits, a, hstored⟩ :=
    stored_of_computeJacobian hT hgraph hcurrent h
  obtain ⟨c', nominal', baseline', deposits', a', hstored'⟩ :=
    stored_of_computeJacobian hT hgraph hcurrent' h'
  dsimp only at hstored hstored'
  have hvalues := hstored'.values
  rw [hu.readValues_eq, hstored.values] at hvalues
  obtain ⟨rfl, rfl⟩ := Prod.mk.inj (Except.ok.inj hvalues)
  have hsizes : ∀ n, c'.sizes.get? n = c.sizes.get? n := by
    obtain ⟨sizes, hsizes, hget⟩ := hstored.planned.sizes
    obtain ⟨sizes', hsizes', hget'⟩ := hstored'.planned.sizes
    rw [hu.sizes_eq, hsizes] at hsizes'
    obtain rfl := Except.ok.inj hsizes'
    exact fun n => (hget' n).trans (hget n).symm
  have hslots : a'.slots.map (fun x => ((x.of, x.wrt), x.block)) =
      a.slots.map (fun x => ((x.of, x.wrt), x.block)) := by
    refine List.ext_getElem? fun r => ?_
    rw [List.getElem?_map, List.getElem?_map]
    cases hq : s.requests[r]? with
    | some q => exact hu.block_eq hs hobeys hstored hstored' hsizes hq
    | none =>
      have hr : a.slots.length ≤ r := by
        rw [hstored.holds.length_eq]
        exact List.getElem?_eq_none_iff.1 hq
      have hr' : a'.slots.length ≤ r := by
        rw [hstored'.holds.length_eq, hu.requests_eq, List.length_map]
        exact List.getElem?_eq_none_iff.1 hq
      rw [List.getElem?_eq_none hr, List.getElem?_eq_none hr']
  rw [hstored.jacobian_eq, hstored'.jacobian_eq, hslots]

end Undirected

section Squares

/-- A target whose state is `x`: every entry of `y` is the square of the same entry of `x`. -/
def squares : Target Float (List Float) where
  size x _ := .ok x.length
  values x name part :=
    match part with
    | .real => .ok (if name = "y" then x.map fun v => v * v else x)
    | .imag => Outcome.fail (.unknownVariable name)
  perturb _ index delta := modify fun x =>
    match delta with
    | .real h => x.modify index (· + h)
    | .imag _ => x
  evaluate _ _ := pure ()
  restore saved _ := saved
  complexCapable _ := false
  complexStepActive _ := false
  enter _ _ x := x
  leave x := x
  graph _ := none

theorem squares_exact : squares.Exact id where
  restore _ := rfl
  leave _ _ _ := rfl
  size h _ := by cases h; rfl
  values h _ _ := by cases h; rfl
  perturb _ _ _ _ _ h := by cases h; exact ⟨rfl, rfl⟩
  evaluate _ _ _ _ h := by cases h; exact ⟨rfl, rfl⟩
  enter h _ _ := h
  complexCapable _ := rfl
  complexStepActive _ := rfl

/-- What moves make of the entry that they move. -/
def moved (moves : List (Move Float)) (v : Float) : Float :=
  moves.foldl (fun v m => match m.delta with
    | .real h => v + h
    | .imag _ => v) v

/-- The entry `i` of `x` after moves depends on the moves of this entry. -/
theorem getElem?_of_moves (moves : List (Move Float)) (x : List Float) (i : Nat) :
    ∃ z, (Action.forEach moves fun m => squares.perturb m.name m.index m.delta).perform x =
        (.ok (), z) ∧ z[i]? = x[i]?.map (moved (moves.filter fun m => m.index = i)) := by
  induction moves generalizing x with
  | nil => exact ⟨x, rfl, by cases x[i]? <;> rfl⟩
  | cons m rest ih =>
    obtain ⟨z, hz, hi⟩ := ih ((squares.perturb m.name m.index m.delta).perform x).2
    refine ⟨z, hz, hi.trans ?_⟩
    obtain ⟨name, index, delta⟩ := m
    by_cases hm : index = i
    · subst hm
      cases delta <;> simp [squares] <;> rfl
    · cases delta <;> simp [squares, hm]

/-- A request for the diagonal of `y` by `x`, both with two entries. -/
def squareRequests : List (Request Float) :=
  [{ Request.whole "y" "x" Plan.merging with pattern := some ⟨[0, 1], [0, 1]⟩ }]

/-- The scheme of the request, whose columns merge. -/
def merged : Scheme Float := { empty "model" .group .warn with requests := squareRequests }

/-- The same scheme, whose columns do not merge. -/
def unmerged : Scheme Float := { merged with requests := squareRequests.map undirect }

theorem merged_uniform : merged.Uniform Plan.merging where
  settings q hq := by cases List.mem_singleton.1 hq; rfl
  pattern q hq := by cases List.mem_singleton.1 hq; exact ⟨_, rfl⟩
  entries q hq := by cases List.mem_singleton.1 hq; exact ⟨rfl, rfl⟩

theorem declares_merged (i j : Nat) :
    merged.declares "y" i "x" j = (decide (i < 2) && decide (j = i)) := by
  have hpattern : (⟨[0, 1], [0, 1]⟩ : Pattern).contains i j = (decide (i < 2) && decide (j = i)) := by
    rw [Bool.eq_iff_iff]
    simp [Pattern.contains, Pattern.coordinates]
    omega
  simp [declares, merged, squareRequests, Request.whole, hpattern]

/-- With two entries the squares obey the diagonal. -/
theorem squares_obeys (a b : Float) : squares.Obeys merged [a, b] where
  real of i hof moves moves' hnames hfelt vs vs' hvs hvs' := by
    obtain ⟨q, hq, rfl⟩ := hof
    cases List.mem_singleton.1 hq
    have hvalue (ms : List (Move Float)) (ws : List Float)
        (hms : ∀ m ∈ ms, ∃ q ∈ merged.requests, q.wrt = m.name)
        (h : squares.response ms .real "y" .real [a, b] = .ok ws) :
        ws[i]? = [a, b][i]?.map fun v =>
          moved (ms.filter fun m => merged.declares "y" i m.name m.index) v *
            moved (ms.filter fun m => merged.declares "y" i m.name m.index) v := by
      obtain ⟨z, hz, hi⟩ := getElem?_of_moves ms [a, b] i
      have hws : z.map (fun v => v * v) = ws := by
        simp only [Target.response, Target.shift, Action.perform_bind, hz] at h
        exact Except.ok.inj h
      rw [← hws, List.getElem?_map, hi]
      by_cases hlt : i < 2
      · have hfilter : (ms.filter fun m => merged.declares "y" i m.name m.index) =
            ms.filter fun m => m.index = i := by
          refine List.filter_congr fun m hm => ?_
          obtain ⟨q, hq, hwrt⟩ := hms m hm
          cases List.mem_singleton.1 hq
          rw [← hwrt]
          exact (declares_merged i m.index).trans (by simp [hlt])
        rw [hfilter, Option.map_map]
        rfl
      · have hlength : [a, b].length ≤ i := Nat.le_of_not_lt hlt
        rw [List.getElem?_eq_none hlength]
        rfl
    have hfelt : (moves.filter fun m => merged.declares "y" i m.name m.index) =
        moves'.filter fun m => merged.declares "y" i m.name m.index := hfelt
    rw [hvalue moves vs (fun m hm => hnames m (List.mem_append_left _ hm)) hvs,
      hvalue moves' vs' (fun m hm => hnames m (List.mem_append_right _ hm)) hvs', hfelt]
  complex h of i _ moves moves' _ _ vs vs' hvs _ := by
    -- the squares have no imaginary part to read
    obtain ⟨⟨⟩, -, hread⟩ := Except.bind_eq_ok.1 hvs
    cases hread

/-- The two columns of the diagonal share a direction, and the blocks agree. -/
theorem computeJacobian_squares :
    (∃ plan, Plan.build merged.requests (.ofList [("y", 2), ("x", 2)]) = .ok plan ∧
      plan.directions.length = 1) ∧
    ∃ j j' w w', (computeJacobian squares).perform ⟨merged, default, [3.0, 5.0]⟩ = (.ok j, w) ∧
      (computeJacobian squares).perform ⟨unmerged, default, [3.0, 5.0]⟩ = (.ok j', w') ∧ j = j' := by
  have hplan : (Plan.build merged.requests (.ofList [("y", 2), ("x", 2)])).toOption.map
      (fun plan => plan.directions.length) = some 1 := by decide +kernel
  have hrun : ((computeJacobian squares).perform ⟨merged, default, [3.0, 5.0]⟩).1.toOption.isSome =
      true := by decide +kernel
  have hrun' : ((computeJacobian squares).perform
      ⟨unmerged, default, [3.0, 5.0]⟩).1.toOption.isSome = true := by decide +kernel
  refine ⟨?_, ?_⟩
  · obtain ⟨plan, hplan, hlength⟩ := Option.map_eq_some_iff.1 hplan
    exact ⟨plan, Except.eq_ok_of_toOption hplan, hlength⟩
  · obtain ⟨j, hj⟩ := Option.isSome_iff_exists.1 hrun
    obtain ⟨j', hj'⟩ := Option.isSome_iff_exists.1 hrun'
    have h := Action.perform_eq_ok (Except.eq_ok_of_toOption hj)
    have h' := Action.perform_eq_ok (Except.eq_ok_of_toOption hj')
    have hu : Undirected merged unmerged := ⟨rfl, rfl, rfl⟩
    have hcurrent : merged.Current squares := fun _ hc => nomatch hc
    have hcurrent' : unmerged.Current squares := fun _ hc => nomatch hc
    exact ⟨j, j', _, _, h, h', computeJacobian_undirected hu squares_exact (fun _ => rfl)
      merged_uniform (squares_obeys 3.0 5.0) hcurrent hcurrent' h h'⟩

end Squares

end Scheme

end Sensitivity
