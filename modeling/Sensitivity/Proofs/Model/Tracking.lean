import Mathlib
import Sensitivity.Proofs.Approximation.Slopes
import Sensitivity.Proofs.Model.Influence
import Sensitivity.Proofs.Model.TotalBlocks

/-!
# Derivatives across groups

The derivative of a variable by another one across a group is a tangent of the affine system of the
components in the group (`Model.derivative`). At a settled state a group whose members run once
tracks it (`Model.Affine.tracks_group`): a perturbed run of the components that lie between the two
variables moves the response by the derivative times the perturbation.
-/

namespace Sensitivity

variable {R M : Type}

/-- The change of one entry of a variable, among the entries of a kind. -/
def ModelVariable.seed [Zero R] [One R] (w : ModelVariable R) (j : Nat) (kind : VariableKind)
    (p : Nat) : R :=
  if w.kind = kind ∧ p = w.start + j then 1 else 0

variable [ExactScalar R]

namespace Model

variable {m : Model R M} {laws : Nat → AffineLaw R} {s s' t : ModelState R M} {mode : Mode}
  {v w : ModelVariable R} {of wrt : String} {j : Nat} {δ : R}

/-- The derivative of an entry of a variable by an entry of another one, across a scope. -/
def derivative (m : Model R M) (laws : Nat → AffineLaw R) (scope : Span) (v w : ModelVariable R)
    (i j : Nat) : R :=
  match v.kind with
  | .output => (m.flowIn laws scope).tangent (w.seed j .input) (w.seed j .output) (v.start + i)
  | .input => w.seed j .input (v.start + i)

/-- The derivative of an entry of a variable by an entry of another one, both by name. -/
def derivativeOf (m : Model R M) (laws : Nat → AffineLaw R) (scope : Span) (of wrt : String)
    (i j : Nat) : R :=
  match m.variableTable.get? of, m.variableTable.get? wrt with
  | some v, some w => m.derivative laws scope v w i j
  | _, _ => 0

theorem derivativeOf_eq {scope : Span} (hv : m.variableTable.get? of = some v)
    (hw : m.variableTable.get? wrt = some w) (i j : Nat) :
    m.derivativeOf laws scope of wrt i j = m.derivative laws scope v w i j := by
  simp only [derivativeOf, hv, hw]

section Target

/-- **Adding to an entry of a variable** changes nothing else. -/
theorem entry_of_perturb (hs : m.Sized mode s) {label : String}
    (hw : m.variableTable.get? wrt = some w)
    (h : (m.perturb label wrt j (mode.delta δ)).perform s = (.ok (), s')) :
    m.Sized mode s' ∧ ∀ kind p, (s'.vector kind).entry mode p =
      (s.vector kind).entry mode p + δ * w.seed j kind p := by
  unfold perturb at h
  rw [Action.perform_get_bind, Action.ofOutcome_bind_eq_ok] at h
  obtain ⟨found, hfound, h⟩ := h
  rw [Action.ofOutcome_bind_eq_ok] at h
  obtain ⟨x, hx, h⟩ := h
  cases h
  rw [locate, Outcome.expect_eq_ok] at hfound
  obtain rfl := Option.some.inj (hw.symm.trans hfound)
  obtain ⟨hsize, hi, hlane⟩ := StateVector.lane_of_perturb mode hx
  refine ⟨⟨fun kind => ?_, fun kind => ?_⟩, fun kind p => ?_⟩ <;> rw [vector_setVector] <;> split
  · rename_i hkind
    rw [hkind, hsize]
    exact hs.fits _
  · exact hs.fits kind
  · rename_i hkind
    rw [hkind, hlane, Array.size_modify]
    exact hs.lane _
  · exact hs.lane kind
  · rename_i hkind
    subst hkind
    rw [StateVector.entry_of_perturb hx, ModelVariable.seed]
    simp only [true_and, mul_ite, mul_one, mul_zero]
  · rename_i hkind
    rw [ModelVariable.seed, if_neg fun h => hkind h.1.symm, mul_zero, add_zero]

/-- The values that a target reads. -/
theorem Laid.getElem?_values [DirectSolver R] (hm : m.Laid) (hs : m.Sized mode s) (g : ModelGroup R)
    (body : Schedule R) (hv : m.variableTable.get? of = some v) {vs : List R}
    (h : (m.groupTarget g body).values s of mode.part = .ok vs) (i : Nat) :
    vs[i]? = if i < v.size then some ((s.vector v.kind).entry mode (v.start + i)) else none := by
  simp only [groupTarget, locate, hv] at h
  cases h
  obtain ⟨id, -, hid⟩ := Table.get?_eq_some_iff_indexOf?.1 hv
  refine StateVector.getElem?_readPart ?_ i
  rw [hs.lane]
  exact hm.stop_le hid

end Target

/-- A perturbed run of some components in a scope, away from a settled state. What reaches certain
variables matters. -/
def probe (m : Model R M) (s : ModelState R M) (scope : Span) (mode : Mode) (active : ActiveSet)
    (w : ModelVariable R) (j : Nat) (δ : R) (targets : Nat → Prop) : Excursion R where
  scope := scope
  mode := mode
  active := active
  inputs := s.inputs.entry mode
  outputs := s.outputs.entry mode
  inputMove p := δ * w.seed j .input p
  outputMove r := δ * w.seed j .output r
  Matters := m.EntryOf .output (m.Reaching targets)

section Probe

variable {scope : Span} {active : ActiveSet} {id : Nat} {targets : Nat → Prop}

/-- A seed is an entry of its variable. -/
theorem Laid.entryOf_of_seed (hm : m.Laid) (hw : m.variableAt? id = some w) (hj : j < w.size)
    {kind : VariableKind} {p : Nat} (h : δ * w.seed j kind p ≠ 0) :
    w.kind = kind ∧ m.holder? kind p = some id ∧ m.ownerOf? kind p = some w.owner := by
  have hseed := right_ne_zero_of_mul h
  unfold ModelVariable.seed at hseed
  split at hseed
  · rename_i hp
    obtain ⟨rfl, rfl⟩ := hp
    have hcontains : w.span.contains (w.start + j) = true :=
      Span.contains_iff.2 ⟨Nat.le_add_right _ _, Nat.add_lt_add_left hj _⟩
    exact ⟨rfl, hm.holder?_eq hw hcontains, hm.ownerOf?_eq hw hcontains⟩
  · exact absurd rfl hseed

theorem Affine.probe_sound (hm : m.Affine laws) (hbalanced : m.Balanced laws mode s)
    (hcapable : mode = .complex → m.complex = true ∧ ∀ (k : Nat) c, m.components[k]? = some c →
      scope.contains k = true → c.component.complexSafe = true)
    (hw : m.variableAt? id = some w) (hj : j < w.size)
    (hactive : ∀ (k : Nat) n, m.graph.components[k]? = some n → (active.contains k = true ↔
      ∃ e ∈ n.edges, m.Reached (· = id) e.1 ∧ m.Reaching targets e.2)) :
    (m.probe s scope mode active w j δ targets).Sound m laws where
  connected p q hwire := hbalanced.connected p q (Option.filter_eq_some_iff.1 hwire).1
  computed k c hc _ hobeys := hbalanced.computed k c hc hobeys
  closed r p q hr hslope hwire := by
    obtain ⟨k, n, input, output, hn, -, hinput, houtput, he⟩ := hm.mem_edges_of_slope hslope
    obtain ⟨source, input', hsource, hinput', he'⟩ :=
      hm.laid.mem_edges_of_wire (Option.filter_eq_some_iff.1 hwire).1
    obtain ⟨output', houtput', hreaching⟩ := hr
    obtain rfl := Option.some.inj (houtput'.symm.trans houtput)
    obtain rfl := Option.some.inj (hinput'.symm.trans hinput)
    have hedge := hm.laid.complete.mem_edges_of_component hn he
    exact ⟨source, hsource, reaching_of_edge he' (reaching_of_edge hedge hreaching)⟩
  kept r k _ hk _ hwaits := by
    by_contra hmoved
    obtain ⟨hkind, -, howner⟩ := hm.laid.entryOf_of_seed hw hj hmoved
    obtain rfl := Option.some.inj (hk.symm.trans howner)
    obtain ⟨c, hc, -⟩ := hm.laid.exists_component hk
    obtain ⟨n, d, hn, hnode⟩ := hm.laid.exists_node hc
    have hrun : active.contains w.owner = true := by
      by_contra hpassive
      have hpassive : active.contains w.owner = false := by simpa using hpassive
      exact hwaits (.inl hpassive)
    obtain ⟨e, he, ⟨_, rfl, hpath⟩, -⟩ := (hactive _ n hn).1 hrun
    obtain ⟨i, hi, hikind, hiowner⟩ := hnode.inputs.of_mem (hnode.mem_of_mem_edges he).1
    -- no path leads from an output back to an input of its component
    have hle := hm.laid.rank_le_of_path hm.forward hpath
    have hi : m.variableAt? e.1 = some i := hi
    simp only [rank, hw, hkind, hi, hikind, hiowner] at hle
    omega
  passed r k hr hk _ hpassive := by
    have htangent := hm.tangent_eq (fun p => δ * w.seed j .input p)
      (fun r => δ * w.seed j .output r) scope r
    refine htangent.trans ((congrArg (_ + ·) (Finset.sum_eq_zero fun p _ => ?_)).trans (add_zero _))
    by_contra hne
    obtain ⟨k', n, input, output, hn, hk', hinput, houtput, he⟩ :=
      hm.mem_edges_of_slope (left_ne_zero_of_mul hne)
    obtain rfl := Option.some.inj (hk.symm.trans hk')
    have hmoved (kind : VariableKind) (p : Nat) (h : δ * w.seed j kind p ≠ 0) :
        m.EntryOf kind (m.Reached (· = id)) p :=
      ⟨id, (hm.laid.entryOf_of_seed hw hj h).2.1, id, rfl, .refl⟩
    obtain ⟨input', hinput', hreached⟩ := hm.reached_of_feed (hmoved .input)
      (fun r => hm.reached_of_tangent (hmoved .input) (hmoved .output)) (right_ne_zero_of_mul hne)
    obtain ⟨output', houtput', hreaching⟩ := hr
    obtain rfl := Option.some.inj (houtput'.symm.trans houtput)
    obtain rfl := Option.some.inj (hinput'.symm.trans hinput)
    have := (hactive k n hn).2 ⟨(input', output'), he, hreached, hreaching⟩
    rw [show active.contains k = false from hpassive] at this
    cases this
  capable := hcapable

end Probe

section Response

variable [DirectSolver R] {g : ModelGroup R} {body : Schedule R} {members : Members R M}
  {active : ActiveSet} {id : Nat} {targets : Nat → Prop}

/-- **The response to a perturbation** is the derivative times what was added. -/
theorem Affine.getElem?_response (hm : m.Affine laws) (hg : g.solver = .runOnce)
    (honce : ∀ x ∈ body.groups, x.1.solver = .runOnce)
    (hfollows : Schedule.Follows m.components g.path members body g.components.start
      g.components.stop) (hs : m.Sized mode s) (hbalanced : m.Balanced laws mode s)
    (hcapable : mode = .complex → m.complex = true ∧ ∀ (k : Nat) c, m.components[k]? = some c →
      g.components.contains k = true → c.component.complexSafe = true)
    (hv : m.variableTable.get? of = some v)
    (houtput : v.kind = .output → g.components.contains v.owner = true)
    (hinput : v.kind = .input → ∀ i < v.size, (m.flowIn laws g.components).wire (v.start + i) = none)
    (hmatters : ∀ id, m.variableTable.indexOf? of = some id → m.Reaching targets id)
    (hw : m.variableTable.get? wrt = some w) (hid : m.variableAt? id = some w) (hj : j < w.size)
    (hactive : ∀ (k : Nat) n, m.graph.components[k]? = some n → (active.contains k = true ↔
      ∃ e ∈ n.edges, m.Reached (· = id) e.1 ∧ m.Reaching targets e.2)) {vs : List R}
    (h : ((m.groupTarget g body).focus active).response [⟨wrt, j, mode.delta δ⟩] mode of mode.part s =
      .ok vs) (i : Nat) : vs[i]? = if i < v.size then
        some ((s.vector v.kind).entry mode (v.start + i) +
          δ * m.derivative laws g.components v w i j) else none := by
  unfold Target.response at h
  obtain ⟨_, hshift, hvalues⟩ := Except.bind_eq_ok.1 h
  obtain ⟨_, s₁, hmove, hrun⟩ := Action.bind_eq_ok.1 (Action.perform_eq_ok hshift)
  obtain ⟨_, s₂, hperturb, hdone⟩ := Action.bind_eq_ok.1 hmove
  cases hdone
  obtain ⟨hsized, hentry⟩ := entry_of_perturb hs hw hperturb
  have he : (m.probe s g.components mode active w j δ targets).Sound m laws :=
    hm.probe_sound hbalanced hcapable hid hj hactive
  have hstart : m.Underway laws (m.probe s g.components mode active w j δ targets)
      g.components.start s₁ :=
    ⟨hsized, fun p _ => hentry .input p, fun _ _ _ _ hle hlt => absurd hlt (Nat.not_lt.2 hle),
      fun r _ _ _ _ _ => hentry .output r,
      fun _ _ _ _ _ _ hle hlt => absurd hlt (Nat.not_lt.2 hle)⟩
  have hend := hstart.of_runSchedule hm he hfollows honce (Nat.le_refl _) (Nat.le_refl _)
    (perform_evaluate_group hg hrun)
  rw [hm.laid.getElem?_values hend.sized g body hv hvalues]
  split
  swap
  · rfl
  rename_i hi
  obtain ⟨id', hindex, hid'⟩ := Table.get?_eq_some_iff_indexOf?.1 hv
  have hcontains : v.span.contains (v.start + i) = true :=
    Span.contains_iff.2 ⟨Nat.le_add_right _ _, Nat.add_lt_add_left hi _⟩
  rw [derivative]
  cases hkind : v.kind with
  | input => exact congrArg some (hend.free _ (hinput hkind i hi))
  | output =>
    have hholder := hm.laid.holder?_eq hid' hcontains
    have howner := hm.laid.ownerOf?_eq hid' hcontains
    rw [hkind] at hholder howner
    obtain ⟨hfirst, hlast⟩ := Span.contains_iff.1 (houtput hkind)
    have hmoved := hend.output _ _ ⟨id', hholder, hmatters id' hindex⟩ howner hfirst hlast
    refine congrArg some (hmoved.trans (congrArg (_ + ·) ?_))
    exact Flow.tangent_mul (hm.ordered.within _) δ _

/-- **A settled group tracks its variables.** -/
theorem Affine.tracks_group (hm : m.Affine laws) (hg : g.solver = .runOnce)
    (honce : ∀ x ∈ body.groups, x.1.solver = .runOnce)
    (hfollows : Schedule.Follows m.components g.path members body g.components.start
      g.components.stop) (hs : m.Resting s) (hbalanced : m.Balanced laws .real s)
    (hv : m.variableTable.get? of = some v)
    (houtput : v.kind = .output → g.components.contains v.owner = true)
    (hinput : v.kind = .input → ∀ i < v.size, (m.flowIn laws g.components).wire (v.start + i) = none)
    (hw : m.variableTable.get? wrt = some w) (hj : j < w.size) {requested : List String}
    (hknown : ∀ name ∈ requested, ∃ v, m.variableTable.get? name = some v)
    (hof : of ∈ requested) (hactive : m.graph.activeComponents? [wrt] requested = some active) :
    (m.groupTarget g body).Tracks s active of wrt j fun i =>
      m.derivative laws g.components v w i j := by
  have hlaid := hm.laid
  obtain ⟨id, hindex, hid⟩ := Table.get?_eq_some_iff_indexOf?.1 hw
  have hseeds : [wrt].mapM m.graph.node? = some [id] := by
    simp [hlaid.node?_eq, hindex]
  obtain ⟨targets, htargets⟩ : ∃ targets, requested.mapM m.graph.node? = some targets :=
    Option.exists_mapM fun name hname => by
      obtain ⟨v, hv⟩ := hknown name hname
      obtain ⟨id, hindex, -⟩ := Table.get?_eq_some_iff_indexOf?.1 hv
      exact ⟨id, (hlaid.node?_eq name).trans hindex⟩
  obtain ⟨found, hfound, hspec⟩ :=
    DependencyGraph.activeComponents?_spec hlaid.complete hseeds htargets
  rw [hactive] at hfound
  obtain rfl := Option.some.inj hfound
  have hruns (k : Nat) (n : ComponentNode) (hn : m.graph.components[k]? = some n) :
      (ActiveSet.only found).contains k = true ↔
        ∃ e ∈ n.edges, m.Reached (· = id) e.1 ∧ m.Reaching (· ∈ targets) e.2 := by
    refine List.contains_iff_mem.trans ((hspec k).trans ?_)
    simp only [hn, Option.some.injEq, exists_eq_left', List.mem_singleton, exists_eq_left, Reached,
      Reaching]
  have hmatters (id' : Nat) (hid' : m.variableTable.indexOf? of = some id') :
      m.Reaching (· ∈ targets) id' :=
    ⟨id', (Option.mem_mapM htargets).2 ⟨of, hof, (hlaid.node?_eq of).trans hid'⟩, .refl⟩
  constructor
  · intro f hf δ vs hvs i x hx
    have hsized : m.Sized .real s := hs.sized (by simp)
    have hread := hlaid.getElem?_values hsized g body hv hf i
    rw [hx] at hread
    split at hread
    · rename_i hi
      rw [hm.getElem?_response hg honce hfollows hsized hbalanced (by simp) hv houtput
        hinput hmatters hw hid hj hruns hvs, if_pos hi, ← Option.some.inj hread]
    · cases hread
  · intro hcapable owner step h vs hvs i x hx
    obtain ⟨hcomplex, hall⟩ := Bool.and_eq_true_iff.1 hcapable
    have hsafe (k : Nat) (c : ModelComponent R M) (hc : m.components[k]? = some c)
        (hk : g.components.contains k = true) : c.component.complexSafe = true := by
      have hmember : k ∈ g.members := by
        rw [ModelGroup.members, Span.positions, List.mem_range'_1]
        exact Span.contains_iff.1 hk
      simpa [hc] using List.all_eq_true.1 hall k hmember
    -- announcing a step moves nothing
    have hentered : m.Resting ((m.groupTarget g body).enter owner step s) := hs.congr rfl rfl
    have hresponse := hm.getElem?_response hg honce hfollows (hentered.sized fun _ => hcomplex)
      hentered.balanced (fun _ => ⟨hcomplex, hsafe⟩) hv houtput hinput hmatters hw hid hj hruns hvs i
    rw [hx] at hresponse
    split at hresponse
    · rw [hentered.entry, zero_add] at hresponse
      exact Option.some.inj hresponse
    · cases hresponse

omit [DirectSolver R] in
/-- The variables of the requests of a scheme are there when they have sizes. -/
theorem exists_variable_of_sizes [DirectSolver R] {a : Scheme R} {sizes : Sizes}
    (h : a.sizes (m.groupTarget g body) s = .ok sizes) {name : String}
    (hname : name ∈ a.variableNames) : ∃ v, m.variableTable.get? name = some v := by
  obtain ⟨entries, hentries, -⟩ := Except.bind_eq_ok.1 h
  obtain ⟨y, hy⟩ := Except.exists_of_mapM hentries hname
  obtain ⟨n, hn, -⟩ := Except.bind_eq_ok.1 hy
  obtain ⟨v, hv, -⟩ := Except.bind_eq_ok.1 hn
  exact ⟨v, (Outcome.expect_eq_ok _ _ _).1 hv⟩

/-- **The blocks of a scheme on a settled group** without patterns hold the derivatives across the
group. -/
theorem Affine.slopes_of_group (hm : m.Affine laws) (hg : g.solver = .runOnce)
    (honce : ∀ x ∈ body.groups, x.1.solver = .runOnce)
    (hfollows : Schedule.Follows m.components g.path members body g.components.start
      g.components.stop) (hs : m.Resting s) (hbalanced : m.Balanced laws .real s) {a : Scheme R}
    {d : Diagnostics} (hcurrent : a.Current (m.groupTarget g body))
    (hdistinct : (a.requests.map fun q => (q.of, q.wrt)).Nodup)
    (hpattern : ∀ q ∈ a.requests, q.pattern = none)
    (hvalid : ∀ q ∈ a.requests, q.settings.validate = .ok ())
    (houtput : ∀ q ∈ a.requests, ∀ v, m.variableTable.get? q.of = some v → v.kind = .output →
      g.components.contains v.owner = true)
    (hinput : ∀ q ∈ a.requests, ∀ v, m.variableTable.get? q.of = some v → v.kind = .input →
      ∀ i < v.size, (m.flowIn laws g.components).wire (v.start + i) = none)
    {blocks : Jacobian R} {z : Session R (ModelState R M)}
    (h : (Scheme.computeJacobian (m.groupTarget g body)).perform ⟨a, d, s⟩ = (.ok blocks, z)) :
    ∃ sizes, a.sizes (m.groupTarget g body) s = .ok sizes ∧
      blocks.keys = a.requests.map (fun q => (q.of, q.wrt)) ∧
      ∀ q ∈ a.requests, ∃ v w rows cols block, m.variableTable.get? q.of = some v ∧
        m.variableTable.get? q.wrt = some w ∧ q.rows sizes = .ok rows ∧ q.cols sizes = .ok cols ∧
        blocks.get? (q.of, q.wrt) = some (.dense block) ∧ block.rows = rows.length ∧
        block.cols = cols.length ∧ ∀ k l i j, rows[k]? = some i → cols[l]? = some j →
          block.get? k l = some (m.derivative laws g.components v w i j) := by
  have hstateless (c : ModelComponent R M) (hc : c ∈ m.components) : c.component.Stateless := by
    obtain ⟨k, hk⟩ := List.mem_iff_getElem?.1 hc
    exact (hm.component k c hk).stateless
  have hnames {q : Request R} (hq : q ∈ a.requests) :
      q.of ∈ a.variableNames ∧ q.wrt ∈ a.variableNames := by
    simp only [Scheme.variableNames, List.mem_eraseDups, List.mem_flatMap]
    exact ⟨⟨q, hq, by simp⟩, ⟨q, hq, by simp⟩⟩
  obtain ⟨sizes, hsizes, hkeys, hblocks⟩ := Scheme.slopes_of_computeJacobian
    (groupTarget_exact hg honce hstateless) (fun _ => rfl) hcurrent hdistinct hpattern hvalid
    (m.derivativeOf laws g.components)
    (by
      intro sizes hsizes q hq cols hcols j hj d u active hactive hperturbed hof
      obtain ⟨v, hv⟩ := exists_variable_of_sizes hsizes (hnames hq).1
      obtain ⟨w, hw⟩ := exists_variable_of_sizes hsizes (hnames hq).2
      have hlt : j < w.size := by
        have hlt := Request.lt_of_mem_select hcols hj
        cases hn : sizes.get? q.wrt with
        | none => simp [hn] at hlt
        | some n =>
          obtain ⟨w', hw', rfl⟩ := get?_of_sizes hsizes hn
          obtain rfl := Option.some.inj (hw.symm.trans hw')
          simpa [hn] using hlt
      have hactive : m.graph.activeComponents? [q.wrt] (a.ofNames d.requests) = some active := by
        rw [← hperturbed]
        exact (Outcome.ofOption_eq_ok _ _).1 hactive
      have hknown (name : String) (hname : name ∈ a.ofNames d.requests) :
          ∃ v, m.variableTable.get? name = some v := by
        simp only [Scheme.ofNames, List.mem_eraseDups, List.mem_filterMap] at hname
        obtain ⟨r, -, hr⟩ := hname
        obtain ⟨q', hq', rfl⟩ := Option.map_eq_some_iff.1 hr
        exact exists_variable_of_sizes hsizes (hnames (List.mem_of_getElem? hq')).1
      simpa only [derivativeOf_eq hv hw] using hm.tracks_group hg honce hfollows hs hbalanced hv
        (houtput q hq v hv) (hinput q hq v hv) hw hlt hknown hof hactive) h
  refine ⟨sizes, hsizes, hkeys, fun q hq => ?_⟩
  obtain ⟨v, hv⟩ := exists_variable_of_sizes hsizes (hnames hq).1
  obtain ⟨w, hw⟩ := exists_variable_of_sizes hsizes (hnames hq).2
  obtain ⟨rows, cols, block, hrows, hcols, hget, hheight, hwidth, hentries⟩ := hblocks q hq
  refine ⟨v, w, rows, cols, block, hv, hw, hrows, hcols, hget, hheight, hwidth, ?_⟩
  intro k l i j hk hl
  rw [hentries k l i j hk hl, derivativeOf_eq hv hw]

end Response

end Model

end Sensitivity
