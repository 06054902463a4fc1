import Sensitivity.Proofs.Approximation.Completing
import Sensitivity.Proofs.Model.Sweeping
import Sensitivity.Proofs.Model.Tracking

/-!
# Groups that grant derivatives

A group whose members run once, none of which fails, is a willing target (`Model.Laid.willing_group`):
its variables can be read and perturbed, and its schedule runs to the end wherever the vectors are
those of the model. So a scheme of requests for entries that are there computes blocks on it. If the
members are affine and the state is settled, these hold the derivatives across the group
(`Model.Affine.exists_slopes_of_group`).
-/

namespace Sensitivity

variable {R M : Type} [ExactScalar R]

namespace Model

variable {m : Model R M} {s : ModelState R M} {mode : Mode}

/-- The number of entries of a variable. -/
def extent (m : Model R M) (name : String) : Option Nat := (m.variableTable.get? name).map (·.size)

omit [ExactScalar R] in
theorem exists_of_extent {name : String} {n : Nat} (h : m.extent name = some n) :
    ∃ id v, m.variableTable.indexOf? name = some id ∧ m.variableAt? id = some v ∧
      m.variableTable.get? name = some v ∧ v.size = n := by
  obtain ⟨v, hv, hsize⟩ := Option.map_eq_some_iff.1 h
  obtain ⟨id, hindex, hid⟩ := Table.get?_eq_some_iff_indexOf?.1 hv
  exact ⟨id, v, hindex, hid, hv, hsize⟩

/-- Some components can be evaluated in a mode. -/
def EvaluableIn (m : Model R M) (mode : Mode) (span : Span) : Prop :=
  ∀ (k : Nat) c, m.components[k]? = some c → span.contains k = true →
    c.component.Evaluates c.inputs.size c.outputs.size (m.isComplexIn mode = true)

/-- No component ever fails, in complex arithmetic neither if it is safe there. -/
def Unfailing (m : Model R M) : Prop :=
  ∀ (k : Nat) c, m.components[k]? = some c → c.Unfailing (c.component.complexSafe = true)

theorem Unfailing.evaluableIn_real (h : m.Unfailing) (span : Span) : m.EvaluableIn .real span :=
  fun k c hc _ => ((h k c hc).mono fun hcomplex => by cases hcomplex).evaluates

theorem Unfailing.evaluableIn_complex (h : m.Unfailing) {g : ModelGroup R}
    (hsafe : m.isComplexSafe g = true) : m.EvaluableIn .complex g.components := by
  intro k c hc hk
  refine ((h k c hc).mono fun _ => ?_).evaluates
  have hmember : k ∈ g.members := by
    rw [ModelGroup.members, Span.positions, List.mem_range'_1]
    exact Span.contains_iff.1 hk
  have hall := List.all_eq_true.1 (Bool.and_eq_true_iff.1 hsafe).2 k hmember
  rwa [hc] at hall

omit [ExactScalar R] in
theorem Formed.hasLength (hs : m.Formed s) (kind : VariableKind) :
    (s.vector kind).HasLength (m.lengthOf kind) m.complex := by
  cases kind with
  | input => exact hs.inputs
  | output => exact hs.outputs

omit [ExactScalar R] in
theorem Formed.setVector (hs : m.Formed s) {kind : VariableKind} {v : StateVector R}
    (hv : v.HasLength (m.lengthOf kind) m.complex) : m.Formed (s.setVector kind v) := by
  cases kind with
  | input => exact ⟨hv, hs.outputs, hs.components⟩
  | output => exact ⟨hs.inputs, hv, hs.components⟩

section Laid

variable (hm : m.Laid)

include hm

/-- **A component that can be evaluated runs.** -/
theorem Laid.yields_compute_formed {k : Nat} {c : ModelComponent R M}
    (hc : m.components[k]? = some c)
    (hevaluates : c.component.Evaluates c.inputs.size c.outputs.size (m.isComplexIn mode = true))
    (hs : m.Formed s) :
    Action.Yields (fun _ t => m.Formed t) ((m.compute k mode).perform s) := by
  obtain ⟨l, hl⟩ : ∃ l, s.components[k]? = some l :=
    ⟨_, List.getElem?_eq_getElem (hs.components ▸ (List.getElem?_eq_some_iff.1 hc).1)⟩
  obtain ⟨μ, v, heval⟩ := hevaluates.exists_evaluate (hs.inputs.covers (hm.stop_inputs_le hc))
    (hs.outputs.covers (hm.stop_outputs_le hc)) id l.memory
  have hrun : Action.Yields (fun _ t => t = { s.modifyComponent k fun l =>
      { l with memory := μ, runs := l.runs + 1 } with outputs := v })
      ((m.compute k mode).perform s) := by
    refine yields_component_bind hc (yields_kept_bind hl ⟨(), _, ?_, rfl⟩)
    simp only [Action.perform_of, heval, Outcome.mapError]
  exact (hrun.and fun _ t ht => (formed_compute k mode).of_ok hs ht).mono fun _ _ h => h.2

/-- **A schedule of components that can be evaluated runs to its end.** -/
theorem Laid.yields_runSchedule [DirectSolver R] {path : String} {members : Members R M}
    {schedule : Schedule R} {first stop : Nat}
    (hfollows : Schedule.Follows m.components path members schedule first stop)
    (honce : ∀ x ∈ schedule.groups, x.1.solver = .runOnce) {span : Span}
    (hevaluable : m.EvaluableIn mode span) (hfirst : span.start ≤ first) (hstop : stop ≤ span.stop)
    (active : ActiveSet) (scope : Span) (hs : m.Formed s) :
    Action.Yields (fun _ t => m.Formed t) ((m.runSchedule active mode scope schedule).perform s) := by
  induction hfollows generalizing s with
  | empty => exact Action.yields_pure hs
  | @component _ _ _ _ _ k stop c hc _ _ hrest ih =>
    have hle := hrest.le
    have hk : span.contains k = true := Span.contains_iff.2 ⟨hfirst, by omega⟩
    unfold runSchedule
    dsimp only
    split
    · refine yields_component_bind hc (Action.yields_modify_bind (Action.yields_bind
        (hm.yields_compute_formed hc (hevaluable k c hc hk) (hs.pull scope c)) fun _ t ht => ?_))
      exact ih honce (by omega) hstop ht
    · exact ih honce (by omega) hstop hs
  | @group _ _ _ _ _ g body rest stop _ _ _ hbody hrest ihbody ihrest =>
    have hbefore := hbody.le
    have hafter := hrest.le
    have hg : g.solver = .runOnce := honce (g, body) List.mem_cons_self
    rw [runSchedule_group hg]
    refine Action.yields_bind (ihbody (fun x hx => honce x
      (List.mem_cons_of_mem _ (List.mem_append_left _ hx))) hfirst (by omega) hs) fun _ t ht => ?_
    exact ihrest (fun x hx => honce x (List.mem_cons_of_mem _ (List.mem_append_right _ hx)))
      (by omega) hstop ht

variable [DirectSolver R] {g : ModelGroup R} {body : Schedule R} {members : Members R M}

omit [DirectSolver R] in
theorem Laid.yields_perturb (hs : m.Formed s) (label : String) {name : String} {n : Nat}
    (hname : m.extent name = some n) {i : Nat} (hi : i < n) {delta : Delta R}
    (hdelta : ∀ x, delta = .imag x → m.complex = true) :
    Action.Yields (fun _ t => m.Formed t) ((m.perturb label name i delta).perform s) := by
  obtain ⟨id, v, -, hid, hv, rfl⟩ := exists_of_extent hname
  obtain ⟨w, hw, hlength⟩ := StateVector.exists_perturb (hs.hasLength v.kind) (shadowMissing label)
    (lt_of_lt_of_le (Nat.add_lt_add_left hi v.start) (hm.stop_le hid)) hdelta
  exact Action.yields_get_bind (Action.yields_ofOutcome_bind ((Outcome.expect_eq_ok _ _ _).2 hv)
    (Action.yields_ofOutcome_bind hw ⟨(), _, rfl, hs.setVector hlength⟩))

/-- **A group of components that can be evaluated is a willing target**, if its members run once. -/
theorem Laid.willing_group (hg : g.solver = .runOnce)
    (honce : ∀ x ∈ body.groups, x.1.solver = .runOnce)
    (hfollows : Schedule.Follows m.components g.path members body g.components.start
      g.components.stop) (hreal : m.EvaluableIn .real g.components)
    (hcomplex : m.isComplexSafe g = true → m.EvaluableIn .complex g.components) :
    (m.groupTarget g body).Willing m.Formed m.extent (m.isComplexSafe g) := by
  have hcapable (h : m.isComplexSafe g = true) : m.complex = true := (Bool.and_eq_true_iff.1 h).1
  have hevaluate {mode : Mode} (hevaluable : m.EvaluableIn mode g.components) {s : ModelState R M}
      (hs : m.Formed s) (active : ActiveSet) : Action.Yields (fun _ t => m.Formed t)
        (((m.groupTarget g body).evaluate active mode).perform s) := by
    refine Action.yields_mapError _ ?_
    unfold solveGroup
    rw [runSchedule_group hg]
    exact Action.yields_bind (hm.yields_runSchedule hfollows honce hevaluable (Nat.le_refl _)
      (Nat.le_refl _) active _ hs) fun _ t ht => Action.yields_pure ht
  constructor
  case size =>
    intro s _ name n hname
    obtain ⟨-, v, -, -, hv, rfl⟩ := exists_of_extent hname
    exact Except.bind_eq_ok.2 ⟨v, (Outcome.expect_eq_ok _ _ _).2 hv, rfl⟩
  case values =>
    intro s hs name n hname part
    obtain ⟨id, v, -, hid, hv, rfl⟩ := exists_of_extent hname
    exact ⟨_, Except.bind_eq_ok.2 ⟨v, (Outcome.expect_eq_ok _ _ _).2 hv, rfl⟩,
      StateVector.length_readPart ((hs.hasLength v.kind).covers (hm.stop_le hid)) part⟩
  case perturb => exact fun hs _ _ hname _ hi _ => hm.yields_perturb hs _ hname hi nofun
  case perturbStep =>
    exact fun hcap _ hs _ _ hname _ hi _ => hm.yields_perturb hs _ hname hi fun _ _ => hcapable hcap
  case evaluate => exact fun hs active => hevaluate hreal hs active
  case evaluateStep => exact fun hcap _ hs active => hevaluate (hcomplex hcap) hs active
  case restore =>
    exact fun hs ht => ⟨hs.inputs.restore ht.inputs, hs.outputs.restore ht.outputs, ht.components⟩
  case enter => exact fun hs _ _ => ⟨hs.inputs, hs.outputs, hs.components⟩
  case leave => exact fun hs => ⟨hs.inputs, hs.outputs, hs.components⟩
  case capable => exact fun _ => rfl

omit [DirectSolver R] in
/-- The graph of a model says what lies between variables of the model. -/
theorem Laid.charted_group [DirectSolver R] (g : ModelGroup R) (body : Schedule R) :
    (m.groupTarget g body).Charted m.extent where
  constant _ _ := rfl
  answers {_ graph} hgraph perturbed requested hknown := by
    obtain rfl := Option.some.inj hgraph
    have hnode (name : String) (hname : name ∈ perturbed ++ requested) :
        ∃ id, m.graph.node? name = some id := by
      obtain ⟨n, hn⟩ := hknown name hname
      obtain ⟨id, -, hindex, -⟩ := exists_of_extent hn
      exact ⟨id, (hm.node?_eq name).trans hindex⟩
    obtain ⟨seeds, hseeds⟩ := Option.exists_mapM (f := m.graph.node?) fun name hname =>
      hnode name (List.mem_append_left requested hname)
    obtain ⟨targets, htargets⟩ := Option.exists_mapM (f := m.graph.node?) fun name hname =>
      hnode name (List.mem_append_right perturbed hname)
    obtain ⟨found, hfound, -⟩ :=
      DependencyGraph.activeComponents?_spec hm.complete hseeds htargets
    exact ⟨_, hfound⟩

end Laid

/-- All groups of a model have its graph. -/
theorem graph_groupTarget [DirectSolver R] (m : Model R M) (g : ModelGroup R) (body : Schedule R)
    (s : ModelState R M) : (m.groupTarget g body).graph s = some m.graph := rfl

section Settled

variable [DirectSolver R] {g : ModelGroup R} {body : Schedule R} {members : Members R M}
  {laws : Nat → AffineLaw R}

/-- The entries of a variable that are selected, all of them if none are listed. -/
def selected (v : ModelVariable R) (entries : Option (List Nat)) : List Nat :=
  entries.getD (List.range v.size)

omit [ExactScalar R] [DirectSolver R] in
theorem eq_selected_of_select {name : String} {entries : Option (List Nat)} {sizes : Sizes}
    {v : ModelVariable R} (hsize : sizes.get? name = some v.size) {is : List Nat}
    (h : Request.select (R := R) name entries sizes = .ok is) : is = selected v entries := by
  cases entries with
  | none =>
    simp only [Request.select, hsize] at h
    exact (Except.ok.inj h).symm
  | some listed =>
    simp only [Request.select, hsize] at h
    split at h
    · cases h
    · exact (Except.ok.inj h).symm

/-- A request and the block of the derivatives of its selected entries across a scope. -/
def Holds (m : Model R M) (laws : Nat → AffineLaw R) (scope : Span) (blocks : Jacobian R)
    (q : Request R) : Prop :=
  ∃ v w block, m.variableTable.get? q.of = some v ∧ m.variableTable.get? q.wrt = some w ∧
    blocks.get? (q.of, q.wrt) = some (.dense block) ∧
    block.rows = (selected v q.ofEntries).length ∧ block.cols = (selected w q.wrtEntries).length ∧
    ∀ k l i j, (selected v q.ofEntries)[k]? = some i → (selected w q.wrtEntries)[l]? = some j →
      block.get? k l = some (m.derivative laws scope v w i j)

/-- **A settled group supplies the blocks of a scheme**, and they hold the derivatives across the
group. -/
theorem Affine.exists_slopes_of_group (hm : m.Affine laws) (hg : g.solver = .runOnce)
    (honce : ∀ x ∈ body.groups, x.1.solver = .runOnce)
    (hfollows : Schedule.Follows m.components g.path members body g.components.start
      g.components.stop) (hreal : m.EvaluableIn .real g.components)
    (hcomplex : m.isComplexSafe g = true → m.EvaluableIn .complex g.components)
    (hformed : m.Formed s) (hs : m.Resting s) (hbalanced : m.Balanced laws .real s) {a : Scheme R}
    (hcurrent : a.Current (m.groupTarget g body))
    (hdistinct : (a.requests.map fun q => (q.of, q.wrt)).Nodup) (hgrantable : a.Grantable m.extent)
    (houtput : ∀ q ∈ a.requests, ∀ v, m.variableTable.get? q.of = some v → v.kind = .output →
      g.components.contains v.owner = true)
    (hinput : ∀ q ∈ a.requests, ∀ v, m.variableTable.get? q.of = some v → v.kind = .input →
      ∀ i < v.size, (m.flowIn laws g.components).wire (v.start + i) = none) (d : Diagnostics) :
    ∃ blocks z, (Scheme.computeJacobian (m.groupTarget g body)).perform ⟨a, d, s⟩ =
        (.ok blocks, z) ∧ blocks.keys = a.requests.map (fun q => (q.of, q.wrt)) ∧
      ∀ q ∈ a.requests, m.Holds laws g.components blocks q := by
  have hstateless (c : ModelComponent R M) (hc : c ∈ m.components) : c.component.Stateless := by
    obtain ⟨k, hk⟩ := List.mem_iff_getElem?.1 hc
    exact (hm.component k c hk).stateless
  have hlaid := hm.laid
  obtain ⟨blocks, z, hblocks⟩ := Scheme.Grantable.exists_computeJacobian (w := ⟨a, d, s⟩)
    (hlaid.willing_group hg honce hfollows hreal hcomplex) hgrantable hformed
    (groupTarget_exact hg honce hstateless) (hlaid.charted_group g body) hcurrent
  obtain ⟨sizes, hsizes, hkeys, hall⟩ := hm.slopes_of_group hg honce hfollows hs hbalanced hcurrent
    hdistinct (fun q hq => (hgrantable q hq).pattern) (fun q hq => (hgrantable q hq).valid) houtput
    hinput hblocks
  refine ⟨blocks, z, hblocks, hkeys, fun q hq => ?_⟩
  obtain ⟨v, w, rows, cols, block, hv, hw, hrows, hcols, hget, hheight, hwidth, hentries⟩ := hall q hq
  have hsize {name : String} (hname : name ∈ a.variableNames) {v : ModelVariable R}
      (hv : m.variableTable.get? name = some v) : sizes.get? name = some v.size := by
    obtain ⟨n, hn, -⟩ := Scheme.get?_of_mem_variableNames hsizes hname
    obtain ⟨v', hv', rfl⟩ := get?_of_sizes hsizes hn
    rw [hn, Option.some.inj (hv.symm.trans hv')]
  obtain ⟨hof, hwrt⟩ := Scheme.mem_variableNames hq
  obtain rfl := eq_selected_of_select (hsize hof hv) hrows
  obtain rfl := eq_selected_of_select (hsize hwrt hw) hcols
  exact ⟨v, w, block, hv, hw, hget, hheight, hwidth, hentries⟩

/-- **A settled group approximates its derivatives** with the scheme that it keeps. -/
theorem Affine.yields_approximateGroup (hm : m.Affine laws) (hg : g.solver = .runOnce)
    (honce : ∀ x ∈ body.groups, x.1.solver = .runOnce)
    (hfollows : Schedule.Follows m.components g.path members body g.components.start
      g.components.stop) (hreal : m.EvaluableIn .real g.components)
    (hcomplex : m.isComplexSafe g = true → m.EvaluableIn .complex g.components)
    (hformed : m.Formed s) (hs : m.Resting s) (hbalanced : m.Balanced laws .real s) {a : Scheme R}
    (hcurrent : a.Current (m.groupTarget g body))
    (hdistinct : (a.requests.map fun q => (q.of, q.wrt)).Nodup) (hgrantable : a.Grantable m.extent)
    (houtput : ∀ q ∈ a.requests, ∀ v, m.variableTable.get? q.of = some v → v.kind = .output →
      g.components.contains v.owner = true)
    (hinput : ∀ q ∈ a.requests, ∀ v, m.variableTable.get? q.of = some v → v.kind = .input →
      ∀ i < v.size, (m.flowIn laws g.components).wire (v.start + i) = none) :
    Action.Yields (fun blocks _ => blocks.keys = a.requests.map (fun q => (q.of, q.wrt)) ∧
        ∀ q ∈ a.requests, m.Holds laws g.components blocks q)
      ((m.approximateGroup g body a).perform s) := by
  obtain ⟨blocks, z, hblocks, hkeys, hall⟩ := hm.exists_slopes_of_group hg honce hfollows hreal
    hcomplex hformed hs hbalanced hcurrent hdistinct hgrantable houtput hinput .empty
  unfold approximateGroup onGroup
  refine Action.yields_on (Action.yields_mapError _ ?_)
  exact ⟨blocks, z, hblocks, hkeys, hall⟩

end Settled

end Model

end Sensitivity
