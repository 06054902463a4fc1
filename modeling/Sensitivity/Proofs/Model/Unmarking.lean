import Sensitivity.Proofs.Model.Sealing
import Sensitivity.Proofs.Model.Totalling

/-!
# Totals with and without approximated groups

Which groups approximate their derivatives has no part in how a model is laid out
(`Model.counterpart_of_ofGroup`), so the derivatives of two models that differ in this only are the
same. Both compute them: the root approximates them or the chain rule follows them, through groups that
approximate theirs or through the components of these. So the totals of the two agree
(`Model.computeTotals_unmarked`, `Model.computeTotals_approximating`), except by design variables that
an approximated group reads itself.
-/

namespace Sensitivity

variable {R M : Type}

/-- The same members, with no group among them that approximates its derivatives. -/
def Members.unmarked : Members R M → Members R M
  | empty => empty
  | component name c rest => component name c rest.unmarked
  | group name settings members rest =>
    group name { settings with approximation := none } members.unmarked rest.unmarked

/-- The same group, with no group inside it that approximates its derivatives. -/
def Group.unmarked (g : Group R M) : Group R M := { g with members := g.members.unmarked }

/-- The same group, as one that approximates its derivatives. -/
def Group.approximating (g : Group R M) (own : Settings R) : Group R M :=
  { g with settings := { g.settings with approximation := some own } }

/-- The same schedule, with no group in it that approximates its derivatives. -/
def Schedule.unmarked : Schedule R → Schedule R
  | done => done
  | component c rest => component c rest.unmarked
  | group g body rest => group { g with approximation := none } body.unmarked rest.unmarked

@[simp] theorem Members.unmarked_unmarked (members : Members R M) :
    members.unmarked.unmarked = members.unmarked := by
  induction members with
  | empty => rfl
  | component name c rest ih => simp only [unmarked, ih]
  | group name settings members rest ihmembers ihrest => simp only [unmarked, ihmembers, ihrest]

theorem Members.components_unmarked (members : Members R M) :
    members.unmarked.components = members.components := by
  induction members with
  | empty => rfl
  | component name c rest ih => simp only [unmarked, components, ih]
  | group name settings members rest ihmembers ihrest =>
    simp only [unmarked, components, ihmembers, ihrest]

namespace Schedule

theorem solvers_unmarked (schedule : Schedule R) :
    schedule.unmarked.groups.map (·.1.solver) = schedule.groups.map (·.1.solver) := by
  induction schedule with
  | done => rfl
  | component c rest ih => exact ih
  | group g body rest ihbody ihrest =>
    simp only [unmarked, groups, List.cons_append, List.map_cons, List.map_append, ihbody, ihrest]

theorem approximation_unmarked (schedule : Schedule R) :
    ∀ x ∈ schedule.unmarked.groups, x.1.approximation = none := by
  induction schedule with
  | done => exact fun _ h => nomatch h
  | component c rest ih => exact ih
  | group g body rest ihbody ihrest =>
    exact List.forall_mem_cons.2 ⟨rfl, List.forall_mem_append.2 ⟨ihbody, ihrest⟩⟩

end Schedule

/-- **Members are laid out alike**, whichever groups among them approximate their derivatives. -/
theorem Flattening.addMembers_unmarked {path : String} {seen : List String} {members : Members R M}
    {f f' : Flattening R M} {schedule : Schedule R}
    (h : addMembers path seen members f = .ok (schedule, f')) :
    addMembers path seen members.unmarked f = .ok (schedule.unmarked, f') := by
  induction members generalizing path seen f f' schedule with
  | empty =>
    cases h
    rfl
  | component name component rest ih =>
    obtain ⟨_, hname, h⟩ := Except.bind_eq_ok.1 h
    obtain ⟨f₁, hadd, h⟩ := Except.bind_eq_ok.1 h
    obtain ⟨⟨schedule', f₂⟩, hrest, h⟩ := Except.bind_eq_ok.1 h
    cases h
    exact Except.bind_eq_ok.2 ⟨_, hname, Except.bind_eq_ok.2 ⟨f₁, hadd,
      Except.bind_eq_ok.2 ⟨_, ih hrest, rfl⟩⟩⟩
  | group name settings members rest ihmembers ihrest =>
    obtain ⟨_, hname, h⟩ := Except.bind_eq_ok.1 h
    obtain ⟨⟨body, f₁⟩, hbody, h⟩ := Except.bind_eq_ok.1 h
    obtain ⟨⟨schedule', f₂⟩, hrest, h⟩ := Except.bind_eq_ok.1 h
    cases h
    exact Except.bind_eq_ok.2 ⟨_, hname, Except.bind_eq_ok.2 ⟨_, ihmembers hbody,
      Except.bind_eq_ok.2 ⟨_, ihrest hrest, rfl⟩⟩⟩

namespace Model

section Counterpart

variable {m m' : Model R M} {g g' : Group R M} {settings : SetupSettings}

/-- Two models that differ in which groups approximate their derivatives, and how, at most, and in
what this takes. -/
structure Counterpart (m m' : Model R M) : Prop where
  components : m'.components = m.components
  variableTable : m'.variableTable = m.variableTable
  sources : m'.sources = m.sources
  graph : m'.graph = m.graph
  inputLength : m'.inputLength = m.inputLength
  outputLength : m'.outputLength = m.outputLength
  schedule : m'.schedule.unmarked = m.schedule.unmarked
  solver : m'.root.solver = m.root.solver

variable [Scalar R]

/-- **Models of groups that differ in approximations only** are counterparts. -/
theorem counterpart_of_ofGroup (h : ofGroup g settings = .ok m) (h' : ofGroup g' settings = .ok m')
    (hmembers : g'.members.unmarked = g.members.unmarked)
    (hconnections : g'.settings.connections = g.settings.connections)
    (hsolver : g'.settings.solver = g.settings.solver) : m.Counterpart m' := by
  simp only [ofGroup, Except.bind_eq_ok] at h h'
  obtain ⟨⟨schedule, f⟩, hadd, ⟨sources, graph⟩, hjoined, graph₁, hfinish, _, -, hm⟩ := h
  obtain ⟨⟨schedule', f'⟩, hadd', ⟨sources', graph'⟩, hjoined', graph₁', hfinish', _, -, hm'⟩ := h'
  have hsame := (Flattening.addMembers_unmarked hadd').symm.trans
    (hmembers ▸ Flattening.addMembers_unmarked hadd)
  obtain ⟨hschedule, rfl⟩ := Prod.mk.inj (Except.ok.inj hsame)
  rw [hconnections] at hjoined'
  obtain ⟨rfl, rfl⟩ := Prod.mk.inj (Except.ok.inj (hjoined'.symm.trans hjoined))
  obtain rfl := Except.ok.inj (hfinish'.symm.trans hfinish)
  cases hm
  cases hm'
  exact ⟨rfl, rfl, rfl, rfl, rfl, rfl, hschedule, hsolver⟩

/-- A root that approximates its derivatives has valid settings for this. -/
theorem valid_of_ofGroup {own : Settings R} (h : ofGroup g settings = .ok m)
    (hown : m.root.approximation = some own) : own.validate = .ok () := by
  simp only [ofGroup, Except.bind_eq_ok] at h
  obtain ⟨⟨schedule, f⟩, -, ⟨sources, graph⟩, -, graph', -, _, hvalid, hm⟩ := h
  cases hm
  have hown : g.settings.approximation = some own := hown
  rw [List.forIn_cons, hown] at hvalid
  cases hissue : own.validate with
  | ok u => rfl
  | error issue =>
    rw [Option.map_some, hissue] at hvalid
    cases hvalid

omit [Scalar R] in
theorem Counterpart.exists_eq (h : m.Counterpart m') : ∃ root schedule complex policy, m' =
    { m with root := root, schedule := schedule, complex := complex, policy := policy } := by
  obtain ⟨hcomponents, htable, hsources, hgraph, hinputs, houtputs, -, -⟩ := h
  cases m'
  dsimp only at *
  subst hcomponents htable hsources hgraph hinputs houtputs
  exact ⟨_, _, _, _, rfl⟩

omit [Scalar R] in
theorem Counterpart.selection_eq (h : m.Counterpart m') : m'.selection = m.selection := by
  obtain ⟨_, _, _, _, rfl⟩ := h.exists_eq
  rfl

omit [Scalar R] in
theorem Counterpart.standsFor_eq (h : m.Counterpart m') : m'.standsFor = m.standsFor := by
  obtain ⟨_, _, _, _, rfl⟩ := h.exists_eq
  rfl

omit [Scalar R] in
theorem Counterpart.once (h : m.Counterpart m') (hm : ∀ x ∈ m.groups, x.1.solver = .runOnce) :
    ∀ x ∈ m'.groups, x.1.solver = .runOnce := by
  have hsolvers : m'.schedule.groups.map (·.1.solver) = m.schedule.groups.map (·.1.solver) := by
    rw [← Schedule.solvers_unmarked, h.schedule, Schedule.solvers_unmarked]
  refine List.forall_mem_cons.2 ⟨h.solver.trans (hm _ List.mem_cons_self), fun x hx => ?_⟩
  have hmem : x.1.solver ∈ m.schedule.groups.map (·.1.solver) := hsolvers ▸ List.mem_map_of_mem hx
  obtain ⟨y, hy, hsame⟩ := List.mem_map.1 hmem
  exact hsame.symm.trans (hm y (List.mem_cons_of_mem _ hy))

/-- Where no group approximates its derivatives, no design variable is sealed. -/
theorem unsealed_of_unmarked (h : ofGroup g.unmarked settings = .ok m) (w : DriverVariable R) :
    m.Unsealed w := by
  simp only [ofGroup, Except.bind_eq_ok] at h
  obtain ⟨⟨schedule, f⟩, hadd, ⟨sources, graph⟩, -, graph', -, _, -, hm⟩ := h
  have hsame := Flattening.addMembers_unmarked hadd
  rw [Group.unmarked, Members.unmarked_unmarked] at hsame
  obtain ⟨hschedule, -⟩ := Prod.mk.inj (Except.ok.inj (hsame.symm.trans hadd))
  cases hm
  intro id _ v scope _ hscope
  rw [Schedule.enclosure_eq_none (hschedule ▸ schedule.approximation_unmarked)] at hscope
  cases hscope

end Counterpart

section Tractable

variable [ExactScalar R] {m m' : Model R M} {g g' : Group R M} {settings : SetupSettings}
  {laws : Nat → AffineLaw R} {s t : ModelState R M} {p : DriverVariable R × DriverVariable R}

variable (m) in
/-- An affine model of groups that run once and components that never fail. -/
structure Tractable (laws : Nat → AffineLaw R) : Prop where
  affine : m.Affine laws
  once : ∀ x ∈ m.groups, x.1.solver = .runOnce
  unfailing : m.Unfailing

theorem Tractable.orderly (hm : m.Tractable laws) (hbuild : ofGroup g settings = .ok m) :
    m.Orderly where
  stateless c hc := by
    obtain ⟨k, hk⟩ := List.mem_iff_getElem?.1 hc
    exact (hm.affine.component k c hk).stateless
  distinct c hc := by
    obtain ⟨k, hk⟩ := List.mem_iff_getElem?.1 hc
    exact (arranged_of_ofGroup hbuild hk).distinct
  shape c hc p hp pair := by
    obtain ⟨k, hk⟩ := List.mem_iff_getElem?.1 hc
    exact ((hm.unfailing k c hk).congruent hp).shape pair

theorem Counterpart.tractable (h : m.Counterpart m') (hbuild : ofGroup g' settings = .ok m')
    (hm : m.Tractable laws) : m'.Tractable laws := by
  have hlaid := laid_of_ofGroup hbuild
  have hstacked := (consistent_of_ofGroup hbuild).stacked .output
  have honce := h.once hm.once
  obtain ⟨_, _, _, _, rfl⟩ := h.exists_eq
  exact ⟨⟨hlaid, hstacked, hm.affine.forward, hm.affine.component⟩, honce, hm.unfailing⟩

/-- **Counterparts have the same derivatives.** -/
theorem Counterpart.derives_iff (h : m.Counterpart m') {b : DenseMatrix R} :
    m'.Derives laws p b ↔ m.Derives laws p b := by
  obtain ⟨_, _, _, _, rfl⟩ := h.exists_eq
  exact Iff.rfl

variable [DirectSolver R]

variable (m) in
/-- A state after a run, whatever was done before. -/
def HasRun (t : ModelState R M) : Prop :=
  ∃ first s ops, m.start = .ok first ∧ m.Reaches first ops s ∧ m.run.perform s = (.ok (), t)

/-- **A run leaves a tractable model poised** for its derivatives. -/
theorem Tractable.poised (hm : m.Tractable laws) (hbuild : ofGroup g settings = .ok m)
    (hvalued : ∀ c ∈ g.members.components, ∀ d, c.declarations = .ok d → d.Valued)
    (ht : m.HasRun t) : m.Poised laws t := by
  obtain ⟨first, s, ops, hstart, hops, hrun⟩ := ht
  have hs : m.Resting s := resting_of_reaches hm.once hops (resting_start hbuild hvalued hstart)
  have hlast : m.Reaches s [.run] t := by
    have hperform : (Operation.run.work m).perform s = (.ok (), t) := hrun
    refine .cons .run ?_ ?_ <;> rw [hperform]
    · exact nofun
    · exact .nil t
  have hstocked := stocked_of_reaches (hm.orderly hbuild) hbuild hstart hops
  exact ⟨resting_of_reaches hm.once hlast hs,
    hm.affine.balanced_of_run (consistent_of_ofGroup hbuild).follows hm.once hs hrun,
    (stocked_lasting (hm.orderly hbuild) (consistent_of_ofGroup hbuild)
      (root_of_ofGroup hbuild).1).of_reaches hlast hstocked⟩

end Tractable

section Agreement

variable [ExactScalar R] [DirectSolver R] [CompleteSolver R] {m m' : Model R M} {g : Group R M}
  {settings : SetupSettings} {laws : Nat → AffineLaw R} {s s' : ModelState R M} {own : Settings R}
  {of wrt : List (DriverVariable R)}

variable (m m' s s' of wrt) in
/-- Two models compute totals of the same variables in two states, and these have the same blocks by
the design variables that no approximated group of the first one reads itself. -/
def SameTotals : Prop :=
  ∃ totals t totals' t', (m.computeTotals of wrt).perform s = (.ok totals, t) ∧
    (m'.computeTotals of wrt).perform s' = (.ok totals', t') ∧
    ∀ o ∈ of, ∀ w ∈ wrt, m.Unsealed w → ∃ b, totals.get? (o.name, w.name) = some b ∧
      totals'.get? (o.name, w.name) = some b

omit [ExactScalar R] [DirectSolver R] [CompleteSolver R] in
/-- Totals with the same derivatives of some pairs have the same blocks of these. -/
theorem exists_block_of_lists {P Q : DriverVariable R × DriverVariable R → DenseMatrix R → Prop}
    {totals totals' : Totals R} (h : Lists P of wrt totals) (h' : Lists Q of wrt totals')
    {o w : DriverVariable R} (ho : o ∈ of) (hw : w ∈ wrt)
    (hsame : ∀ p b b', p.2.name = w.name → P p b → Q p b' → b = b') :
    ∃ b, totals.get? (o.name, w.name) = some b ∧ totals'.get? (o.name, w.name) = some b := by
  obtain ⟨p, b, hp, hname, hb, hP⟩ := h.exists_get? ho hw
  obtain ⟨p', b', hp', -, hb', hQ⟩ := h'.exists_get? ho hw
  obtain rfl := Option.some.inj (hp.symm.trans hp')
  obtain rfl := hsame p b b' hname hP hQ
  exact ⟨b, hb, hb'⟩

variable (hbuild : ofGroup g settings = .ok m)
  (hvalued : ∀ c ∈ g.members.components, ∀ d, c.declarations = .ok d → d.Valued)
  (hm : m.Tractable laws) (hs : m.HasRun s) (hof : of ≠ []) (hwrt : wrt ≠ [])
  (hselected : ∀ v ∈ of ++ wrt, ∃ entries, m.selection v = .ok entries)

include hbuild hvalued hm hs hof hwrt hselected

/-- **After a run the chain rule gives derivatives.** -/
theorem Tractable.yields_chainRule (hroot : m.root.approximation = none) :
    Action.Yields (fun totals _ => Lists (fun p b => m.Unsealed p.2 → m.Derives laws p b) of wrt totals)
      ((m.computeTotals of wrt).perform s) := by
  have hconsistent := consistent_of_ofGroup hbuild
  refine yields_computeTotals hof hwrt hselected ?_
  rw [hroot]
  exact hm.affine.yields_chainRuleTotals hconsistent
    (fun x hx => hm.once x (List.mem_cons_of_mem _ hx)) hm.unfailing
    (fun k c hc => arranged_of_ofGroup hbuild hc)
    (stocked_lasting (hm.orderly hbuild) hconsistent (root_of_ofGroup hbuild).1)
    (hm.poised hbuild hvalued hs) hselected

omit [CompleteSolver R] in
/-- **After a run the root approximates derivatives**, of names that stand for distinct variables. -/
theorem Tractable.yields_approximation (hroot : m.root.approximation = some own)
    (hdistinct : (of.map fun v => m.standsFor v.name).Nodup)
    (hdistinct' : (wrt.map fun v => m.standsFor v.name).Nodup) :
    Action.Yields (fun totals _ => Lists (m.Derives laws) of wrt totals)
      ((m.computeTotals of wrt).perform s) := by
  refine yields_computeTotals hof hwrt hselected ?_
  rw [hroot]
  exact hm.affine.yields_approximatedTotals (consistent_of_ofGroup hbuild) hm.once hm.unfailing
    (hm.poised hbuild hvalued hs) hroot (valid_of_ofGroup hbuild hroot) hselected hdistinct hdistinct'

/-- **Approximating groups inside a model never changes its totals** by design variables that no such
group reads itself: after runs of the two, an affine model of groups that run once and the one in which
no group is approximated both compute their totals, and these have the same blocks. -/
theorem computeTotals_unmarked (hroot : g.settings.approximation = none)
    (hbuild' : ofGroup g.unmarked settings = .ok m') (hs' : m'.HasRun s') :
    m.SameTotals m' s s' of wrt := by
  have hcounterpart : m.Counterpart m' :=
    counterpart_of_ofGroup hbuild hbuild' (Members.unmarked_unmarked _) rfl rfl
  have hvalued' : ∀ c ∈ g.unmarked.members.components, ∀ d, c.declarations = .ok d → d.Valued := by
    rw [Group.unmarked, Members.components_unmarked]
    exact hvalued
  obtain ⟨hmarked, -⟩ := walked_of_ofGroup hbuild
  obtain ⟨hplain, -⟩ := walked_of_ofGroup hbuild'
  obtain ⟨totals, t, htotals, hlists⟩ := hm.yields_chainRule hbuild hvalued hs hof hwrt hselected
    (by rw [hmarked]; exact hroot)
  obtain ⟨totals', t', htotals', hlists'⟩ :=
    (hcounterpart.tractable hbuild' hm).yields_chainRule hbuild' hvalued' hs' hof hwrt
      (by rwa [hcounterpart.selection_eq]) (by rw [hplain]; exact hroot)
  refine ⟨totals, t, totals', t', htotals, htotals', fun o ho w hw hunsealed => ?_⟩
  refine exists_block_of_lists hlists hlists' ho hw fun p b b' hname hb hb' => ?_
  exact (hb (by rwa [Unsealed, hname])).unique
    (hcounterpart.derives_iff.1 (hb' (unsealed_of_unmarked hbuild' p.2)))

/-- **Approximating a whole model gives the totals of the chain rule** by design variables that no
approximated group inside it reads itself: after runs of the two, an affine model of groups that run
once and the one whose root is approximated both compute their totals, of names that stand for distinct
variables, and these have the same blocks. -/
theorem computeTotals_approximating (hroot : g.settings.approximation = none)
    (hbuild' : ofGroup (g.approximating own) settings = .ok m') (hs' : m'.HasRun s')
    (hdistinct : (of.map fun v => m.standsFor v.name).Nodup)
    (hdistinct' : (wrt.map fun v => m.standsFor v.name).Nodup) :
    m.SameTotals m' s s' of wrt := by
  have hcounterpart : m.Counterpart m' :=
    counterpart_of_ofGroup hbuild hbuild' rfl rfl rfl
  obtain ⟨hmarked, -⟩ := walked_of_ofGroup hbuild
  obtain ⟨hwhole, -⟩ := walked_of_ofGroup hbuild'
  obtain ⟨totals, t, htotals, hlists⟩ := hm.yields_chainRule hbuild hvalued hs hof hwrt hselected
    (by rw [hmarked]; exact hroot)
  obtain ⟨totals', t', htotals', hlists'⟩ :=
    (hcounterpart.tractable hbuild' hm).yields_approximation hbuild' hvalued hs' hof hwrt
      (by rwa [hcounterpart.selection_eq]) (show m'.root.approximation = some own by rw [hwhole]; rfl)
      (by rwa [hcounterpart.standsFor_eq]) (by rwa [hcounterpart.standsFor_eq])
  refine ⟨totals, t, totals', t', htotals, htotals', fun o ho w hw hunsealed => ?_⟩
  refine exists_block_of_lists hlists hlists' ho hw fun p b b' hname hb hb' => ?_
  exact (hb (by rwa [Unsealed, hname])).unique (hcounterpart.derives_iff.1 hb')

end Agreement

section Relay

/-- A component of a model that holds independent variables is affine, and never fails. -/
theorem affine_of_independent [ExactScalar R] {c : ModelComponent R M} {memory : M}
    {outputs : List (String × VariableSpec R)} (h : c.component = .independent memory outputs)
    (hpartials : c.partials = []) :
    c.Affine ⟨fun _ => 0, fun _ _ => 0⟩ ∧ c.Unfailing (c.component.complexSafe = true) := by
  have hnone {p : DeclaredPartial R} (hp : p ∈ c.partials) : False := by
    rw [hpartials] at hp
    cases hp
  refine ⟨⟨h ▸ Component.stateless_independent _ _, .inl ⟨h ▸ Component.idle_independent _ _,
    fun _ _ => rfl⟩, fun p hp => (hnone hp).elim, fun _ _ _ _ _ _ _ _ _ _ _ => rfl,
    fun p hp => (hnone hp).elim⟩, ⟨h ▸ ?evaluates, fun _ _ _ _ => h ▸ ⟨[], rfl⟩,
    fun _ _ _ _ _ => h ▸ rfl, fun p hp => (hnone hp).elim⟩⟩
  exact ⟨fun _ _ _ _ _ => ⟨_, _, rfl⟩, fun _ _ _ _ _ _ => ⟨_, _, rfl⟩⟩

/-- A source, and a group that multiplies by three twice and approximates this as a whole. -/
def relaySystem : Group Rat Unit where
  settings := { GroupSettings.plain with connections := [("p.x", "g.a.x")] }
  members := .component "p" (.independent () [("x", .scalar 1)]) <|
    .group "g" { GroupSettings.plain with
        connections := [("a.y", "b.x")]
        approximation := some .finiteDifference }
      (.component "a" (threefold.component [("x", .scalar 0)] [("y", .scalar 0)] .complexStep) <|
        .component "b"
          (threefold.component [("x", .scalar 0)] [("y", .scalar 0)] .finiteDifference) .empty) .empty

theorem isSome_relayModel : (ofGroup relaySystem .standard).toOption.isSome = true := by
  decide +kernel

/-- The model of the relay. -/
def relayModel : Model Rat Unit := (ofGroup relaySystem .standard).toOption.get isSome_relayModel

theorem ofGroup_relayModel : ofGroup relaySystem .standard = .ok relayModel :=
  Except.eq_ok_of_toOption (Option.some_get isSome_relayModel).symm

/-- The laws of the components. -/
def relayLaws (k : Nat) : AffineLaw Rat :=
  if k = 0 then ⟨fun _ => 0, fun _ _ => 0⟩ else threefold

deriving instance DecidableEq for NewtonSettings

deriving instance DecidableEq for Solver

theorem once_relay : ∀ x ∈ relayModel.groups, x.1.solver = .runOnce := by decide +kernel

theorem covered_relay : ∀ c ∈ relayModel.components, c.Covered := by decide +kernel

theorem component_relay (k : Nat) (c : ModelComponent Rat Unit)
    (hc : relayModel.components[k]? = some c) :
    c.Affine (relayLaws k) ∧ c.Unfailing (c.component.complexSafe = true) := by
  have hcomponents : relayModel.components.map (·.component) = relaySystem.members.components :=
    components_of_ofGroup ofGroup_relayModel
  have hexpression {j : Nat} {own : Settings Rat} (hj : relayModel.components[j + 1]? = some c)
      (hmember : relaySystem.members.components[j + 1]? =
        some (threefold.component [("x", .scalar 0)] [("y", .scalar 0)] own)) :
      c.Affine (relayLaws (j + 1)) ∧ c.Unfailing (c.component.complexSafe = true) := by
    obtain ⟨_, hc', hsolvable⟩ : ∃ c, relayModel.components[j + 1]? = some c ∧
        c.Solvable threefold true true :=
      exists_solvable ofGroup_relayModel covered_relay hmember
    obtain rfl := Option.some.inj (hc'.symm.trans hj)
    exact ⟨hsolvable.affine, hsolvable.unfailing⟩
  match k with
  | 0 =>
    have hsource : c.component = .independent () [("x", .scalar 1)] := by
      have hmember : (relayModel.components.map (·.component))[0]? =
        some (.independent () [("x", .scalar 1)]) := hcomponents ▸ rfl
      rw [List.getElem?_map, hc] at hmember
      exact Option.some.inj hmember
    have hpartials : ∀ c ∈ relayModel.components[0]?, c.partials.isEmpty = true := by decide +kernel
    exact affine_of_independent hsource (List.isEmpty_iff.1 (hpartials c hc))
  | 1 => exact hexpression hc rfl
  | 2 => exact hexpression hc rfl
  | k + 3 =>
    have hlength : relayModel.components.length = 3 := by decide +kernel
    rw [List.getElem?_eq_none (by omega)] at hc
    cases hc

theorem tractable_relay : relayModel.Tractable relayLaws where
  affine := ⟨laid_of_ofGroup ofGroup_relayModel,
    (consistent_of_ofGroup ofGroup_relayModel).stacked .output,
    forward_of_owners (by decide +kernel), fun k c hc => (component_relay k c hc).1⟩
  once := once_relay
  unfailing k c hc := (component_relay k c hc).2

theorem valued_relay : ∀ c ∈ relaySystem.members.components, ∀ d, c.declarations = .ok d →
    d.Valued := by
  have hcheck : ∀ c ∈ relaySystem.members.components, ∀ d ∈ c.declarations.toOption,
      ∀ e ∈ d.inputs.entries ++ d.outputs.entries, e.2.value.length = e.2.size := by decide +kernel
  intro c hc d hd kind e he
  refine hcheck c hc d (by rw [hd]; rfl) e ?_
  cases kind with
  | input => exact List.mem_append_left _ he
  | output => exact List.mem_append_right _ he

theorem selected_relay (v : DriverVariable Rat) (hv : v ∈ [.whole "g.b.y"] ++ [.whole "p.x"]) :
    ∃ entries, relayModel.selection v = .ok entries := by
  have hcheck : ∀ v ∈ [.whole "g.b.y"] ++ [.whole "p.x"],
      (relayModel.selection v).toOption.isSome = true := by decide +kernel
  exact ⟨_, Except.eq_ok_of_toOption (Option.some_get (hcheck v hv)).symm⟩

theorem unsealed_relay : relayModel.Unsealed (.whole "p.x") := by
  have hcheck : ∀ id ∈ (relayModel.variableId "p.x").toOption,
      ∀ v ∈ relayModel.variableAt? (relayModel.effective id),
        relayModel.schedule.enclosure v.owner = none := by decide +kernel
  intro id h v scope hv hscope
  have hid : id ∈ (relayModel.variableId "p.x").toOption :=
    (congrArg Except.toOption h : (relayModel.variableId "p.x").toOption = some id)
  rw [hcheck id hid v hv] at hscope
  cases hscope

theorem distinct_relay (name : String) :
    ([(.whole name : DriverVariable Rat)].map fun v => relayModel.standsFor v.name).Nodup :=
  List.nodup_singleton _

/-- After runs of the relay and of another system, both totals have one block, with nine in it. -/
def RelaysAs (g : Group Rat Unit) : Prop :=
  letI := cramerSolver
  ∃ m s s' totals t totals' t' b, ofGroup g .standard = .ok m ∧ relayModel.HasRun s ∧ m.HasRun s' ∧
    (relayModel.computeTotals [.whole "g.b.y"] [.whole "p.x"]).perform s = (.ok totals, t) ∧
    (m.computeTotals [.whole "g.b.y"] [.whole "p.x"]).perform s' = (.ok totals', t') ∧
    totals.get? ("g.b.y", "p.x") = some b ∧ totals'.get? ("g.b.y", "p.x") = some b ∧ b.entry 0 0 = 9

/-- The relay relays as another system that has a run, if totals after their runs have the same
blocks. -/
theorem relaysAs_of_agreement {g : Group Rat Unit}
    (hg : entryAfterRun g "g.b.y" "p.x" = some 9)
    (h : letI := cramerSolver
      ∀ m s s', ofGroup g .standard = .ok m → relayModel.HasRun s → m.HasRun s' →
        relayModel.SameTotals m s s' [.whole "g.b.y"] [.whole "p.x"]) :
    RelaysAs g := by
  let := cramerSolver
  obtain ⟨m, first, s', -, -, -, hm, hstart, hrun, -⟩ := hasEntry_of_entryAfterRun hg
  obtain ⟨m₀, first₀, s, totals₀, t₀, b₀, hm₀, hstart₀, hrun₀, htotals₀, hb₀, hnine⟩ :
    HasEntry relaySystem "g.b.y" "p.x" 9 := hasEntry_of_entryAfterRun (by decide +kernel)
  obtain rfl := Except.ok.inj (ofGroup_relayModel.symm.trans hm₀)
  have hs : relayModel.HasRun s := ⟨_, _, [], hstart₀, .nil _, hrun₀⟩
  have hs' : m.HasRun s' := ⟨_, _, [], hstart, .nil _, hrun⟩
  obtain ⟨totals, t, totals', t', htotals, htotals', hsame⟩ := h m s s' hm hs hs'
  obtain ⟨b, hb, hb'⟩ := hsame _ (List.mem_singleton_self _) _ (List.mem_singleton_self _)
    unsealed_relay
  rw [htotals] at htotals₀
  cases htotals₀
  obtain rfl := Option.some.inj (hb.symm.trans hb₀)
  exact ⟨m, s, s', _, _, totals', t', b, hm, hs, hs', htotals, htotals', hb, hb', hnine⟩

/-- The relay without the approximation of its group. -/
theorem unmarked_relay : RelaysAs relaySystem.unmarked := by
  let := cramerSolver
  have := complete_cramer
  exact relaysAs_of_agreement (by decide +kernel) fun m s s' hm hs hs' =>
    computeTotals_unmarked ofGroup_relayModel valued_relay tractable_relay hs (List.cons_ne_nil _ _)
      (List.cons_ne_nil _ _) selected_relay rfl hm hs'

/-- The relay with an approximation of the whole. -/
theorem approximating_relay : RelaysAs (relaySystem.approximating .finiteDifference) := by
  let := cramerSolver
  have := complete_cramer
  exact relaysAs_of_agreement (by decide +kernel) fun m s s' hm hs hs' =>
    computeTotals_approximating ofGroup_relayModel valued_relay tractable_relay hs
      (List.cons_ne_nil _ _) (List.cons_ne_nil _ _) selected_relay rfl hm hs' (distinct_relay _)
      (distinct_relay _)

end Relay

end Model

end Sensitivity
