import Sensitivity.Proofs.Model.Perturbing
import Sensitivity.Proofs.Model.Pulling
import Sensitivity.Proofs.Model.Repeating
import Sensitivity.Proofs.Model.Residue

/-!
# Fixed points of feed-forward runs

In a feed-forward model connections lead from a component to one that runs later. When such a model
runs once, no step invalidates what an earlier one left: it pulls inputs of its own component, and
the outputs that it computes are read by later components only (`Model.Forwarded.step`). So a run ends
where every connected input holds what its source holds, and every component computes again what is
stored (`Model.UpToDate`), and another run from there changes nothing (`Model.UpToDate.run`). This
takes components that are pure or hold their outputs (`Model.fixed_of_run`).
-/

namespace Sensitivity

variable {R M : Type}

namespace StateVector

variable [Scalar R] {v w : StateVector R} {n : Nat} {complex : Bool}

/-- Vectors of one length without imaginary parts that are not zero have the same shadow. -/
theorem IsReal.imag_eq (hv : v.IsReal) (hw : w.IsReal) (hvn : v.HasLength n complex)
    (hwn : w.HasLength n complex) : v.imag = w.imag := by
  have hshadow := hvn.shadow.trans hwn.shadow.symm
  cases hv' : v.imag with
  | none =>
    rw [hv'] at hshadow
    exact (Option.map_eq_none_iff.1 hshadow.symm).symm
  | some im =>
    cases hw' : w.imag with
    | none => simp [hv', hw'] at hshadow
    | some jm =>
      simp only [hv', hw', Option.map_some, Option.some.injEq] at hshadow
      refine congrArg some (Array.ext hshadow fun i hi hj => ?_)
      rw [hv im hv' _ (Array.getElem_mem hi), hw jm hw' _ (Array.getElem_mem hj)]

end StateVector

namespace Component

variable [Scalar R] {c : Component R M} {inputs v v' : StateVector R} {source target : Span} {μ μ' : M}

/-- Outputs that stay as they are keep their real parts. -/
theorem Still.readReal_of_evaluate (hc : c.Still)
    (h : (c.evaluate inputs source target false).perform (μ, v) = (.ok (), μ', v')) :
    v'.readReal target = v.readReal target := by
  obtain ⟨-, z, hz, rfl⟩ | ⟨hfalse, -⟩ := evaluate_eq_ok.1 h
  · have hsame := hc.real (inputs.readReal source) (v.readReal target) μ
    rw [hz] at hsame
    obtain rfl := Except.ok.inj hsame
    exact congrArg target.slice (Span.overwrite_slice _ _)
  · cases hfalse

end Component

namespace Model

variable [Scalar R] {m : Model R M} {s t u : ModelState R M} {c : ModelComponent R M} {k : Nat}

omit [Scalar R] in
/-- Whether the connections of a model lead to components that run later can be looked up. -/
theorem forward_of_owners
    (h : (List.range m.sources.length).all fun target =>
      ((m.source? target).bind m.variableAt?).all fun v =>
        (m.variableAt? target).all fun w => decide (v.owner < w.owner)) : m.Forward := by
  intro target source v w hsource hv hw
  have hlt : target < m.sources.length := by
    by_contra hge
    rw [source?, List.getElem?_eq_none (Nat.le_of_not_lt hge)] at hsource
    cases hsource
  have hchecked := List.all_eq_true.1 h target (List.mem_range.2 hlt)
  simpa [hsource, hv, hw] using hchecked

theorem formed_compute (k : Nat) (mode : Mode) : (m.compute k mode).Preserves m.Formed := by
  unfold compute
  refine Action.preserves_bind (Action.preserves_ofOutcome _) fun c => ?_
  refine Action.preserves_bind (Action.preserves_read _) fun kept => ?_
  intro s hs _
  obtain ⟨hsize, himag⟩ := Component.lengths_evaluate c.component s.inputs s.outputs c.inputs c.outputs
    (m.isComplexIn mode) kept.memory
  exact ⟨hs.inputs, hs.outputs.congr hsize himag, (List.length_modify ..).trans hs.components⟩

/-- A component computes its stored outputs again where its inputs and outputs are the same. -/
theorem Recomputes.congr (h : m.Recomputes .real s c s.outputs)
    (hin : t.inputs.AgreeOn c.inputs s.inputs) (hout : t.outputs.AgreeOn c.outputs s.outputs) :
    m.Recomputes .real t c t.outputs := by
  intro memory
  obtain ⟨memory', heval⟩ := h memory
  obtain ⟨-, z, hz, hstored⟩ | ⟨hfalse, -⟩ := Component.evaluate_eq_ok.1 heval
  · refine ⟨memory', Component.evaluate_eq_ok.2 (.inl ⟨rfl, z, ?_, ?_⟩)⟩
    · rwa [hin.readReal, hout.readReal]
    · obtain ⟨hreal, himag⟩ := StateVector.eq_iff.1 hstored
      refine (StateVector.eq_iff.2 ⟨?_, ?_⟩).symm
      · exact Span.overwrite_of_slice_eq (hout.1.trans (congrArg c.outputs.slice hreal))
      · refine StateVector.map_overwrite_eq_self (w := s.outputs) ?_
        exact hout.2.trans (congrArg (Option.map c.outputs.slice) himag)
  · cases hfalse

/-- Every connected input holds what its source holds, imaginary parts included, and every component
computes the outputs that are stored. -/
structure UpToDate (m : Model R M) (s : ModelState R M) : Prop where
  connected : ∀ id, m.Fed s id
  computed : ∀ c ∈ m.components, m.Recomputes .real s c s.outputs

/-- What is up to date depends on inputs and outputs only. -/
theorem UpToDate.congr (h : m.UpToDate s) (hinputs : t.inputs = s.inputs)
    (houtputs : t.outputs = s.outputs) : m.UpToDate t where
  connected id source v w hsource hv hw := by
    rw [hinputs, houtputs]
    exact h.connected id source v w hsource hv hw
  computed c hc memory := by
    rw [hinputs, houtputs]
    exact h.computed c hc memory

/-- What a run of the components before the one with some number came to: they are up to date.
Neither unconnected inputs nor the outputs that components hold have changed. -/
structure Forwarded (m : Model R M) (k : Nat) (s t : ModelState R M) : Prop where
  formed : m.Formed t
  residuals_eq : t.residuals = s.residuals
  fed : ∀ id w, m.variableAt? id = some w → w.owner < k → m.Fed t id
  computed : ∀ j < k, ∀ c, m.components[j]? = some c → m.Recomputes .real t c t.outputs
  unconnected : ∀ id w, m.source? id = none → m.variableAt? id = some w → w.kind = .input →
    t.inputs.AgreeOn w.span s.inputs
  held : ∀ c ∈ m.components, c.component.Still →
    t.outputs.readReal c.outputs = s.outputs.readReal c.outputs
  isReal : s.outputs.IsReal → t.outputs.IsReal

theorem Forwarded.refl (hs : m.Formed s) : m.Forwarded 0 s s where
  formed := hs
  residuals_eq := rfl
  fed _ _ _ h := absurd h (Nat.not_lt_zero _)
  computed _ h := absurd h (Nat.not_lt_zero _)
  unconnected _ _ _ _ _ := .refl _ _
  held _ _ _ := rfl
  isReal h := h

section Step

variable (hm : m.Laid) (hc : m.components[k]? = some c)

include hm hc

/-- **No step invalidates what earlier ones left.** When a component of a feed-forward model runs, it
joins those that are up to date. -/
theorem Forwarded.step (hforward : m.Forward)
    (hpure : c.component.Pure c.outputs.size ∨ c.component.Still) (h : m.Forwarded k s t)
    (hcompute : (m.compute k .real).perform (m.pull m.root.components c t) = (.ok (), u)) :
    m.Forwarded (k + 1) s u := by
  have hpulled : m.Formed (m.pull m.root.components c t) := h.formed.pull _ c
  have hformed : m.Formed u := (formed_compute k .real).of_ok hpulled hcompute
  obtain ⟨c', memory, memory', hc', hinputs, hresiduals, heval⟩ := exists_of_compute hcompute
  obtain rfl := Option.some.inj (hc.symm.trans hc')
  rw [outputs_pull] at heval
  have hstop : c.outputs.stop ≤ m.outputLength := hm.inside c (List.mem_of_getElem? hc) .output
  -- other inputs are not pulled, and other outputs are not computed
  have hother {id : Nat} {w : ModelVariable R} (hw : m.variableAt? id = some w)
      (hkind : w.kind = .input) (hw' : m.source? id = none ∨ w.owner ≠ k) :
      u.inputs.AgreeOn w.span t.inputs := by
    rw [hinputs]
    exact hm.agreeOn_pull_of_other hc _ t hw hkind hw'
  have hout (span : Span) (hspan : span.Apart c.outputs) : u.outputs.AgreeOn span t.outputs :=
    Component.agreeOn_of_evaluate hspan heval
  have hsource {source : Nat} {v : ModelVariable R} (hv : m.variableAt? source = some v)
      (hkind : v.kind = .output) (hlt : v.owner < k) : u.outputs.AgreeOn v.span t.outputs :=
    hout v.span (hm.apart_outputs hc hv hkind hlt.ne)
  refine ⟨hformed, hresiduals.trans ((residuals_pull _ _ _).trans h.residuals_eq),
    fun id w hw hlt => ?_, fun j hj d hd => ?_, fun id w hnone hw hkind => ?_, fun d hd hstill => ?_,
    fun hs => ?_⟩
  · intro source v w' hconnected hv hw'
    obtain rfl := Option.some.inj (hw.symm.trans hw')
    obtain ⟨v', w', hv', hvkind, hw', hwkind, -⟩ := hm.matching _ _ hconnected
    obtain rfl := Option.some.inj (hv.symm.trans hv')
    obtain rfl := Option.some.inj (hw.symm.trans hw')
    have hearlier := hforward id source v w hconnected hv hw
    rcases (Nat.lt_succ_iff_lt_or_eq.1 hlt) with hlt | howner
    · have hkept := h.fed id w hw hlt source v w hconnected hv hw
      exact hkept.congr (hother hw hwkind (.inr hlt.ne)) (hsource hv hvkind (hearlier.trans hlt))
    · have hmem : id ∈ c.inputIds := by
        have := (hm.mem_idsOf_iff hc hw).2 howner
        rwa [hwkind] at this
      have hfed := hm.fed_pull h.formed (.inl hmem) source v w hconnected hv hw
      rw [outputs_pull] at hfed
      rw [hinputs]
      exact hfed.congr (.refl _ _) (hsource hv hvkind (howner ▸ hearlier))
  · rcases (Nat.lt_succ_iff_lt_or_eq.1 hj) with hlt | rfl
    · refine (h.computed j hlt d hd).congr ?_ (hout _ (hm.apart_spanOf hd hc hlt.ne .output))
      rw [hinputs]
      exact hm.agreeOn_pull_of_apart hc _ t (hm.apart_spanOf hd hc hlt.ne .input)
    · obtain rfl := Option.some.inj (hc.symm.trans hd)
      obtain ⟨w, -, hsame, -, hagain⟩ := Component.evaluate_again hpure (h.formed.outputs.covers hstop)
        (hformed.outputs.covers hstop) heval rfl rfl
      obtain rfl := hsame rfl
      intro ν
      rw [hinputs]
      exact hagain ν
  · exact (hother hw hkind (.inl hnone)).trans (h.unconnected id w hnone hw hkind)
  · obtain ⟨j, hj⟩ := List.mem_iff_getElem?.1 hd
    refine Eq.trans ?_ (h.held d hd hstill)
    by_cases hjk : j = k
    · subst hjk
      obtain rfl := Option.some.inj (hc.symm.trans hj)
      exact hstill.readReal_of_evaluate heval
    · exact (hout _ (hm.apart_spanOf hj hc hjk .output)).readReal
  · obtain ⟨-, z, -, hstored⟩ | ⟨hfalse, -⟩ := Component.evaluate_eq_ok.1 heval
    · rw [hstored]
      exact (h.isReal hs).storeReal _ _
    · cases hfalse

end Step

section Run

variable [DirectSolver R] (hm : m.Laid)

include hm

/-- **A schedule of groups that run once** leads from one component to the next. -/
theorem Forwarded.runSchedule (hforward : m.Forward)
    (hpure : ∀ c ∈ m.components, c.component.Pure c.outputs.size ∨ c.component.Still) {path : String}
    {members : Members R M} {schedule : Schedule R} {stop : Nat}
    (hfollows : Schedule.Follows m.components path members schedule k stop)
    (honce : ∀ e ∈ schedule.groups, e.1.solver = .runOnce) (h : m.Forwarded k s t)
    (hrun : (m.runSchedule .all .real m.root.components schedule).perform t = (.ok (), u)) :
    m.Forwarded stop s u := by
  induction hfollows generalizing t u with
  | empty path k =>
    cases hrun
    exact h
  | component hget _ _ _ ih =>
    unfold Model.runSchedule at hrun
    obtain ⟨c, hc, hrun⟩ := Action.ofOutcome_bind_eq_ok.1 hrun
    obtain ⟨⟨⟩, p, hpull, hrun⟩ := Action.bind_eq_ok.1 hrun
    cases hpull
    obtain ⟨⟨⟩, next, hcompute, hrun⟩ := Action.bind_eq_ok.1 hrun
    rw [Outcome.ofOption_eq_ok] at hc
    exact ih honce (h.step hm hc hforward (hpure c (List.mem_of_getElem? hc)) hcompute) hrun
  | @group _ _ _ _ _ x body schedule _ _ _ _ _ _ ihBody ihRest =>
    unfold Model.runSchedule at hrun
    rw [honce (x, body) List.mem_cons_self] at hrun
    obtain ⟨⟨⟩, next, hbody, hrun⟩ := Action.bind_eq_ok.1 hrun
    have hinner := ihBody (fun e he => honce e (List.mem_cons_of_mem _ (List.mem_append_left _ he)))
      h hbody
    exact ihRest (fun e he => honce e (List.mem_cons_of_mem _ (List.mem_append_right _ he))) hinner hrun

/-- **Where everything is up to date, a run leads nowhere.** -/
theorem UpToDate.runSchedule {schedule : Schedule R}
    (honce : ∀ e ∈ schedule.groups, e.1.solver = .runOnce)
    (hinside : ∀ k ∈ schedule.components, k < m.components.length) (hs : m.Formed s)
    (h : m.UpToDate s) : Action.Yields
      (fun _ t => m.Formed t ∧ t.inputs = s.inputs ∧ t.outputs = s.outputs ∧ t.residuals = s.residuals)
      ((m.runSchedule .all .real m.root.components schedule).perform s) := by
  induction schedule generalizing s with
  | done => exact Action.yields_pure ⟨hs, rfl, rfl, rfl⟩
  | component k rest ih =>
    have hlt := hinside k List.mem_cons_self
    have hc := List.getElem?_eq_getElem hlt
    have hlt' : k < s.components.length := hs.components ▸ hlt
    have hkept := List.getElem?_eq_getElem hlt'
    unfold Model.runSchedule
    refine Action.yields_ofOutcome_bind ((Outcome.ofOption_eq_ok _ _).2 hc) ?_
    refine Action.yields_modify_bind ?_
    rw [hm.pull_of_fed fun id _ => h.connected id]
    refine Action.yields_bind (Q := fun _ t => m.Formed t ∧ t.inputs = s.inputs ∧
      t.outputs = s.outputs ∧ t.residuals = s.residuals) ?_ ?_
    · obtain ⟨memory', heval⟩ := h.computed _ (List.mem_of_getElem? hc) s.components[k].memory
      have hran : (m.compute k .real).perform s = (.ok (), { s.modifyComponent k fun l =>
          { l with memory := memory', runs := l.runs + 1 } with outputs := s.outputs }) := by
        simp only [compute, component, Action.perform_bind, Action.perform_ofOutcome, hc,
          Outcome.ofOption, kept, Action.perform_read, hkept, Action.perform_of, heval]
        rfl
      exact ⟨(), _, hran, (formed_compute k .real).of_ok hs hran, rfl, rfl, rfl⟩
    · rintro ⟨⟩ t ⟨ht, hinputs, houtputs, hresiduals⟩
      refine (ih honce (fun k hk => hinside k (List.mem_cons_of_mem _ hk)) ht
        (h.congr hinputs houtputs)).mono ?_
      rintro ⟨⟩ u ⟨hu, hinputs', houtputs', hresiduals'⟩
      exact ⟨hu, hinputs'.trans hinputs, houtputs'.trans houtputs, hresiduals'.trans hresiduals⟩
  | group x body rest ihBody ihRest =>
    unfold Model.runSchedule
    rw [honce (x, body) List.mem_cons_self]
    have hbody := ihBody (fun e he => honce e (List.mem_cons_of_mem _ (List.mem_append_left _ he)))
      (fun k hk => hinside k (List.mem_append_left _ hk)) hs h
    refine Action.yields_bind hbody ?_
    rintro ⟨⟩ t ⟨ht, hinputs, houtputs, hresiduals⟩
    have hrest := ihRest (fun e he => honce e (List.mem_cons_of_mem _ (List.mem_append_right _ he)))
      (fun k hk => hinside k (List.mem_append_right _ hk)) ht (h.congr hinputs houtputs)
    refine hrest.mono ?_
    rintro ⟨⟩ u ⟨hu, hinputs', houtputs', hresiduals'⟩
    exact ⟨hu, hinputs'.trans hinputs, houtputs'.trans houtputs, hresiduals'.trans hresiduals⟩

end Run

/-- What a run from one state to another leaves: everything is up to date, and another run changes no
vector. Unconnected inputs are as they were, and so are the outputs that components hold; their
imaginary parts are zero afterwards. -/
structure Fixed [DirectSolver R] (m : Model R M) (s t : ModelState R M) : Prop extends
    m.UpToDate t where
  unconnected : ∀ id w, m.source? id = none → m.variableAt? id = some w → w.kind = .input →
    t.inputs.AgreeOn w.span s.inputs
  held : ∀ c ∈ m.components, c.component.Still →
    t.outputs.readReal c.outputs = s.outputs.readReal c.outputs ∧
      (s.outputs.IsReal → t.outputs.AgreeOn c.outputs s.outputs)
  again : ∃ u, m.run.perform t = (.ok (), u) ∧ u.inputs = t.inputs ∧ u.outputs = t.outputs ∧
    u.residuals = t.residuals

/-- **A run of a feed-forward model reaches a fixed point.** In a model whose groups all run once,
whose connections lead to components that run later, and whose components are pure or hold their
outputs, a run that ends without an error leaves every connected input as its source is, and every
output as it is computed from the stored inputs. It changes neither unconnected inputs nor outputs
that are held, and a second run succeeds and changes nothing. -/
theorem fixed_of_run [DirectSolver R] {g : Group R M} {settings : SetupSettings}
    (h : ofGroup g settings = .ok m) (honce : ∀ e ∈ m.groups, e.1.solver = .runOnce)
    (hforward : m.Forward)
    (hpure : ∀ c ∈ m.components, c.component.Pure c.outputs.size ∨ c.component.Still)
    (hs : m.Formed s) (hrun : m.run.perform s = (.ok (), t)) : m.Fixed s t := by
  have hm := laid_of_ofGroup h
  have hfollows := (consistent_of_ofGroup h).follows
  have hinner : ∀ e ∈ m.schedule.groups, e.1.solver = .runOnce := fun e he =>
    honce e (List.mem_cons_of_mem _ he)
  have hinside : ∀ k ∈ m.schedule.components, k < m.components.length := by
    rw [hfollows.components_eq]
    intro k hk
    have := (List.mem_range'_1.1 hk).2
    omega
  -- the root runs once as well, so a run is one of its schedule
  have hroot (s : ModelState R M) :
      m.run.perform s = (m.runSchedule .all .real m.root.components m.schedule).perform s := by
    rw [run, solveGroup, ← hm.root_eq, Model.runSchedule, honce _ List.mem_cons_self]
    exact congrArg (Action.perform · s) bind_pure_unit
  rw [hroot] at hrun
  have hend := (Forwarded.refl hs).runSchedule hm hforward hpure hfollows hinner hrun
  have hupToDate : m.UpToDate t := by
    refine ⟨fun id => ?_, fun c hc => ?_⟩
    · intro source v w hsource hv hw
      obtain ⟨c, hc, -⟩ := hm.owned id w hw
      exact hend.fed id w hw (List.getElem?_eq_some_iff.1 hc).1 source v w hsource hv hw
    · obtain ⟨k, hk⟩ := List.mem_iff_getElem?.1 hc
      exact hend.computed k (List.getElem?_eq_some_iff.1 hk).1 c hk
  refine { hupToDate with
    unconnected := hend.unconnected
    held := fun c hc hstill => ⟨hend.held c hc hstill, fun hreal => ⟨hend.held c hc hstill, ?_⟩⟩
    again := ?_ }
  · rw [(hend.isReal hreal).imag_eq hreal hend.formed.outputs hs.outputs]
  · obtain ⟨⟨⟩, u, hu, -, hvectors⟩ := hupToDate.runSchedule hm hinner hinside hend.formed
    exact ⟨u, (hroot t).trans hu, hvectors⟩

section Chain

/-- A source, tripled in a group, and tripled again in a group inside it. -/
def chainGroup : Group Float Unit where
  settings := { GroupSettings.plain with connections := [("source.x", "outer.first.x")] }
  members := .component "source" (.independent () [("x", .scalar 1.0)]) <|
    .group "outer" { GroupSettings.plain with connections := [("first.y", "inner.second.x")] }
      (.component "first" triple.toComponent <|
        .group "inner" .plain (.component "second" triple.toComponent .empty) .empty) .empty

theorem isSome_chain : (ofGroup chainGroup .standard).toOption.isSome = true := by decide +kernel

/-- The model of the chain. -/
def chainModel : Model Float Unit := (ofGroup chainGroup .standard).toOption.get isSome_chain

theorem ofGroup_chain : ofGroup chainGroup .standard = .ok chainModel :=
  Except.eq_ok_of_toOption (Option.some_get isSome_chain).symm

theorem isSome_chainStart : chainModel.start.toOption.isSome = true := by decide +kernel

/-- The model at the start. -/
def chainStart : ModelState Float Unit := chainModel.start.toOption.get isSome_chainStart

theorem chain_once : ∀ e ∈ chainModel.groups, e.1.solver = .runOnce := by
  have h : chainModel.groups.all (fun e => runsOnce e.1.solver) = true := by decide +kernel
  intro e he
  have honce := List.all_eq_true.1 h e he
  cases hsolver : e.1.solver with
  | runOnce => rfl
  | newton settings =>
    rw [hsolver] at honce
    cases honce

theorem chain_pure : ∀ c ∈ chainModel.components,
    c.component.Pure c.outputs.size ∨ c.component.Still := by
  have hsize : ∀ c ∈ chainModel.components, c.outputs.size = 1 := by decide +kernel
  intro c hc
  have hmem : c.component ∈ chainGroup.members.components := by
    rw [← components_of_ofGroup ofGroup_chain]
    exact List.mem_map_of_mem hc
  rw [hsize c hc]
  rcases List.mem_cons.1 hmem with h | hmem
  · exact .inr (h ▸ Component.still_independent _ _)
  · refine .inl ?_
    rcases List.mem_cons.1 hmem with h | hmem
    · exact h ▸ pure_triple
    · exact List.mem_singleton.1 hmem ▸ pure_triple

theorem formed_chain : chainModel.Formed chainStart :=
  ⟨⟨by decide +kernel, by decide +kernel⟩, ⟨by decide +kernel, by decide +kernel⟩, by decide +kernel⟩

/-- A run of the chain comes to a point that another run does not leave. -/
theorem fixed_chain : chainModel.Forward ∧ chainModel.Formed chainStart ∧
    ∃ t, chainModel.run.perform chainStart = (.ok (), t) ∧ chainModel.Fixed chainStart t := by
  have hforward : chainModel.Forward := forward_of_owners (by decide +kernel)
  have hrun : (chainModel.run.perform chainStart).1.toOption = some () := by decide +kernel
  have hrun := Action.perform_eq_ok (Except.eq_ok_of_toOption hrun)
  exact ⟨hforward, formed_chain, _, hrun,
    fixed_of_run ofGroup_chain chain_once hforward chain_pure formed_chain hrun⟩

end Chain

end Model

end Sensitivity
