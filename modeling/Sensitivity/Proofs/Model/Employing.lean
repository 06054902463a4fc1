import Sensitivity.Proofs.Approximation.Moving
import Sensitivity.Proofs.Model.Interrupting

/-!
# The schemes that a model employs

A model keeps schemes for the methods of its components and for its groups, and makes new ones for
checks. Whatever operations do, a scheme that is kept was made for the place where it is kept, and all
that has happened to it since is work on targets (`ModelState.Tended`). This holds wherever an operation
is broken off (`Model.sustains_tended_operation`), so in all states that operations pass through
(`Model.Passes.tended`).

So every step that an approximation takes in a model is accounted for
(`Model.accounted_of_employs`): the only steps that cannot be taken are those whose scaling overflows,
and the defaults that a check is given, which nothing looks at.
-/

namespace Sensitivity

open Scheme (Worked)

variable {R M N : Type} [Scalar R]

/-- The schemes that a state keeps were made for the methods of components and for groups, and have
worked since. -/
structure ModelState.Tended (s : ModelState R M) : Prop where
  methods : ∀ kept ∈ s.methods, ∀ a ∈ kept, a.scheme.Worked .component
  groups : ∀ a, some a ∈ s.schemes → a.Worked .group

namespace ModelState

variable {s : ModelState R M} {c : Nat}

theorem Tended.congr {t : ModelState R N} (h : s.Tended) (hmethods : t.methods = s.methods)
    (hschemes : t.schemes = s.schemes) : t.Tended := ⟨hmethods ▸ h.methods, hschemes ▸ h.groups⟩

theorem Tended.setVector (h : s.Tended) (kind : VariableKind) {v : StateVector R} :
    (s.setVector kind v).Tended := by cases kind <;> exact h.congr rfl rfl

theorem Tended.modifyComponent (h : s.Tended) {f : ComponentState R M → ComponentState R M}
    (hf : ∀ k, (f k).methods = k.methods) : (s.modifyComponent c f).Tended :=
  h.congr (methods_modifyComponent hf) rfl

theorem Tended.ran (h : s.Tended) (c : Nat) (memory : M) (count : Nat → Nat) :
    (s.modifyComponent c fun k => { k with memory := memory, runs := count k.runs }).Tended :=
  h.modifyComponent fun _ => rfl

/-- What is kept for a method may be replaced, if it has worked. -/
theorem Tended.modifyMethod (h : s.Tended) (place : Nat) {f : MethodState R → MethodState R}
    (hf : ∀ a, (f a).scheme.Worked .component) :
    (s.modifyComponent c fun k => { k with methods := k.methods.modify place f }).Tended := by
  refine ⟨fun kept hkept a ha => ?_, h.groups⟩
  obtain ⟨k, hk, rfl⟩ := List.mem_map.1 hkept
  obtain ⟨n, hn⟩ := List.getElem?_of_mem hk
  rw [ModelState.modifyComponent, List.getElem?_modify, Option.map_eq_map,
    Option.map_eq_some_iff] at hn
  obtain ⟨old, hold, rfl⟩ := hn
  have hold : old.methods ∈ s.methods := List.mem_map_of_mem (List.mem_of_getElem? hold)
  split at ha
  · obtain ⟨p, hp⟩ := List.getElem?_of_mem ha
    rw [List.getElem?_modify, Option.map_eq_map, Option.map_eq_some_iff] at hp
    obtain ⟨b, hb, rfl⟩ := hp
    split
    · exact hf b
    · exact h.methods _ hold b (List.mem_of_getElem? hb)
  · exact h.methods _ hold a ha

/-- The scheme of a group may be replaced, if it has worked. -/
theorem Tended.keepScheme (h : s.Tended) (g : ModelGroup R) {a : Scheme R} (ha : a.Worked .group) :
    (Model.keepScheme g a s).Tended := by
  refine ⟨h.methods, fun b hb => ?_⟩
  rcases List.mem_or_eq_of_mem_set hb with hb | hb
  · exact h.groups b hb
  · exact Option.some.inj hb ▸ ha

theorem Tended.group (h : s.Tended) {n : Nat} {a : Scheme R} (ha : s.schemes[n]?.join = some a) :
    a.Worked .group :=
  h.groups a (List.mem_of_getElem? (Option.join_eq_some_iff.1 ha))

end ModelState

/-- A selection is work. -/
theorem MethodState.worked_select {a b : MethodState R} {partials : List (DeclaredPartial R)}
    {places : List Nat} {relevant : Option (List Bool)} (ha : a.scheme.Worked .component)
    (h : a.select partials places relevant = .ok b) : b.scheme.Worked .component := by
  unfold select at h
  dsimp only at h
  split at h
  · cases h
    exact ha
  · obtain ⟨scheme, hscheme, h⟩ := Except.bind_eq_ok.1 h
    cases h
    exact ha.clear.addRequests hscheme

namespace Model

open ModelState (Tended)

variable {m : Model R M} {s t : ModelState R M} {c : Nat}

section Linearize

/-- **A method has worked wherever its approximation is broken off.** -/
theorem sustains_tended_approximatePartials (place : Nat) (places : List Nat)
    (relevant : Option (List Bool)) (x y : Array R) :
    (m.approximatePartials c place places relevant x y).Sustains Tended Tended := by
  unfold approximatePartials
  refine Action.sustains_ofOutcome_bind fun component _ s hs => ?_
  refine Action.ends_read_bind hs fun kept hkept => ?_
  refine Action.ends_ofOutcome_bind hs fun state hstate => ?_
  refine Action.ends_ofOutcome_bind hs fun chosen hchosen => ?_
  rw [Outcome.ofOption_eq_ok] at hkept hstate
  rw [Outcome.mapError_eq_ok, Outcome.ofExcept_eq_ok] at hchosen
  have hworked : chosen.scheme.Worked .component := by
    refine MethodState.worked_select (hs.methods kept.methods ?_ state ?_) hchosen
    · exact List.mem_map_of_mem (List.mem_of_getElem? hkept)
    · exact List.mem_of_getElem? hstate
  have hstored : (s.modifyComponent c fun k =>
      { k with methods := k.methods.modify place fun _ => chosen }).Tended :=
    hs.modifyMethod place fun _ => hworked
  refine Action.ends_bind (P := Tended) (.inl hstored) fun _ t ht _ => ?_
  obtain rfl : s.modifyComponent c _ = t := congrArg Prod.snd ht
  dsimp only
  split
  · exact .inl hstored
  refine Action.ends_bind (P := Tended) (.inl hstored) fun _ t ht _ => ?_
  obtain rfl : s.modifyComponent c _ = t := congrArg Prod.snd ht
  refine Action.ends_bind (P := Tended) (ends_onComponent component x y chosen.scheme _
    (E := Worked .component) (fun w hw => ?_) hstored fun a d μ runs ha => ?_)
    fun blocks t _ ht => ?_
  · obtain ⟨_, d, u⟩ := w
    obtain rfl := hw
    exact hworked.computeJacobian _ d u
  · exact ((hstored.ran c μ fun _ => runs).modifyMethod place (c := c)
      (f := fun k => { k with scheme := a }) fun _ => ha).congr rfl rfl
  · suffices h : Action.Sustains Tended Tended (storeBlocks c blocks : ModelWork R M Unit) from h t ht
    refine Action.sustains_forEach fun ((of, wrt), block) => ?_
    refine Action.sustains_bind (Action.sustains_read _) fun kept => ?_
    refine Action.sustains_bind (Action.sustains_ofOutcome _) fun partials => ?_
    exact Action.sustains_modify fun s hs => hs.modifyComponent fun _ => rfl

theorem sustains_tended_linearizeAt (c : Nat) (relevant : Option (List Bool))
    (baseline : Option (Array R)) :
    (m.linearizeAt c relevant baseline).Sustains Tended Tended := by
  unfold linearizeAt
  refine Action.sustains_bind (Action.sustains_ofOutcome _) fun component => ?_
  refine Action.sustains_bind Action.sustains_get fun s => ?_
  dsimp only
  split
  on_goal 1 => refine Action.sustains_bind (Action.sustains_fail _) fun _ => ?_
  all_goals
    refine Action.sustains_bind (Action.sustains_bind (Action.sustains_read _) fun _ =>
      fun s hs => .inl (hs.modifyComponent fun _ => rfl)) fun _ => ?_
    exact Action.sustains_forEach fun _ => sustains_tended_approximatePartials _ _ relevant _ _

end Linearize

section Evaluate

variable (m) in
/-- **Evaluations only put schemes to work**, in whichever arithmetic they are. -/
theorem sustained_tended (mode : Mode) : m.Sustained mode Tended Tended where
  pull scope component hs := of_pull (fun _ _ hs => hs.congr rfl rfl) scope component hs
  compute c := by
    refine Action.sustains_bind (Action.sustains_ofOutcome _) fun component => ?_
    refine Action.sustains_bind (Action.sustains_read _) fun kept s hs => .inl ?_
    exact (hs.ran c _ (· + 1)).congr rfl rfl
  linearizeAt c baseline := sustains_tended_linearizeAt c none baseline
  outputs _ _ hs := hs.congr rfl rfl
  residuals _ _ hs := hs.congr rfl rfl
  imagOutputs _ _ _ _ hs := hs.congr rfl rfl
  imagResiduals _ _ _ _ hs := hs.congr rfl rfl
  diagnostics _ hs := hs.congr rfl rfl

theorem sustains_tended_perturb (label name : String) (index : Nat) (delta : Delta R) :
    (m.perturb label name index delta).Sustains Tended Tended :=
  m.sustains_perturb_of_set (fun kind _ hs => hs.setVector kind) label name index delta

theorem sustains_tended_freshPartials (c : Nat) (component : ModelComponent R M)
    (check : Settings R) (site : Site R) :
    (m.freshPartials c component check site).Sustains Tended Tended := by
  unfold Model.freshPartials
  refine Action.sustains_bind (Action.sustains_ofOutcome _) fun scheme => ?_
  refine Action.sustains_get_bind fun s hs => ?_
  exact ends_onComponent component _ _ scheme _ (E := fun _ => True) (fun _ _ => trivial) hs
    fun a d μ runs _ => (hs.ran c μ fun _ => runs).congr rfl rfl

end Evaluate

variable [DirectSolver R]

section Group

theorem sustains_tended_solveGroup (g : ModelGroup R) (body : Schedule R) (active : ActiveSet)
    (mode : Mode) (scope : Span) :
    (m.solveGroup g body active mode scope).Sustains Tended Tended :=
  (m.sustained_tended mode).runSchedule active scope (.group g body .done)

variable (m) in
theorem groupTarget_tended (g : ModelGroup R) (body : Schedule R) :
    (m.groupTarget g body).Sustained Tended Tended Tended where
  perturb name index _ := sustains_tended_perturb g.label name index _
  evaluate active := Action.sustains_mapError _ (sustains_tended_solveGroup g body active .real _)
  restore _ _ hs := hs.congr rfl rfl
  enter _ _ _ hs := hs.congr rfl rfl
  perturbStep name index _ := sustains_tended_perturb g.label name index _
  evaluateStep active :=
    Action.sustains_mapError _ (sustains_tended_solveGroup g body active .complex _)
  restoreStep _ _ hs := hs.congr rfl rfl
  leave hs := hs.congr rfl rfl
  breach hs := hs
  restoreBreach _ _ hs := hs.congr rfl rfl

/-- **The work of a scheme on a group** is work, however it ends. -/
theorem ends_tended_onGroup (g : ModelGroup R) (body : Schedule R) {a : Scheme R}
    (ha : a.Worked .group) {keep : Scheme R → ModelState R M → ModelState R M}
    (hkeep : ∀ b u, b.Worked .group → u.Tended → (keep b u).Tended) (hs : s.Tended) :
    Action.Ends Tended Tended
      ((m.onGroup g body a keep Scheme.computeJacobian).perform s) := by
  have hwork := Scheme.sustains_computeJacobian (m.groupTarget_tended g body) ⟨a, .empty, s⟩ hs
  refine .inl (hkeep _ _ ?_ ((hwork.of_imp fun _ h => h).congr rfl rfl))
  exact ha.computeJacobian (m.groupTarget g body) .empty s

omit [DirectSolver R] in
/-- The scheme of the root is given other requests, which is work, and kept. -/
theorem ends_tended_prepareRoot {a : Scheme R} (ha : a.Worked .group) (requests : List (Request R))
    (hs : s.Tended) : Action.Ends Tended Tended ((m.prepareRoot a requests).perform s) ∧
      ∀ b, ((m.prepareRoot a requests).perform s).1 = .ok b → b.Worked .group := by
  unfold prepareRoot
  rw [Action.perform_get_bind]
  split
  · exact ⟨.inl hs, fun b hb => Except.ok.inj hb ▸ ha⟩
  cases hadded : a.clearRequests.addRequests requests with
  | error e => exact ⟨.inl hs, fun _ hb => nomatch hb⟩
  | ok b =>
    have hb : b.Worked .group := ha.clear.addRequests hadded
    exact ⟨.inl ((hs.keepScheme m.root hb).congr rfl rfl), fun b' hb' => Except.ok.inj hb' ▸ hb⟩

theorem sustains_tended_approximatedTotals (of wrt : List (DriverVariable R))
    (settings : Settings R) : (m.approximatedTotals of wrt settings).Sustains Tended Tended := by
  unfold approximatedTotals
  refine Action.sustains_bind (Action.sustains_ofOutcome _) fun requests => ?_
  refine Action.sustains_get_bind fun s hs => ?_
  have hkept : (s.schemes[m.root.number]?.join.getD
      (.empty m.root.label .group m.policy)).Worked .group := by
    cases hscheme : s.schemes[m.root.number]?.join with
    | none => exact .new _ _ _
    | some a => exact hs.group hscheme
  obtain ⟨hprepared, hworked⟩ := ends_tended_prepareRoot (m := m) hkept requests hs
  refine Action.ends_bind hprepared fun b t hb ht => ?_
  refine Action.ends_bind (ends_tended_onGroup m.root m.schedule (hworked b (congrArg Prod.fst hb))
    (fun b u hb hu => hu.keepScheme m.root hb) ht) fun blocks u _ hu => ?_
  suffices h : Action.Sustains Tended Tended _ from h u hu
  exact Action.sustains_bind (Action.sustains_mapM fun (names, q) =>
    sustains_namedBlock blocks names q) fun _ => Action.sustains_pure _

end Group

variable (m) in
theorem undisturbed_tended : m.Undisturbed Tended Tended where
  linearizeAt c relevant := sustains_tended_linearizeAt c relevant none
  freshPartials := sustains_tended_freshPartials
  approximateGroup body hs hscheme :=
    ends_tended_onGroup _ body (hs.group hscheme) (fun _ _ hb hu => hu.keepScheme _ hb) hs
  approximatedTotals of wrt settings _ := sustains_tended_approximatedTotals of wrt settings
  approximateAfresh g body scheme s hs := .inl <|
    ((Scheme.sustains_computeJacobian (m.groupTarget_tended g body) ⟨scheme, .empty, s⟩ hs).of_imp
      fun _ h => h).congr rfl rfl

/-- **Operations only put the schemes of a model to work**, wherever they are broken off. -/
theorem sustains_tended_operation (op : Operation R) : (op.work m).Sustains Tended Tended :=
  m.undisturbed_tended.operation (fun kind _ hs => hs.setVector kind)
    (sustains_tended_solveGroup _ _ .all .real _) op

omit [DirectSolver R] in
/-- A model starts with new schemes. -/
theorem tended_start (hstart : m.start = .ok s) : s.Tended := by
  obtain ⟨schemes, hschemes, hs⟩ := Except.bind_eq_ok.1 hstart
  rw [Outcome.mapError_eq_ok, Outcome.ofExcept_eq_ok] at hschemes
  cases hs
  refine ⟨fun kept hkept a ha => ?_, fun a ha => ?_⟩
  · obtain ⟨k, hk, rfl⟩ := List.mem_map.1 hkept
    obtain ⟨component, -, rfl⟩ := List.mem_map.1 hk
    obtain ⟨-, -, rfl⟩ := List.mem_map.1 ha
    exact .new _ _ _
  · obtain ⟨g, -, hg⟩ := (Except.mem_mapM hschemes).1 ha
    unfold startScheme at hg
    split at hg
    · cases hg
    · split at hg
      · cases hg
        exact .new _ _ _
      · obtain ⟨b, hb, hg⟩ := Except.bind_eq_ok.1 hg
        cases hg
        exact Worked.addRequests (.new _ _ _) hb

theorem Reaches.tended {ops : List (Operation R)} (h : m.Reaches s ops t) (hs : s.Tended) :
    t.Tended := h.preserves (fun op => (sustains_tended_operation op).preserves) hs

omit [DirectSolver R] in
theorem tended_forget {forget : N → M} {s : ModelState R N} :
    (s.forget forget).Tended ↔ s.Tended :=
  ⟨fun h => h.congr (ModelState.methods_forget forget s).symm rfl,
    fun h => h.congr (ModelState.methods_forget forget s) rfl⟩

/-- **Wherever an operation passes through**, schemes are where they were made for and have worked. -/
theorem Passes.tended {op : Operation R} (h : m.Passes op s t) (hs : s.Tended) : t.Tended := by
  obtain ⟨N, forget, m', s', hm, rfl, rfl⟩ := h
  exact tended_forget.2
    ((sustains_tended_operation op s' (tended_forget.1 hs)).of_imp fun _ h => h)

end Model

/-- The schemes that a model in some state works with: those that it keeps and new ones, as they are or
with other requests. -/
inductive ModelState.Employs (s : ModelState R M) : Site R → Scheme R → Prop
  | method {kept : List (MethodState R)} {a : MethodState R} (hkept : kept ∈ s.methods)
    (ha : a ∈ kept) : Employs s .component a.scheme
  | group {a : Scheme R} (ha : some a ∈ s.schemes) : Employs s .group a
  | new (owner : String) (site : Site R) (policy : PatternPolicy) :
    Employs s site (.empty owner site policy)
  | clear {site : Site R} {a : Scheme R} (ha : Employs s site a) : Employs s site a.clearRequests
  | fill {site : Site R} {a b : Scheme R} {qs : List (Request R)} (ha : Employs s site a)
    (hb : a.addRequests qs = .ok b) : Employs s site b

theorem ModelState.Employs.worked {s : ModelState R M} {site : Site R} {a : Scheme R}
    (h : s.Employs site a) (hs : s.Tended) : a.Worked site := by
  induction h with
  | method hkept ha => exact hs.methods _ hkept _ ha
  | group ha => exact hs.groups _ ha
  | new => exact .new _ _ _
  | clear _ ih => exact ih.clear
  | fill _ hb ih => exact ih.addRequests hb

namespace Model

/-- **Every step in a model is accounted for.** After any history of a model, in whatever state an
operation passes through, take a scheme that it works with there, for partials, for totals or for a
check, and any call on it at any state of any target. Noting the moves that the call asks for changes
nothing else; and each move is asked for by a request, for an entry that it selects, by a step that is
at least the smallest one under a relative rule. The steps that are not positive and finite are those
whose scaling overflows, and the absolute steps of a check that are its own default steps, neither
positive and finite nor zero. -/
theorem accounted_of_employs {m : Model Float M} {first s t : ModelState Float M}
    {ops : List (Operation Float)} {op : Operation Float} (hstart : m.start = .ok first)
    (hs : m.Reaches first ops s) (ht : m.Passes op s t) {site : Site Float} {a : Scheme Float}
    (ha : t.Employs site a) {σ : Type} (T : Target Float σ) (c : Scheme.Call Float)
    (d : Diagnostics) (u : σ) : a.site = site ∧
      (c.run T).perform ⟨a, d, u⟩ = (((c.run T.noting).perform ⟨a, d, u, []⟩).1,
        ((c.run T.noting).perform ⟨a, d, u, []⟩).2.image Prod.fst) ∧
      Target.Noted (Scheme.Accounted T a u) ((c.run T.noting).perform ⟨a, d, u, []⟩).2.target := by
  have hworked := ha.worked (ht.tended (hs.tended (tended_start hstart)))
  exact ⟨hworked.upToDate.1, Scheme.Call.mirrors_run T.mirrored_noting c ⟨a, d, u, []⟩,
    hworked.accounted Double.usable_standard T c d u⟩

section Curve

/-- The curve after a run. -/
def curveRun : ModelState Float Unit := curveAfter .run curveStart

theorem reaches_run : curveModel.Reaches curveStart [.run] curveRun :=
  .cons _ (show ((Operation.run.work curveModel).perform curveStart).1.Answers by decide +kernel)
    (.nil _)

theorem isSome_curveComponent : curveModel.components[1]?.isSome = true := by decide +kernel

/-- The component with the curve. -/
def curveComponent : ModelComponent Float Unit :=
  curveModel.components[1]?.get isSome_curveComponent

/-- The variables of the curve, as its approximations find them. -/
def curveScope : ComponentScope Float Unit :=
  ⟨(), 1, .ofReal #[2.0] false, .ofReal #[4.0, 6.0] false, .empty⟩

/-- The moves that are noted while a scheme approximates the partials of the curve. -/
def curveMoves (a : Scheme Float) : List (Move Float) :=
  (((Scheme.Call.compute).run (curveComponent.target false).noting).perform
    ⟨a, .empty, curveScope, []⟩).2.target.2

theorem isSome_curveMethod : ((curveAfter centralCheck curveRun).methods[1]?.bind
    fun kept => kept[0]?).isSome = true := by decide +kernel

/-- What the curve keeps for its forward differences. -/
def curveMethod : MethodState Float :=
  ((curveAfter centralCheck curveRun).methods[1]?.bind fun kept => kept[0]?).get isSome_curveMethod

/-- In the state after a run and a check, the curve moves its input by the usual step, which is
accounted for. -/
theorem accounted_curve : curveModel.start = .ok curveStart ∧
    curveModel.Reaches curveStart [.run] curveRun ∧
    curveModel.Passes centralCheck curveRun (curveAfter centralCheck curveRun) ∧
    (curveAfter centralCheck curveRun).Employs .component curveMethod.scheme ∧
    curveMethod.scheme.site = .component ∧
    ⟨"x", 0, .real 1e-6⟩ ∈ curveMoves curveMethod.scheme ∧
    Scheme.Accounted (curveComponent.target false) curveMethod.scheme curveScope
      ⟨"x", 0, .real 1e-6⟩ := by
  have hpasses : curveModel.Passes centralCheck curveRun (curveAfter centralCheck curveRun) :=
    passes_perform centralCheck curveRun
  obtain ⟨kept, hkept, hmethod⟩ := Option.bind_eq_some_iff.1 (Option.some_get isSome_curveMethod).symm
  have hemploys : (curveAfter centralCheck curveRun).Employs .component curveMethod.scheme :=
    .method (List.mem_of_getElem? hkept) (List.mem_of_getElem? hmethod)
  have hmoves : curveMoves curveMethod.scheme = [⟨"x", 0, .real 1e-6⟩] := by decide +kernel
  have hmem : ⟨"x", 0, .real 1e-6⟩ ∈ curveMoves curveMethod.scheme :=
    hmoves ▸ List.mem_singleton_self _
  obtain ⟨hsite, -, haccounted⟩ := accounted_of_employs start_curve reaches_run hpasses hemploys
    (curveComponent.target false) .compute .empty curveScope
  exact ⟨start_curve, reaches_run, hpasses, hemploys, hsite, hmem, haccounted _ hmem⟩

/-- A check whose default step for one-sided differences is negative. -/
def backwardCheck : CheckSettings Float :=
  { CheckSettings.standard with defaults := { BaseSteps.standard with oneSided := -0.5 } }

/-- The requests of the check. -/
def backwardRequests : List (Request Float) :=
  (curveComponent.layout.outputs.keys.flatMap fun of => curveComponent.layout.inputs.keys.map
    fun wrt => Request.whole of wrt (backwardCheck.resolve curveComponent.checkSettings))

/-- **A check that is accepted takes a negative step.** Its default step is never looked at: the curve
is checked, the report says that the step is -0.5, and the scheme of the check moves the input, whose
value is 2, by -0.5. No scaling overflows, as the rule is the absolute one. -/
theorem exists_misled_check : ∃ (s t : ModelState Float Unit) (report : Report Float)
    (a : Scheme Float), ofGroup curveGroup .standard = .ok curveModel ∧
    curveModel.start = .ok curveStart ∧ curveModel.Reaches curveStart [.run] s ∧
    (curveModel.checkPartials backwardCheck).perform s = (.ok report, t) ∧
    report.scopes.map (fun scope => (scope.scope, scope.step)) = [("curve", -0.5)] ∧
    curveModel.components[1]? = some curveComponent ∧
    (Scheme.empty curveComponent.path (backwardCheck.site false) .ignore).addRequests
      backwardRequests = .ok a ∧
    ⟨"x", 0, .real (-0.5)⟩ ∈ curveMoves a ∧
    (curveComponent.target false).values curveScope "x" .real = .ok [2.0] ∧
    (backwardCheck.resolve curveComponent.checkSettings).stepRule = .absolute ∧
    Settings.usableStep (-0.5 : Float) = false := by
  have hchecked : ((curveModel.checkPartials backwardCheck).perform curveRun).1.toOption.map
      (fun report => report.scopes.map fun scope => (scope.scope, scope.step)) =
        some [("curve", -0.5)] := by decide +kernel
  have hmoved : ((Scheme.empty curveComponent.path (backwardCheck.site false) .ignore).addRequests
      backwardRequests).toOption.map curveMoves = some [⟨"x", 0, .real (-0.5)⟩] := by decide +kernel
  have hvalues : ((curveComponent.target false).values curveScope "x" .real).toOption =
      some [2.0] := by decide +kernel
  obtain ⟨report, hreport, hscopes⟩ := Option.map_eq_some_iff.1 hchecked
  obtain ⟨a, ha, hmoves⟩ := Option.map_eq_some_iff.1 hmoved
  exact ⟨curveRun, _, report, a, ofGroup_curve, start_curve, reaches_run,
    Action.perform_eq_ok (Except.eq_ok_of_toOption hreport), hscopes,
    (Option.some_get isSome_curveComponent).symm, Except.eq_ok_of_toOption ha,
    hmoves ▸ List.mem_singleton_self _, Except.eq_ok_of_toOption hvalues, by decide +kernel,
    by decide +kernel⟩

end Curve

end Model

end Sensitivity
