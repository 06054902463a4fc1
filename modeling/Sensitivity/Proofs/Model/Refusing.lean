import Sensitivity.Check
import Sensitivity.Proofs.Approximation.Quotients
import Sensitivity.Proofs.Model.Dependencies
import Sensitivity.Proofs.Model.Storing

/-!
# Checks that are refused

A check of partials is refused where it would repeat the computation that it is to check
(`sameApproximation`): the method and the base step are compared, and for differences the form and the
rule for the step. What is not compared are the order of a difference, the smallest step, and whether
columns may merge. Where these choices agree as well (`Settings.Accords`) every difference quotient of
the check is the quotient that is stored (`Scheme.quotient_of_same`), so after a linearization the fresh
block of a partial has, at each coordinate of the stored one, the value that is stored there
(`Model.repeats_of_same`). Where the orders differ it need not (`exists_refused_difference`).
-/

namespace Sensitivity

variable {R M : Type}

/-- Settings agree in the choices for a finite difference that a refusal leaves out: the order, and the
smallest step unless it has no part in the steps. -/
structure Settings.Accords [Scalar R] (own check : Settings R) : Prop where
  order : own.resolvedOrder = check.resolvedOrder
  minimumStep : own.stepRule = .absolute ∨ own.minimumStep = check.minimumStep

/-- A step that can be taken equals no other number. -/
theorem Settings.eq_of_usable [Scalar R] [StrictScalar R] {x y : R} (hx : usableStep x = true)
    (hxy : (x == y) = true) : x = y := by
  have hpositive := (Bool.and_eq_true_iff.1 hx).2
  exact StrictScalar.eq_of_beq hxy (by simpa using hpositive)

section Doubles

/-- The base step of valid settings can be taken, also where they give none. -/
theorem Settings.usable_baseStep {own : Settings Float} (h : own.validate = .ok ()) :
    usableStep (Site.component.baseStep own) = true := by
  cases hstep : own.step with
  | some step =>
    rw [Site.baseStep, hstep]
    exact (usable_of_validate h).1 step hstep
  | none =>
    rw [Site.baseStep, hstep, Option.getD_none, BaseSteps.choose]
    cases own.method <;> cases own.form <;> decide

/-- Where the base step can be taken and is the step, the smallest step has no part in it. -/
theorem Steps.compute_absolute {base : Float} (hbase : Settings.usableStep base = true)
    (values : List Float) (minimum : Float) :
    compute values .absolute base minimum = .uniform base := by
  unfold compute
  dsimp only
  split
  · rename_i hzero
    obtain rfl := Settings.eq_of_usable hbase hzero
    exact absurd hbase (by decide)
  · rfl

namespace Scheme

variable {σ : Type} {T : Target Float σ} {t : σ} {own check : Settings Float} {site : Site Float}

/-- **What is compared and what is left out settle the quotients**: where both agree, the quotients of a
check are those of the computation. -/
theorem quotient_of_same (hvalid : own.validate = .ok ())
    (hsame : sameApproximation own .component check site = true)
    (haccords : own.method = .finiteDifference → own.Accords check) (owner of : String) (i : Nat)
    (wrt : String) (j : Nat) :
    quotient T owner site check t of i wrt j = quotient T owner .component own t of i wrt j := by
  rw [sameApproximation, Bool.and_eq_true, Bool.and_eq_true, decide_eq_true_eq] at hsame
  obtain ⟨⟨hmethod, hbase⟩, hrest⟩ := hsame
  have husable := Settings.usable_baseStep hvalid
  replace hbase := Settings.eq_of_usable husable hbase
  suffices h : stencil (settingsAt T t check) = stencil (settingsAt T t own) ∧
      ∀ nominal, entryStep site (settingsAt T t check) nominal j =
        entryStep .component (settingsAt T t own) nominal j by
    simp only [quotient, h.1, h.2]
  cases hcheck : check.method with
  | finiteDifference =>
    have hown : own.method = .finiteDifference := hmethod.trans hcheck
    simp only [hcheck, Bool.and_eq_true, decide_eq_true_eq] at hrest
    obtain ⟨hform, hrule⟩ := hrest
    obtain ⟨horder, hminimum⟩ := haccords hown
    simp only [settingsAt, hcheck, hown, if_true]
    refine ⟨by simp only [stencil, hcheck, hown, hform, horder], fun nominal => ?_⟩
    simp only [entryStep, stepRule, hcheck, hown, ← hbase, ← hrule]
    rcases hminimum with habsolute | hminimum
    · simp only [habsolute, Steps.compute_absolute husable]
    · rw [hminimum]
  | complexStep =>
    have hown : own.method = .complexStep := hmethod.trans hcheck
    simp only [settingsAt, hcheck, hown, reduceCtorEq, if_false]
    split
    · -- both fall back to the same difference
      have hdefault : Settings.usableStep (Settings.defaultStep : Float) = true := by decide
      exact ⟨rfl, fun nominal => congrArg (Steps.at? · j)
        ((Steps.compute_absolute hdefault nominal _).trans
          (Steps.compute_absolute hdefault nominal _).symm)⟩
    · refine ⟨by simp only [stencil, hcheck, hown], fun nominal => ?_⟩
      simp only [entryStep, stepRule, hcheck, hown, ← hbase, Steps.compute_absolute husable]

end Scheme

end Doubles

namespace ModelComponent

variable [Scalar R] (c : ModelComponent R M) (enclosed : Bool) (x y : Array R) (complex : Bool)

/-- What is stored for a pair are the quotients of its partial, if it is declared with an approximation
whose columns may not merge. -/
def Quotes (blocks : Jacobian R) (pair : String × String) : Prop :=
  ∀ p ∈ c.partials, (p.of, p.wrt) = pair → ∀ own, p.provision.approximation = some own →
    own.validate = .ok () ∧ ((own.directional = false ∨ p.provision.pattern = none) →
      ∃ of wrt block, c.layout.locate? p.of = some of ∧ c.layout.locate? p.wrt = some wrt ∧
        blocks.get? pair = some block ∧
        block.Holds p.provision.pattern of.2.size wrt.2.size fun i j v => ∀ kept,
          Scheme.quotient (c.target enclosed) c.path .component own (.start kept x y complex)
            p.of i p.wrt j = .ok v)

variable {c enclosed x y complex}

theorem Quotes.congr {blocks blocks' : Jacobian R} {pair : String × String}
    (h : c.Quotes enclosed x y complex blocks pair) (hget : blocks'.get? pair = blocks.get? pair) :
    c.Quotes enclosed x y complex blocks' pair := by
  unfold Quotes
  rw [hget]
  exact h

/-- The blocks of a scheme on a component, where whole blocks are requested and no columns merge, hold
quotients, whatever the memory of a stateless component. -/
theorem holds_of_computeJacobian [StrictScalar R] (hstateless : c.component.Stateless) {a : Scheme R}
    (hcurrent : a.Current (c.target enclosed))
    (hdistinct : (a.requests.map fun q => (q.of, q.wrt)).Nodup) {d : Diagnostics}
    {k : ComponentState R M} {j : Jacobian R} {w : Session R (ComponentScope R M)}
    (h : (Scheme.computeJacobian (c.target enclosed)).perform ⟨a, d, .start k x y complex⟩ =
      (.ok j, w)) {q : Request R} (hq : q ∈ a.requests) (hof : q.ofEntries = none)
    (hwrt : q.wrtEntries = none) (hmerge : q.settings.directional = false ∨ q.pattern = none) :
    ∃ of wrt block, c.layout.locate? q.of = some of ∧ c.layout.locate? q.wrt = some wrt ∧
      j.get? (q.of, q.wrt) = some block ∧
      block.Holds q.pattern of.2.size wrt.2.size fun i j v => ∀ kept,
        Scheme.quotient (c.target enclosed) a.owner a.site q.settings (.start kept x y complex)
          q.of i q.wrt j = .ok v := by
  obtain ⟨sizes, hsizes, hall⟩ := Scheme.holds_of_computeJacobian
    (c.target_exact enclosed hstateless) (fun _ => rfl) hcurrent hdistinct h
  obtain ⟨rows, cols, block, hrows, hcols, hblock, hholds⟩ := hall q hq hmerge
  rw [Request.rows, hof] at hrows
  rw [Request.cols, hwrt] at hcols
  obtain ⟨of, hlocate, rfl⟩ := locate?_of_sizes hsizes hrows
  obtain ⟨wrt, hlocate', rfl⟩ := locate?_of_sizes hsizes hcols
  rw [List.length_range, List.length_range] at hholds
  refine ⟨of, wrt, block, hlocate, hlocate', hblock, hholds.imp fun i _ j _ v hv kept => ?_⟩
  obtain ⟨i', j', hi, hj, hquotient⟩ := hv
  obtain rfl : i = i' := by simpa using (List.getElem?_eq_some_iff.1 hi).2
  obtain rfl : j = j' := by simpa using (List.getElem?_eq_some_iff.1 hj).2
  have hview : (ComponentScope.start kept x y complex).view =
      (ComponentScope.start k x y complex).view := rfl
  exact (Scheme.quotient_congr (c.target_exact enclosed hstateless) hview _ _ _ _ _ _ _).trans hquotient

/-- **A method stores the quotients of its partials.** -/
theorem quotes_of_computeJacobian [StrictScalar R] (hstateless : c.component.Stateless)
    (hdistinct : (c.partials.map fun p => (p.of, p.wrt)).Nodup) {policy : PatternPolicy}
    {places : List Nat} (hplaces : places.Nodup) {a : MethodState R} (ha : a.Sound c policy places)
    {relevant : Option (List Bool)}
    (hselected : a.selected = some (MethodState.selection places relevant)) {d : Diagnostics}
    {k : ComponentState R M} {j : Jacobian R} {w : Session R (ComponentScope R M)}
    (h : (Scheme.computeJacobian (c.target enclosed)).perform
      ⟨a.scheme, d, .start k x y complex⟩ = (.ok j, w)) {q : Request R}
    (hq : q ∈ MethodState.chosen c.partials places (MethodState.selection places relevant)) :
    c.Quotes enclosed x y complex j (q.of, q.wrt) := by
  have hrequests := ha.requests_eq _ hselected
  have hchosen : (a.scheme.requests.map fun q => (q.of, q.wrt)).Nodup :=
    hrequests ▸ MethodState.nodup_chosen hplaces hdistinct relevant
  have hmem : q ∈ a.scheme.requests := hrequests ▸ hq
  intro p hp hpair own hown
  have hrequest := request_of_mem_chosen hdistinct hq hp hpair
  rw [MethodState.request?, hown, Option.map_some, Option.some.injEq] at hrequest
  subst hrequest
  refine ⟨ha.valid _ hmem, fun hmerge => ?_⟩
  have howner : a.scheme.owner = c.path := congrArg Scheme.Role.owner ha.role_eq
  have hsite : a.scheme.site = .component := congrArg Scheme.Role.site ha.role_eq
  have hcurrent : a.scheme.Current (c.target enclosed) := ha.current.of_graph fun _ => rfl
  obtain ⟨of, wrt, block, hof, hwrt, hblock, hholds⟩ :=
    holds_of_computeJacobian hstateless hcurrent hchosen h hmem rfl rfl hmerge
  rw [howner, hsite] at hholds
  exact ⟨of, wrt, block, hof, hwrt, hblock, hholds⟩

end ModelComponent

namespace Model

variable [Scalar R] {m : Model R M} {s t : ModelState R M} {n c : Nat}
  {component : ModelComponent R M}

/-- **A check is refused** as soon as it would repeat the computation of one partial. -/
theorem refused_of_same {check : CheckSettings R} (hinputs : component.layout.inputs.size ≠ 0)
    (houtputs : component.layout.outputs.size ≠ 0)
    (hvalid : (check.resolve component.checkSettings).validate = .ok ()) {p : DeclaredPartial R}
    (hp : p ∈ component.partials) {own : Settings R} (hown : p.provision.approximation = some own)
    (hsame : sameApproximation own .component (check.resolve component.checkSettings)
      (check.site false) = true) (s : ModelState R M) :
    ∃ wrt, (m.checkComponent c component check).perform s =
      (Outcome.fail (.sameMethod component.path wrt), s) := by
  suffices hrefused : ∃ wrt, (Action.forEach component.partials fun p =>
      requireDifferent (M := M) component.path p.wrt p.provision.approximation .component
        (check.resolve component.checkSettings) (check.site false)).perform s =
          (Outcome.fail (.sameMethod component.path wrt), s) by
    obtain ⟨wrt, hrefused⟩ := hrefused
    refine ⟨wrt, ?_⟩
    unfold checkComponent
    rw [if_neg (by simpa using ⟨hinputs, houtputs⟩)]
    simp only [Action.perform_bind, requireValid, hvalid, Action.perform_pure, hrefused]
    rfl
  generalize component.partials = partials at hp ⊢
  induction partials with
  | nil => cases hp
  | cons q rest ih =>
    rw [Action.forEach, Action.perform_bind, requireDifferent]
    by_cases hq : (q.provision.approximation.any fun s => sameApproximation s .component
        (check.resolve component.checkSettings) (check.site false)) = true
    · exact ⟨q.wrt, by rw [if_pos hq]; rfl⟩
    · rw [if_neg hq]
      have hne : p ≠ q := by
        rintro rfl
        rw [hown] at hq
        exact hq hsame
      exact ih ((List.mem_cons.1 hp).resolve_left hne)

/-- **Linearizing a stateless component stores the quotients of its approximated partials.** -/
theorem quotes_of_linearizeAt [StrictScalar R] (hm : m.Laid)
    (hcomponent : m.components[c]? = some component) (hstateless : component.component.Stateless)
    (hnested : m.Nested n s) {baseline : Option (Array R)}
    (h : (m.linearizeAt c none baseline).perform s = (.ok (), t)) :
    ∃ k, t.components[c]? = some k ∧ ∀ p ∈ component.partials,
      component.Quotes (decide (0 < n)) (s.inputs.readReal component.inputs)
        (baseline.getD (s.outputs.readReal component.outputs))
        (m.complex && component.component.complexSafe) k.partials.blocks (p.of, p.wrt) := by
  have hlt : c < m.graph.components.length :=
    hm.length_eq ▸ (List.getElem?_eq_some_iff.1 hcomponent).1
  obtain ⟨d, hlaid⟩ := hm.component c component _ hcomponent (List.getElem?_eq_getElem hlt)
  have hdistinct := Declarations.nodup_resolve hlaid.partials
  obtain ⟨k, hk, hquotes⟩ := stores_of_linearizeAt hm hcomponent hnested
    ⟨ModelComponent.Quotes.congr, fun hplaces ha hselected hw _ hq =>
      ModelComponent.quotes_of_computeJacobian hstateless hdistinct hplaces ha hselected hw hq⟩ h
  refine ⟨k, hk, fun _ _ p hp hpair own hown => ?_⟩
  have hasks : component.Asks none (p.of, p.wrt) := fun on hon => by cases hon
  rw [← hpair]
  exact hquotes _ ⟨hasks, hlaid.approximates hp hown⟩ p hp rfl own hown

/-- **A fresh approximation holds the quotients of the settings of the check**, at all coordinates, and
leaves the blocks that are stored as they are. -/
theorem quotients_of_freshPartials [StrictScalar R] (hstateless : component.component.Stateless)
    {check : Settings R} {site : Site R} {k : ComponentState R M} (hk : s.components[c]? = some k)
    {fresh : Jacobian R}
    (h : (m.freshPartials c component check site).perform s = (.ok fresh, t)) :
    (∃ l, t.components[c]? = some l ∧ l.partials = k.partials) ∧
      ∀ of ∈ component.layout.outputs.keys, ∀ wrt ∈ component.layout.inputs.keys, ∃ o w b,
        component.layout.locate? of = some o ∧ component.layout.locate? wrt = some w ∧
        fresh.get? (of, wrt) = some (.dense b) ∧ b.rows = o.2.size ∧ b.cols = w.2.size ∧
        ∀ i < b.rows, ∀ j < b.cols, ∃ v, b.get? i j = some v ∧ ∀ kept,
          Scheme.quotient (component.target s.stack.isActive) component.path site check
            (.start kept (s.inputs.readReal component.inputs) (s.outputs.readReal component.outputs)
              (m.complex && component.component.complexSafe)) of i wrt j = .ok v := by
  obtain ⟨scheme, hscheme, h⟩ := Action.ofOutcome_bind_eq_ok.1 h
  rw [Outcome.mapError_eq_ok, Outcome.ofExcept_eq_ok] at hscheme
  rw [Action.perform_get_bind] at h
  obtain ⟨w, hw, rfl⟩ := exists_of_onComponent hk h
  have hrole := Scheme.role_of_addRequests hscheme
  have hrequests : scheme.requests = component.layout.outputs.keys.flatMap fun of =>
      component.layout.inputs.keys.map fun wrt => Request.whole of wrt check :=
    congrArg Scheme.Role.requests hrole
  have howner : scheme.owner = component.path := congrArg Scheme.Role.owner hrole
  have hsite : scheme.site = site := congrArg Scheme.Role.site hrole
  have hempty : (Scheme.empty component.path site .ignore).Current
      (component.target s.stack.isActive) := fun _ hc => nomatch hc
  have hdistinct : (scheme.requests.map fun q => (q.of, q.wrt)).Nodup := by
    rw [hrequests, List.map_flatMap]
    simp only [List.map_map]
    exact component.layout.outputs.nodup.product component.layout.inputs.nodup
  refine ⟨⟨_, ModelState.getElem?_modifyComponent hk _, rfl⟩, fun of hof wrt hwrt => ?_⟩
  have hq : Request.whole of wrt check ∈ scheme.requests := by
    rw [hrequests]
    exact List.mem_flatMap.2 ⟨of, hof, List.mem_map_of_mem hwrt⟩
  obtain ⟨o, w', block, ho, hw', hblock, hholds⟩ := ModelComponent.holds_of_computeJacobian hstateless
    (hempty.addRequests hscheme) hdistinct hw hq rfl rfl (.inr rfl)
  rw [howner, hsite] at hholds
  cases block with
  | sparse p values rows cols => cases hholds.1
  | dense b =>
    obtain ⟨-, hrows, hcols, hall⟩ := hholds
    exact ⟨o, w', b, ho, hw', hblock, hrows, hcols, fun i hi j hj =>
      hall i (hrows ▸ hi) j (hcols ▸ hj)⟩

end Model

section Repeated

variable [DirectSolver Float] {m : Model Float M} {g : Group Float M} {settings : SetupSettings}
  {first s t u : ModelState Float M} {ops : List (Operation Float)} {n : Nat}
  {component : ModelComponent Float M} {p : DeclaredPartial Float} {own : Settings Float}
  {check : CheckSettings Float}

/-- **A check that is refused would tell nothing**, as far as the choices that are not compared agree
as well. In whatever state a history leaves a built model, let a stateless component be linearized and
then be approximated afresh as the check asks. For a partial whose settings are those of the check
(`sameApproximation`), agree with them in the order and in the smallest step, and let no columns merge,
the fresh block has at each coordinate of the stored one the value that is stored there. -/
theorem Model.repeats_of_same (hbuild : Model.ofGroup g settings = .ok m)
    (hstart : m.start = .ok first) (hs : m.Reaches first ops s)
    (hcomponent : m.components[n]? = some component) (hstateless : component.component.Stateless)
    (hp : p ∈ component.partials) (hown : p.provision.approximation = some own)
    (hsame : sameApproximation own .component (check.resolve component.checkSettings)
      (check.site false) = true)
    (haccords : own.method = .finiteDifference →
      own.Accords (check.resolve component.checkSettings))
    (hmerge : own.directional = false ∨ p.provision.pattern = none)
    (hlinearize : (m.linearize n none).perform s = (.ok (), t)) {fresh : Jacobian Float}
    (hfresh : (m.freshPartials n component (check.resolve component.checkSettings)
      (check.site false)).perform t = (.ok fresh, u)) :
    ∃ kept stored b, u.components[n]? = some kept ∧
      kept.partials.blocks.get? (p.of, p.wrt) = some stored ∧
      fresh.get? (p.of, p.wrt) = some (.dense b) ∧
      stored.Holds p.provision.pattern b.rows b.cols fun i j v => b.get? i j = some v := by
  have hm := laid_of_ofGroup hbuild
  have hnested := hs.nested (nested_start hstart)
  obtain ⟨k, hk, hquotes⟩ :=
    Model.quotes_of_linearizeAt hm hcomponent hstateless hnested hlinearize
  obtain ⟨hvalid, hstored⟩ := hquotes p hp p hp rfl own hown
  obtain ⟨of, wrt, stored, hof, hwrt, hblock, hholds⟩ := hstored hmerge
  -- linearizing leaves the point, so the check approximates where the linearization did
  have hpoint := (m.keeps_linearizeAt n none none s.point).of_ok rfl hlinearize
  simp only [ModelState.point, Prod.mk.injEq] at hpoint
  obtain ⟨hinputs, houtputs, -, hstack⟩ := hpoint
  have hactive : t.stack.isActive = false := by
    rw [hstack, ActivationStack.isActive_eq, hnested.depth]
    rfl
  obtain ⟨⟨kept, hkept, hpartials⟩, hfresh⟩ :=
    Model.quotients_of_freshPartials hstateless hk hfresh
  have hlt : n < m.graph.components.length :=
    hm.length_eq ▸ (List.getElem?_eq_some_iff.1 hcomponent).1
  obtain ⟨d, hlaid⟩ := hm.component n component _ hcomponent (List.getElem?_eq_getElem hlt)
  obtain ⟨hofs, hwrts⟩ := hlaid.mem_keys hp
  obtain ⟨of', wrt', b, hof', hwrt', hb, hrows, hcols, hentries⟩ := hfresh p.of hofs p.wrt hwrts
  obtain rfl := Option.some.inj (hof.symm.trans hof')
  obtain rfl := Option.some.inj (hwrt.symm.trans hwrt')
  rw [hactive, hinputs, houtputs] at hentries
  rw [← hrows, ← hcols] at hholds
  refine ⟨kept, stored, b, hkept, hpartials ▸ hblock, hb, hholds.imp fun i hi j hj v hv => ?_⟩
  obtain ⟨v', hv', hquotient⟩ := hentries i hi j hj
  have hsame' := hquotient k
  rw [Scheme.quotient_of_same hvalid hsame haccords] at hsame'
  rw [hv', Except.ok.inj (hsame'.symm.trans (hv k))]

end Repeated

section Cube

/-- The cube of `x`, whose derivative is approximated with some settings. -/
def cube (own : Settings Float) : ExpressionComponent Float where
  inputs := [("x", .scalar 0.0)]
  outputs := [("y", .scalar 0.0,
    [.binary .mul (.binary .mul (.input "x" 0) (.input "x" 0)) (.input "x" 0)])]
  partials := [(.names ["y"], .names ["x"], .ok (.approximated own))]
  checkSettings := none
  complexSafe := true
  analytic := []
  failures := []

/-- A source and its cube. -/
def cubeGroup (own : Settings Float) : Group Float Unit where
  settings := { GroupSettings.plain with connections := [("source.a", "cube.x")] }
  members := .component "source" (.independent () [("a", .scalar 1.0)]) <|
    .component "cube" (cube own).toComponent .empty

/-- A check with the step `0.5`. -/
def halfCheck : CheckSettings Float := { CheckSettings.standard with step := some 0.5 }

/-- Forward differences with the step of the check: of second order, or of first order with another
smallest step, which has no part in them. -/
def cubeSettings (second : Bool) : Settings Float :=
  { (Settings.finiteDifference : Settings Float) with
    step := some 0.5
    order := if second then some 2 else none
    minimumStep := if second then 1e-12 else 1e-3 }

variable (second : Bool)

theorem isSome_cube :
    (Model.ofGroup (cubeGroup (cubeSettings second)) .standard).toOption.isSome = true := by
  cases second <;> decide +kernel

/-- The model of the cube. -/
def cubeModel : Model Float Unit :=
  (Model.ofGroup (cubeGroup (cubeSettings second)) .standard).toOption.get (isSome_cube second)

theorem ofGroup_cube :
    Model.ofGroup (cubeGroup (cubeSettings second)) .standard = .ok (cubeModel second) :=
  Except.eq_ok_of_toOption (Option.some_get (isSome_cube second)).symm

theorem isSome_cubeStart : (cubeModel second).start.toOption.isSome = true := by
  cases second <;> decide +kernel

/-- The cube at the start. -/
def cubeStart : ModelState Float Unit :=
  (cubeModel second).start.toOption.get (isSome_cubeStart second)

theorem start_cube : (cubeModel second).start = .ok (cubeStart second) :=
  Except.eq_ok_of_toOption (Option.some_get (isSome_cubeStart second)).symm

/-- The cube after a run. -/
def cubeRun : ModelState Float Unit :=
  ((Operation.run.work (cubeModel second)).perform (cubeStart second)).2

theorem reaches_cube : (cubeModel second).Reaches (cubeStart second) [.run] (cubeRun second) := by
  refine .cons _ ?_ (.nil _)
  cases second <;> decide +kernel

theorem isSome_cubeComponent : (cubeModel second).components[1]?.isSome = true := by
  cases second <;> decide +kernel

/-- The cube in its place. -/
def cubeComponent : ModelComponent Float Unit :=
  (cubeModel second).components[1]?.get (isSome_cubeComponent second)

theorem getElem?_cube : (cubeModel second).components[1]? = some (cubeComponent second) :=
  (Option.some_get (isSome_cubeComponent second)).symm

/-- The cube linearized after the run. -/
def cubeLinearized : ModelState Float Unit :=
  (((cubeModel second).linearize 1 none).perform (cubeRun second)).2

/-- The fresh approximation that the check asks for. -/
def freshCube : ModelWork Float Unit (Jacobian Float) :=
  (cubeModel second).freshPartials 1 (cubeComponent second)
    (halfCheck.resolve (cubeComponent second).checkSettings) (halfCheck.site false)

theorem linearize_cube : ((cubeModel second).linearize 1 none).perform (cubeRun second) =
    (.ok (), cubeLinearized second) := by
  have hok : (((cubeModel second).linearize 1 none).perform (cubeRun second)).1.toOption =
      some () := by
    cases second <;> decide +kernel
  exact Action.perform_eq_ok (Except.eq_ok_of_toOption hok)

theorem exists_freshCube : ∃ fresh u,
    (freshCube second).perform (cubeLinearized second) = (.ok fresh, u) := by
  have hok : ((freshCube second).perform (cubeLinearized second)).1.toOption.isSome = true := by
    cases second <;> decide +kernel
  obtain ⟨fresh, hfresh⟩ := Option.isSome_iff_exists.1 hok
  exact ⟨fresh, _, Action.perform_eq_ok (Except.eq_ok_of_toOption hfresh)⟩

theorem same_cube : sameApproximation (cubeSettings second) .component
    (halfCheck.resolve (cubeComponent second).checkSettings) (halfCheck.site false) = true := by
  cases second <;> decide +kernel

theorem partials_cube : (cubeComponent second).partials =
    [⟨"y", "x", .approximated (cubeSettings second), false⟩] := by
  cases second <;> rfl

theorem stateless_cube : (cubeComponent second).component.Stateless := by
  have hmem : (cubeComponent second).component ∈
      (cubeModel second).components.map ModelComponent.component :=
    List.mem_map_of_mem (List.mem_of_getElem? (getElem?_cube second))
  rw [Model.components_of_ofGroup (ofGroup_cube second)] at hmem
  rcases List.mem_cons.1 hmem with h | hmem
  · rw [h]
    exact Component.stateless_independent _ _
  · rw [List.mem_singleton.1 hmem]
    exact (cube (cubeSettings second)).stateless

/-- Differences of first order with the step of the check are refused, and the fresh ones are those that
are stored. -/
theorem repeats_cube : ∃ fresh u kept stored b,
    (freshCube false).perform (cubeLinearized false) = (.ok fresh, u) ∧
    u.components[1]? = some kept ∧ kept.partials.blocks.get? ("y", "x") = some stored ∧
    fresh.get? ("y", "x") = some (.dense b) ∧
    stored.Holds none b.rows b.cols fun i j v => b.get? i j = some v := by
  have hp : ⟨"y", "x", .approximated (cubeSettings false), false⟩ ∈ (cubeComponent false).partials := by
    rw [partials_cube]
    exact List.mem_singleton_self _
  have haccords : (cubeSettings false).Accords
      (halfCheck.resolve (cubeComponent false).checkSettings) := ⟨by decide +kernel, .inl rfl⟩
  obtain ⟨fresh, u, hfresh⟩ := exists_freshCube false
  obtain ⟨kept, stored, b, hkept, hstored, hb, hholds⟩ := Model.repeats_of_same (ofGroup_cube false)
    (start_cube false) (reaches_cube false) (getElem?_cube false) (stateless_cube false) hp rfl
    (same_cube false) (fun _ => haccords) (.inl rfl) (linearize_cube false) hfresh
  exact ⟨fresh, u, kept, stored, b, hfresh, hkept, hstored, hb, hholds⟩

/-- The entry of a block for the pair of the cube. -/
def cubeEntry (blocks : Jacobian Float) : Option Float := do
  (← (← blocks.get? ("y", "x")).toDense?).get? 0 0

/-- **The order of a difference is not compared**: differences of second order are refused as well, but
the fresh ones, of first order, are others than those that are stored. -/
theorem exists_refused_difference :
    ⟨"y", "x", .approximated (cubeSettings true), false⟩ ∈ (cubeComponent true).partials ∧
    sameApproximation (cubeSettings true) .component
      (halfCheck.resolve (cubeComponent true).checkSettings) (halfCheck.site false) = true ∧
    (∃ wrt, ((cubeModel true).checkComponent 1 (cubeComponent true) halfCheck).perform (cubeRun true) =
      (Outcome.fail (.sameMethod (cubeComponent true).path wrt), cubeRun true)) ∧
    ((cubeModel true).linearize 1 none).perform (cubeRun true) = (.ok (), cubeLinearized true) ∧
    ∃ fresh u kept, (freshCube true).perform (cubeLinearized true) = (.ok fresh, u) ∧
      u.components[1]? = some kept ∧ cubeEntry kept.partials.blocks = some 2.5 ∧
      cubeEntry fresh = some 4.75 := by
  have hp : ⟨"y", "x", .approximated (cubeSettings true), false⟩ ∈ (cubeComponent true).partials := by
    rw [partials_cube]
    exact List.mem_singleton_self _
  have hvalid : (halfCheck.resolve (cubeComponent true).checkSettings).validate.toOption = some () := by
    decide +kernel
  have hrefused := Model.refused_of_same (m := cubeModel true) (c := 1) (by decide +kernel)
    (by decide +kernel) (Except.eq_ok_of_toOption hvalid) hp rfl (same_cube true) (cubeRun true)
  have hvalues : (((freshCube true).perform (cubeLinearized true)).1.toOption.bind cubeEntry,
      ((freshCube true).perform (cubeLinearized true)).2.components[1]?.bind fun k =>
        cubeEntry k.partials.blocks) = (some 4.75, some 2.5) := by
    decide +kernel
  obtain ⟨fresh, u, hfresh⟩ := exists_freshCube true
  rw [hfresh, Prod.mk.injEq] at hvalues
  obtain ⟨hfound, hstored⟩ := hvalues
  obtain ⟨kept, hkept, hstored⟩ := Option.bind_eq_some_iff.1 hstored
  exact ⟨hp, same_cube true, hrefused, linearize_cube true, fresh, u, kept, hfresh, hkept, hstored,
    hfound⟩

end Cube

end Sensitivity
