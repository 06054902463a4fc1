import Sensitivity.Proofs.Model.Linearizing
import Sensitivity.Proofs.Model.History

/-!
# How deep complex steps go

Only groups take complex steps of the model, and what is evaluated within one takes no other: it runs
components, and where it iterates it linearizes them, on copies of their variables. So between
operations no complex step is under way, and wherever an operation is broken off there is at most one
(`Model.sustains_operation`).

What components keep for their methods is up to date all along (`Model.Ready`), also where an
approximation is broken off in the middle: it has taken the plan out, and none is left
(`Scheme.sustains_settled_computeJacobian`).
-/

namespace Sensitivity

variable {R M : Type}

/-- What the components of a model keep for their methods. -/
def ModelState.methods (s : ModelState R M) : List (List (MethodState R)) :=
  s.components.map ComponentState.methods

theorem ModelState.modifyComponent_modifyComponent (s : ModelState R M) (c : Nat)
    (f g : ComponentState R M → ComponentState R M) :
    (s.modifyComponent c f).modifyComponent c g = s.modifyComponent c (g ∘ f) := by
  simp only [modifyComponent, List.modify_modify_eq]

theorem ModelState.getElem?_modifyComponent {s : ModelState R M} {c : Nat} {k : ComponentState R M}
    (hk : s.components[c]? = some k) (f : ComponentState R M → ComponentState R M) :
    (s.modifyComponent c f).components[c]? = some (f k) := by
  rw [modifyComponent, List.getElem?_modify_eq, hk]
  rfl

theorem ModelState.methods_modifyComponent_congr {s : ModelState R M} {c : Nat}
    {f g : ComponentState R M → ComponentState R M} (h : ∀ k, (f k).methods = (g k).methods) :
    (s.modifyComponent c f).methods = (s.modifyComponent c g).methods := by
  refine List.ext_getElem? fun n => ?_
  simp only [methods, modifyComponent, List.getElem?_map, List.getElem?_modify, Option.map_eq_map,
    Option.map_map]
  congr 1
  funext k
  simp only [Function.comp_apply]
  split
  · exact h k
  · rfl

theorem ModelState.methods_modifyComponent {s : ModelState R M} {c : Nat}
    {f : ComponentState R M → ComponentState R M} (hf : ∀ k, (f k).methods = k.methods) :
    (s.modifyComponent c f).methods = s.methods := by
  refine (methods_modifyComponent_congr (g := id) hf).trans ?_
  simp only [modifyComponent, List.modify_id]

variable [Scalar R]

/-- A scheme that has worked takes the place of the one that it was. -/
theorem MethodState.Sound.reschedule {c : ModelComponent R M} {policy : PatternPolicy}
    {places : List Nat} {s : MethodState R} (h : s.Sound c policy places) {a : Scheme R}
    (hidentity : a.identity = s.scheme.identity) (hcurrent : a.Current (c.target false)) :
    ({ s with scheme := a } : MethodState R).Sound c policy places := by
  simp only [Scheme.identity, Prod.mk.injEq] at hidentity
  obtain ⟨howner, hsite, hrequests, -, hpolicy, htolerance⟩ := hidentity
  have hrole : a.role = s.scheme.role := by
    simp only [Scheme.role, howner, hsite, hrequests, hpolicy, htolerance]
  refine ⟨⟨hrole.trans (hrequests ▸ h.role_eq), hrequests ▸ h.valid⟩, hcurrent, fun selected hs => ?_⟩
  exact hrequests.trans (h.requests_eq selected hs)

/-- What a scheme has become by work that was broken off anywhere is as up to date as it was. -/
theorem MethodState.Sound.settled {c : ModelComponent R M} {policy : PatternPolicy}
    {places : List Nat} {s : MethodState R} (h : s.Sound c policy places) (enclosed : Bool)
    {w : Session R (ComponentScope R M)} (hw : w.scheme = s.scheme) :
    ({ s with
      scheme := ((Scheme.computeJacobian (c.target enclosed)).perform w).2.scheme
    } : MethodState R).Sound c policy places := by
  have hcurrent : w.scheme.Current (c.target enclosed) := hw ▸ h.current.of_graph fun _ => rfl
  obtain ⟨hidentity, hcurrent⟩ := (Scheme.sustains_settled_computeJacobian w
    ⟨rfl, hcurrent⟩).of_imp fun _ h => h
  exact h.reschedule (hidentity.trans (congrArg Scheme.identity hw))
    (hcurrent.of_graph fun _ => rfl)

namespace Model

/-- What components keep for their methods is up to date. -/
def Ready (m : Model R M) (s : ModelState R M) : Prop :=
  ∀ (c : Nat) component (place : Nat) e methods a, m.components[c]? = some component →
    component.methods[place]? = some e → s.methods[c]? = some methods →
      methods[place]? = some a → a.Sound component m.policy e.2

/-- A number of complex steps are under way, one inside the other. -/
structure Nested (m : Model R M) (n : Nat) (s : ModelState R M) : Prop where
  depth : s.stack.depth = n
  ready : m.Ready s

/-- At most one complex step is under way. -/
structure Shallow (m : Model R M) (s : ModelState R M) : Prop where
  depth : s.stack.depth ≤ 1
  ready : m.Ready s

variable {m : Model R M} {s t : ModelState R M} {n c : Nat}

theorem Ready.sound (h : m.Ready s) {component : ModelComponent R M}
    (hcomponent : m.components[c]? = some component) {place : Nat} {e : Method × List Nat}
    (he : component.methods[place]? = some e) {k : ComponentState R M}
    (hk : s.components[c]? = some k) {a : MethodState R} (ha : k.methods[place]? = some a) :
    a.Sound component m.policy e.2 := by
  refine h c component place e k.methods a hcomponent he ?_ ha
  rw [ModelState.methods, List.getElem?_map, hk]
  rfl

theorem Ready.congr (h : m.Ready s) (hmethods : t.methods = s.methods) : m.Ready t := by
  unfold Ready
  rw [hmethods]
  exact h

theorem Nested.congr (h : m.Nested n s) (hstack : t.stack = s.stack)
    (hmethods : t.methods = s.methods) : m.Nested n t := ⟨hstack ▸ h.depth, h.ready.congr hmethods⟩

theorem Nested.setVector (h : m.Nested n s) (kind : VariableKind) {v : StateVector R} :
    m.Nested n (s.setVector kind v) := by cases kind <;> exact h.congr rfl rfl

theorem Nested.shallow (h : m.Nested n s) (hn : n ≤ 1) : m.Shallow s := ⟨h.depth.trans_le hn, h.ready⟩

/-- The blocks, the memory and the number of runs of a component may become anything. -/
theorem Nested.modifyComponent (h : m.Nested n s) {f : ComponentState R M → ComponentState R M}
    (hf : ∀ k, (f k).methods = k.methods) : m.Nested n (s.modifyComponent c f) :=
  h.congr rfl (ModelState.methods_modifyComponent hf)

theorem Nested.ran (h : m.Nested n s) (c : Nat) (memory : M) (count : Nat → Nat) :
    m.Nested n (s.modifyComponent c fun k => { k with memory := memory, runs := count k.runs }) :=
  h.modifyComponent fun _ => rfl

/-- What is kept for a method may be replaced by something up to date. -/
theorem Nested.modifyMethod {component : ModelComponent R M} {place : Nat} {e : Method × List Nat}
    (hcomponent : m.components[c]? = some component) (he : component.methods[place]? = some e)
    (h : m.Nested n s) {f : MethodState R → MethodState R}
    (hf : ∀ k a, s.components[c]? = some k → k.methods[place]? = some a →
      (f a).Sound component m.policy e.2) :
    m.Nested n (s.modifyComponent c fun k => { k with methods := k.methods.modify place f }) := by
  refine ⟨h.depth, fun c' component' place' e' methods a hcomponent' he' hmethods ha => ?_⟩
  rw [ModelState.methods, ModelState.modifyComponent, List.getElem?_map, List.getElem?_modify,
    Option.map_eq_map, Option.map_map, Option.map_eq_some_iff] at hmethods
  obtain ⟨k, hk, rfl⟩ := hmethods
  have hready := h.ready c' component' place' e' k.methods
  rw [ModelState.methods, List.getElem?_map, hk] at hready
  by_cases hc : c = c'
  · subst hc
    obtain rfl := Option.some.inj (hcomponent.symm.trans hcomponent')
    rw [Function.comp_apply, if_pos rfl, List.getElem?_modify, Option.map_eq_map,
      Option.map_eq_some_iff] at ha
    obtain ⟨old, hold, rfl⟩ := ha
    split
    · rename_i hplace
      subst hplace
      obtain rfl := Option.some.inj (he.symm.trans he')
      exact hf k old hk hold
    · exact hready old hcomponent he' rfl hold
  · rw [Function.comp_apply, if_neg hc] at ha
    exact hready a hcomponent' he' rfl ha

section Linearize

/-- The work of a scheme on a component by itself leaves what keeping its results leaves. -/
theorem ends_onComponent {P : ModelState R M → Prop} {α : Type} (component : ModelComponent R M)
    (x y : Array R) (scheme : Scheme R) (diagnostics : ModelState R M → Diagnostics)
    {keep : Scheme R → Diagnostics → ModelState R M → ModelState R M}
    {work : Scheme.Work R (ComponentScope R M) α} {E : Scheme R → Prop}
    (hwork : ∀ w, w.scheme = scheme → E (work.perform w).2.scheme) (hs : P s)
    (hkeep : ∀ a d μ runs, E a →
      P (keep a d (s.modifyComponent c fun k => { k with memory := μ, runs := runs }))) :
    Action.Ends P P
      ((m.onComponent c component x y scheme diagnostics keep work).perform s) := by
  unfold onComponent
  refine Action.ends_bind (.inl hs) fun kept t hkept _ => ?_
  obtain rfl : s = t := congrArg Prod.snd hkept
  exact .inl (hkeep _ _ _ _ (hwork _ rfl))

theorem sustains_storeBlocks (blocks : Jacobian R) :
    (Model.storeBlocks c blocks : ModelWork R M Unit).Sustains (m.Nested n) (m.Nested n) := by
  refine Action.sustains_forEach fun ((of, wrt), block) => ?_
  refine Action.sustains_bind (Action.sustains_read _) fun kept => ?_
  refine Action.sustains_bind (Action.sustains_ofOutcome _) fun partials => ?_
  exact Action.sustains_modify fun s hs => hs.modifyComponent fun _ => rfl

/-- What is kept for a method once its scheme has worked is up to date. -/
theorem Nested.keepMethod {component : ModelComponent R M}
    (hcomponent : m.components[c]? = some component) {place : Nat} {e : Method × List Nat}
    (he : component.methods[place]? = some e) (h : m.Nested n s) {chosen : MethodState R}
    {a : Scheme R} (ha : ({ chosen with scheme := a } : MethodState R).Sound component m.policy e.2)
    (d : Diagnostics) (memory : M) (runs : Nat) :
    m.Nested n (Model.keepMethod c place a d
      ((s.modifyComponent c fun k =>
          { k with methods := k.methods.modify place fun _ => chosen }).modifyComponent c
        fun k => { k with memory := memory, runs := runs })) := by
  refine (h.modifyMethod hcomponent he (f := fun _ => { chosen with scheme := a })
    fun _ _ _ _ => ha).congr rfl ?_
  rw [Model.keepMethod, ModelState.modifyComponent_modifyComponent,
    ModelState.modifyComponent_modifyComponent]
  refine ModelState.methods_modifyComponent_congr fun k => ?_
  simp only [Function.comp_apply, List.modify_modify_eq]
  rfl

/-- **A method is up to date wherever its approximation is broken off.** -/
theorem sustains_approximatePartials {component : ModelComponent R M}
    (hcomponent : m.components[c]? = some component) {place : Nat} {e : Method × List Nat}
    (he : component.methods[place]? = some e) (relevant : Option (List Bool)) (x y : Array R) :
    (m.approximatePartials c place e.2 relevant x y).Sustains (m.Nested n) (m.Nested n) := by
  unfold approximatePartials
  refine Action.sustains_ofOutcome_bind fun component' hcomponent' => ?_
  rw [Outcome.ofOption_eq_ok] at hcomponent'
  obtain rfl := Option.some.inj (hcomponent.symm.trans hcomponent')
  intro s hs
  refine Action.ends_read_bind hs fun kept hkept => ?_
  rw [Outcome.ofOption_eq_ok] at hkept
  refine Action.ends_ofOutcome_bind hs fun state hstate => ?_
  rw [Outcome.ofOption_eq_ok] at hstate
  refine Action.ends_ofOutcome_bind hs fun chosen hchosen => ?_
  rw [Outcome.mapError_eq_ok, Outcome.ofExcept_eq_ok] at hchosen
  obtain ⟨hsound, -⟩ := (hs.ready.sound hcomponent he hkept hstate).select hchosen
  have hstored : m.Nested n (s.modifyComponent c fun k =>
      { k with methods := k.methods.modify place fun _ => chosen }) :=
    hs.modifyMethod hcomponent he fun _ _ _ _ => hsound
  refine Action.ends_bind (P := m.Nested n) (.inl hstored) fun _ t ht _ => ?_
  obtain rfl : s.modifyComponent c _ = t := congrArg Prod.snd ht
  dsimp only
  split
  · exact .inl hstored
  refine Action.ends_bind (P := m.Nested n) (.inl hstored) fun _ t ht _ => ?_
  obtain rfl : s.modifyComponent c _ = t := congrArg Prod.snd ht
  refine Action.ends_bind (P := m.Nested n) (ends_onComponent component x y chosen.scheme _
    (E := fun a => ({ chosen with scheme := a } : MethodState R).Sound component m.policy e.2)
    (fun w hw => hsound.settled _ hw) hstored fun a d μ runs ha =>
      hs.keepMethod hcomponent he ha d μ runs) fun blocks t _ ht => sustains_storeBlocks blocks t ht

/-- **Linearizing a component takes no complex step of the model**, and keeps methods up to date
wherever it is broken off. -/
theorem sustains_linearizeAt (c : Nat) (relevant : Option (List Bool)) (baseline : Option (Array R)) :
    (m.linearizeAt c relevant baseline).Sustains (m.Nested n) (m.Nested n) := by
  unfold linearizeAt
  refine Action.sustains_ofOutcome_bind fun component hcomponent => ?_
  rw [Outcome.ofOption_eq_ok] at hcomponent
  refine Action.sustains_bind Action.sustains_get fun s => ?_
  dsimp only
  split
  on_goal 1 => refine Action.sustains_bind (Action.sustains_fail _) fun _ => ?_
  all_goals
    refine Action.sustains_bind (Action.sustains_bind (Action.sustains_read _) fun _ =>
      fun s hs => .inl (hs.modifyComponent fun _ => rfl)) fun _ => ?_
    exact Action.sustains_forEach_of_mem fun x hx =>
      sustains_approximatePartials hcomponent (List.mem_zipIdx_iff_getElem?.1 hx) relevant _ _

end Linearize

section Evaluate

theorem sustains_compute (c : Nat) (mode : Mode) :
    (m.compute c mode).Sustains (m.Nested n) (m.Nested n) := by
  refine Action.sustains_bind (Action.sustains_ofOutcome _) fun component => ?_
  refine Action.sustains_bind (Action.sustains_read _) fun kept s hs => .inl ?_
  exact (hs.ran c _ (· + 1)).congr rfl rfl

variable (m) in
/-- **Evaluations take no complex step of the model**, in whichever arithmetic they are. -/
theorem sustained_nested (mode : Mode) (n : Nat) : m.Sustained mode (m.Nested n) (m.Nested n) where
  pull scope component hs := of_pull (fun _ _ hs => hs.congr rfl rfl) scope component hs
  compute c := sustains_compute c mode
  linearizeAt c baseline := sustains_linearizeAt c none baseline
  outputs _ _ hs := hs.congr rfl rfl
  residuals _ _ hs := hs.congr rfl rfl
  imagOutputs _ _ _ _ hs := hs.congr rfl rfl
  imagResiduals _ _ _ _ hs := hs.congr rfl rfl
  diagnostics _ hs := hs.congr rfl rfl

theorem sustains_perturb (label name : String) (index : Nat) (delta : Delta R) :
    (m.perturb label name index delta).Sustains (m.Nested n) (m.Nested n) :=
  m.sustains_perturb_of_set (fun kind _ hs => hs.setVector kind) label name index delta

theorem sustains_freshPartials (c : Nat) (component : ModelComponent R M) (check : Settings R)
    (site : Site R) :
    (m.freshPartials c component check site).Sustains (m.Nested n) (m.Nested n) := by
  unfold Model.freshPartials
  refine Action.sustains_bind (Action.sustains_ofOutcome _) fun scheme => ?_
  refine Action.sustains_get_bind fun s hs => ?_
  refine ends_onComponent component _ _ scheme _ (E := fun _ => True) (fun _ _ => trivial) hs
    fun a d μ runs _ => (hs.ran c μ fun _ => runs).congr rfl rfl

theorem sustains_prepareRoot (scheme : Scheme R) (requests : List (Request R)) :
    (m.prepareRoot scheme requests).Sustains (m.Nested n) (m.Nested n) := by
  unfold Model.prepareRoot
  refine Action.sustains_bind Action.sustains_get fun s => ?_
  split
  · exact Action.sustains_pure _
  · refine Action.sustains_bind (Action.sustains_ofOutcome _) fun scheme => ?_
    exact Action.sustains_bind (Action.sustains_modify fun _ hs => hs.congr rfl rfl) fun _ =>
      Action.sustains_pure _

end Evaluate

variable [DirectSolver R]

theorem sustains_solveGroup (g : ModelGroup R) (body : Schedule R) (active : ActiveSet)
    (mode : Mode) (scope : Span) :
    (m.solveGroup g body active mode scope).Sustains (m.Nested n) (m.Nested n) :=
  (m.sustained_nested mode n).runSchedule active scope (.group g body .done)

section Group

variable (m) in
/-- **A group takes one complex step at a time.** -/
theorem groupTarget_sustained (g : ModelGroup R) (body : Schedule R) :
    (m.groupTarget g body).Sustained (m.Nested 0) (m.Nested 1) m.Shallow where
  perturb name index h := (sustains_perturb g.label name index _).mono fun _ hs => hs.shallow (by simp)
  evaluate active := (Action.sustains_mapError _
    (sustains_solveGroup g body active .real _)).mono fun _ hs => hs.shallow (by simp)
  restore _ _ hs := hs.congr rfl rfl
  enter owner step s hs := ⟨congrArg (· + 1) hs.depth, hs.ready.congr rfl⟩
  perturbStep name index h :=
    (sustains_perturb g.label name index _).mono fun _ hs => hs.shallow le_rfl
  evaluateStep active := (Action.sustains_mapError _
    (sustains_solveGroup g body active .complex _)).mono fun _ hs => hs.shallow le_rfl
  restoreStep _ _ hs := hs.congr rfl rfl
  leave {s} hs := ⟨List.length_tail.trans (congrArg (· - 1) hs.depth), hs.ready.congr rfl⟩
  breach hs := hs.shallow le_rfl
  restoreBreach _ _ hs := ⟨hs.depth, hs.ready.congr rfl⟩

/-- Approximating across a group takes complex steps one after another. -/
theorem sustains_onGroup (g : ModelGroup R) (body : Schedule R) (scheme : Scheme R)
    (keep : Scheme R → ModelState R M → ModelState R M)
    (hstack : ∀ a s, (keep a s).stack = s.stack) (hmethods : ∀ a s, (keep a s).methods = s.methods) :
    (m.onGroup g body scheme keep Scheme.computeJacobian).Sustains (m.Nested 0) m.Shallow := by
  have hwork := Action.sustains_mapError ModelError.approximation
    (Scheme.sustains_computeJacobian (m.groupTarget_sustained g body))
  refine Action.sustains_on hwork (fun _ hs => hs) (fun s w _ hw => ?_) fun s w _ hw => ?_
  · exact hw.congr (hstack _ _) (hmethods _ _)
  · exact ⟨(congrArg ActivationStack.depth (hstack _ _)).trans_le hw.depth,
      hw.ready.congr (hmethods _ _)⟩

end Group

variable (m) in
theorem undisturbed_nested : m.Undisturbed (m.Nested 0) m.Shallow where
  linearizeAt c relevant :=
    (sustains_linearizeAt c relevant none).mono fun _ hs => hs.shallow (by simp)
  freshPartials c component check site :=
    (sustains_freshPartials c component check site).mono fun _ hs => hs.shallow (by simp)
  approximateGroup body hs _ :=
    sustains_onGroup _ body _ (keepScheme _) (fun _ _ => rfl) (fun _ _ => rfl) _ hs
  approximatedTotals of wrt settings _ := m.sustains_approximatedTotals
    (fun scheme requests =>
      (sustains_prepareRoot scheme requests).mono fun _ hs => hs.shallow (by simp))
    (fun scheme => sustains_onGroup m.root m.schedule scheme (keepScheme m.root)
      (fun _ _ => rfl) fun _ _ => rfl)
    of wrt settings
  approximateAfresh g body scheme :=
    sustains_onGroup g body scheme (fun _ s => s) (fun _ _ => rfl) fun _ _ => rfl

/-- **No operation has two complex steps under way at once**, wherever it is broken off. -/
theorem sustains_operation (op : Operation R) : (op.work m).Sustains (m.Nested 0) m.Shallow :=
  m.undisturbed_nested.operation (fun kind _ hs => hs.setVector kind)
    ((sustains_solveGroup _ _ .all .real _).mono fun _ hs => hs.shallow (by simp)) op

/-- No complex step is under way at the start. -/
theorem nested_start (hstart : m.start = .ok s) : m.Nested 0 s := by
  refine ⟨?_, fun c component place e methods a hcomponent he hmethods ha => ?_⟩
  · obtain ⟨_, -, hs⟩ := Except.bind_eq_ok.1 hstart
    cases hs
    rfl
  · rw [ModelState.methods, List.getElem?_map, Option.map_eq_some_iff] at hmethods
    obtain ⟨k, hk, rfl⟩ := hmethods
    exact ((sound_start hstart).component c component k hcomponent hk).method place e a he ha

/-- **No complex step is under way after a history.** -/
theorem Reaches.nested {ops : List (Operation R)} (h : m.Reaches s ops t) (hs : m.Nested 0 s) :
    m.Nested 0 t :=
  h.preserves (fun op => (sustains_operation op).preserves) hs

end Model

end Sensitivity
