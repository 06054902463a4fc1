import Sensitivity.Model.GroupScope
import Sensitivity.Proofs.Approximation.Determinism
import Sensitivity.Proofs.Model.Component
import Sensitivity.Proofs.Model.Holding

/-!
# What a model keeps between computations

Besides the values of its variables a model keeps blocks of partials, and for every method of a
component and every group a scheme with its requests and its plan. A state is sound
(`Model.Sound`) when each of these is up to date with what is noted about it: the blocks of a
component are ones that it can hold, a scheme has the requests of the selection that is noted for it
and a current plan, and the schemes of groups are still in the roles that they had before.

Two states match (`Model.Matched`) when both are sound and agree on inputs, outputs and complex
steps under way; what else they keep may come from different computations. A component that was
linearized in both of them holds the same blocks, as far as they were asked for
(`Model.Agreeing`).
-/

namespace Sensitivity

variable {R M : Type} [Scalar R]

namespace MethodState

/-- The requests for the selected ones of the partials at some places. -/
def chosen (partials : List (DeclaredPartial R)) (places : List Nat) (selected : List Bool) :
    List (Request R) :=
  (places.zip selected).filterMap fun x => if x.2 then partials[x.1]?.bind request? else none

/-- What a method of a component keeps is up to date: its scheme has the requests of the selection
that is noted, and a current plan. -/
structure Sound (c : ModelComponent R M) (policy : PatternPolicy) (places : List Nat)
    (s : MethodState R) : Prop extends
    (Scheme.empty c.path .component policy).Furnished s.scheme where
  current : s.scheme.Current (c.target false)
  requests_eq : ∀ selected, s.selected = some selected →
    s.scheme.requests = chosen c.partials places selected

variable (c : ModelComponent R M) (policy : PatternPolicy) (places : List Nat)

/-- **A selection has the same outcome whatever was selected before.** -/
theorem select_cases (relevant : Option (List Bool)) :
    (∃ e, ∀ s : MethodState R, s.Sound c policy places →
        s.select c.partials places relevant = .error e) ∨
      ∀ s : MethodState R, s.Sound c policy places → ∃ s',
        s.select c.partials places relevant = .ok s' ∧ s'.Sound c policy places ∧
          s'.selected = some (selection places relevant) := by
  have hselect (s : MethodState R) : s.select c.partials places relevant =
      if s.selected == some (selection places relevant) then .ok s else do
        return ⟨← s.scheme.clearRequests.addRequests
          (chosen c.partials places (selection places relevant)),
          some (selection places relevant)⟩ := rfl
  rcases Scheme.clearRequests_cases (Scheme.empty c.path .component policy)
    (chosen c.partials places (selection places relevant)) with ⟨⟨q, hq, hinvalid⟩, e, he⟩ | hok
  · refine .inl ⟨e, fun s hs => ?_⟩
    rw [hselect, if_neg, he]
    · rfl
    · -- the requests of a selection that is noted are valid, so this one is not noted
      intro hsame
      have hrequests := hs.requests_eq _ (eq_of_beq hsame)
      exact hinvalid (hs.valid q (hrequests ▸ hq))
  · refine .inr fun s hs => ?_
    by_cases hsame : s.selected = some (selection places relevant)
    · exact ⟨s, by rw [hselect, hsame, if_pos (beq_self_eq_true _)], hs, hsame⟩
    · obtain ⟨s', hs', hfurnished, hrequests⟩ := hok s.scheme hs.toFurnished
      refine ⟨⟨s', some (selection places relevant)⟩, ?_, ⟨hfurnished, ?_, ?_⟩, rfl⟩
      · rw [hselect, if_neg (by simpa using hsame), hs']
        rfl
      · exact hs.current.clearRequests.addRequests hs'
      · intro selected hselected
        rw [hrequests, ← Option.some.inj hselected]

variable {c policy places}

/-- A selection that is made is noted, and leaves what is kept up to date. -/
theorem Sound.select {s s' : MethodState R} (hs : s.Sound c policy places)
    {relevant : Option (List Bool)} (h : s.select c.partials places relevant = .ok s') :
    s'.Sound c policy places ∧ s'.selected = some (selection places relevant) := by
  rcases select_cases c policy places relevant with ⟨e, he⟩ | hok
  · cases h.symm.trans (he s hs)
  · obtain ⟨s'', hs'', hsound⟩ := hok s hs
    obtain rfl := Except.ok.inj (h.symm.trans hs'')
    exact hsound

end MethodState

/-- What a component keeps is up to date. -/
structure ComponentState.Sound (c : ModelComponent R M) (policy : PatternPolicy)
    (k : ComponentState R M) : Prop where
  holds : c.Holds k.partials
  length_eq : k.methods.length = c.methods.length
  method : ∀ (place : Nat) e s, c.methods[place]? = some e → k.methods[place]? = some s →
    s.Sound c policy e.2

/-- Another state may take the place of that of a method. -/
theorem ComponentState.Sound.modifyMethod {c : ModelComponent R M} {policy : PatternPolicy}
    {k : ComponentState R M} (hk : k.Sound c policy) {place : Nat} {e : Method × List Nat}
    (he : c.methods[place]? = some e) {f : MethodState R → MethodState R}
    (hf : ∀ a, k.methods[place]? = some a → a.Sound c policy e.2 → (f a).Sound c policy e.2) :
    ({ k with methods := k.methods.modify place f } : ComponentState R M).Sound c policy where
  holds := hk.holds
  length_eq := (List.length_modify ..).trans hk.length_eq
  method place' e' a he' ha := by
    rw [List.getElem?_modify] at ha
    obtain ⟨old, hold, rfl⟩ := Option.map_eq_some_iff.1 ha
    have hsound := hk.method place' e' old he' hold
    split
    · rename_i hplace
      subst hplace
      obtain rfl := Option.some.inj (he.symm.trans he')
      exact hf old hold hsound
    · exact hsound

/-- A scheme in the role of another one, with a current plan. -/
structure Scheme.Resumes {σ : Type} (T : Target R σ) (policy : PatternPolicy) (a b : Scheme R) :
    Prop where
  role_eq : b.role = a.role
  policy_eq : b.policy = policy
  current : b.Current T

/-- What a model keeps beside the values of its variables, complex steps and notices. -/
def ModelState.caches (s : ModelState R M) :
    List (ComponentState R M) × List (Option (Scheme R)) × Option (List (Request R)) :=
  (s.components, s.schemes, s.rootRequests)

namespace Model

variable [DirectSolver R] (m : Model R M)

/-- What a model keeps is up to date. The schemes of groups are still in the roles that they had in
an earlier state, the anchor, and the requests that are noted for the root are the same. -/
structure Sound (anchor s : ModelState R M) : Prop where
  length_eq : s.components.length = m.components.length
  component : ∀ (c : Nat) component k, m.components[c]? = some component →
    s.components[c]? = some k → k.Sound component m.policy
  groups : ∀ n : Nat, Option.Rel (Scheme.Resumes (m.groupTarget m.root m.schedule) m.policy)
    anchor.schemes[n]?.join s.schemes[n]?.join
  requests_eq : s.rootRequests = anchor.rootRequests

variable (anchors : ModelState R M × ModelState R M)

/-- Sound states with the same inputs, outputs and complex steps under way. -/
structure Matched (s t : ModelState R M) : Prop where
  left : m.Sound anchors.1 s
  right : m.Sound anchors.2 t
  inputs_eq : s.inputs = t.inputs
  outputs_eq : s.outputs = t.outputs
  stack_eq : s.stack = t.stack

/-- Matched states in which a component holds the same blocks at some pairs. -/
structure Agreeing (c : Nat) (P : String × String → Prop) (s t : ModelState R M) : Prop extends
    m.Matched anchors s t where
  agree : ∀ k l, s.components[c]? = some k → t.components[c]? = some l →
    ∀ pair, P pair → k.partials.blocks.get? pair = l.partials.blocks.get? pair

variable {m anchors} {anchor s t : ModelState R M} {c : Nat} {P Q : String × String → Prop}

theorem Matched.agreeing (h : m.Matched anchors s t) : m.Agreeing anchors c (fun _ => False) s t :=
  { h with agree := fun _ _ _ _ _ hpair => hpair.elim }

theorem Agreeing.mono (h : m.Agreeing anchors c P s t) (hPQ : ∀ pair, Q pair → P pair) :
    m.Agreeing anchors c Q s t :=
  { h with agree := fun k l hk hl pair hpair => h.agree k l hk hl pair (hPQ pair hpair) }

/-- What a model keeps is up to date whatever the values of its variables are. -/
theorem Sound.congr (h : m.Sound anchor s) {s' : ModelState R M} (hs : s'.caches = s.caches) :
    m.Sound anchor s' := by
  simp only [ModelState.caches, Prod.mk.injEq] at hs
  obtain ⟨hcomponents, hschemes, hrequests⟩ := hs
  exact ⟨hcomponents ▸ h.length_eq, hcomponents ▸ h.component, hschemes ▸ h.groups,
    hrequests ▸ h.requests_eq⟩

theorem Matched.congr (h : m.Matched anchors s t) {s' t' : ModelState R M}
    (hs : s'.caches = s.caches) (ht : t'.caches = t.caches) (hinputs : s'.inputs = t'.inputs)
    (houtputs : s'.outputs = t'.outputs) (hstack : s'.stack = t'.stack) : m.Matched anchors s' t' :=
  ⟨h.left.congr hs, h.right.congr ht, hinputs, houtputs, hstack⟩

/-- A component is there in both of two matched states, or in neither. -/
theorem Matched.isSome_eq (h : m.Matched anchors s t) (c : Nat) :
    s.components[c]?.isSome = t.components[c]?.isSome := by
  rw [Bool.eq_iff_iff]
  simp [h.left.length_eq, h.right.length_eq]

/-- Changes that leave what a component keeps up to date. -/
theorem Sound.modifyComponent (h : m.Sound anchor s) {f : ComponentState R M → ComponentState R M}
    (hf : ∀ component k, m.components[c]? = some component → s.components[c]? = some k →
      k.Sound component m.policy → (f k).Sound component m.policy) :
    m.Sound anchor (s.modifyComponent c f) where
  length_eq := (List.length_modify ..).trans h.length_eq
  component c' component k hcomponent hk := by
    rw [ModelState.modifyComponent, List.getElem?_modify] at hk
    obtain ⟨old, hold, rfl⟩ := Option.map_eq_some_iff.1 hk
    have hsound := h.component c' component old hcomponent hold
    split
    · rename_i hc
      subst hc
      exact hf component old hcomponent hold hsound
    · exact hsound
  groups := h.groups
  requests_eq := h.requests_eq

theorem Agreeing.modifyComponent (h : m.Agreeing anchors c P s t)
    {f g : ComponentState R M → ComponentState R M}
    (hf : ∀ component k, m.components[c]? = some component → s.components[c]? = some k →
      k.Sound component m.policy → (f k).Sound component m.policy)
    (hg : ∀ component l, m.components[c]? = some component → t.components[c]? = some l →
      l.Sound component m.policy → (g l).Sound component m.policy)
    (hfg : ∀ k l, s.components[c]? = some k → t.components[c]? = some l → ∀ pair, Q pair →
      (f k).partials.blocks.get? pair = (g l).partials.blocks.get? pair) :
    m.Agreeing anchors c Q (s.modifyComponent c f) (t.modifyComponent c g) where
  left := h.left.modifyComponent hf
  right := h.right.modifyComponent hg
  inputs_eq := h.inputs_eq
  outputs_eq := h.outputs_eq
  stack_eq := h.stack_eq
  agree k l hk hl pair hpair := by
    rw [ModelState.modifyComponent, List.getElem?_modify_eq] at hk hl
    obtain ⟨k', hk', rfl⟩ := Option.map_eq_some_iff.1 hk
    obtain ⟨l', hl', rfl⟩ := Option.map_eq_some_iff.1 hl
    exact hfg k' l' hk' hl' pair hpair

/-- A change to what a component keeps, its blocks apart, that leaves it up to date. -/
theorem Agreeing.modifyKept {component : ModelComponent R M}
    (hcomponent : m.components[c]? = some component) (h : m.Agreeing anchors c P s t)
    {f g : ComponentState R M → ComponentState R M} (hf : ∀ k, (f k).partials = k.partials)
    (hg : ∀ k, (g k).partials = k.partials)
    (hsf : ∀ k, s.components[c]? = some k → k.Sound component m.policy →
      (f k).Sound component m.policy)
    (hsg : ∀ l, t.components[c]? = some l → l.Sound component m.policy →
      (g l).Sound component m.policy) :
    m.Agreeing anchors c P (s.modifyComponent c f) (t.modifyComponent c g) := by
  refine h.modifyComponent (fun component' k hc hk hsound => ?_) (fun component' l hc hl hsound => ?_)
    fun k l hk hl pair hpair => ?_
  · obtain rfl := Option.some.inj (hcomponent.symm.trans hc)
    exact hsf k hk hsound
  · obtain rfl := Option.some.inj (hcomponent.symm.trans hc)
    exact hsg l hl hsound
  · rw [hf, hg]
    exact h.agree k l hk hl pair hpair

/-- The memory of a component and the number of its runs may become anything. -/
theorem Agreeing.remember (h : m.Agreeing anchors c P s t)
    {f g : ComponentState R M → ComponentState R M}
    (hf : ∀ k, (f k).partials = k.partials ∧ (f k).methods = k.methods)
    (hg : ∀ k, (g k).partials = k.partials ∧ (g k).methods = k.methods) :
    m.Agreeing anchors c P (s.modifyComponent c f) (t.modifyComponent c g) := by
  have hsound {f : ComponentState R M → ComponentState R M}
      (hf : ∀ k, (f k).partials = k.partials ∧ (f k).methods = k.methods)
      {component : ModelComponent R M} {k : ComponentState R M}
      (hk : k.Sound component m.policy) : (f k).Sound component m.policy :=
    ⟨(hf k).1 ▸ hk.holds, (hf k).2 ▸ hk.length_eq, (hf k).2 ▸ hk.method⟩
  refine h.modifyComponent (fun _ _ _ _ => hsound hf) (fun _ _ _ _ => hsound hg)
    fun k l hk hl pair hpair => ?_
  rw [(hf k).1, (hg l).1]
  exact h.agree k l hk hl pair hpair

/-- What else changes does not matter, as long as inputs, outputs and complex steps stay the same. -/
theorem Agreeing.congr (h : m.Agreeing anchors c P s t) {s' t' : ModelState R M}
    (hs : s'.caches = s.caches) (ht : t'.caches = t.caches) (hinputs : s'.inputs = t'.inputs)
    (houtputs : s'.outputs = t'.outputs) (hstack : s'.stack = t'.stack) :
    m.Agreeing anchors c P s' t' where
  toMatched := h.toMatched.congr hs ht hinputs houtputs hstack
  agree k l hk hl := by
    have hsc : s'.components = s.components := congrArg Prod.fst hs
    have htc : t'.components = t.components := congrArg Prod.fst ht
    exact h.agree k l (hsc ▸ hk) (htc ▸ hl)

end Model

end Sensitivity
