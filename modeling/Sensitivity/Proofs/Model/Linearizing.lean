import Sensitivity.Proofs.Approximation.Partition
import Sensitivity.Proofs.Model.Matching

/-!
# Linearizing in matched states

Linearizing a component of a steady model (`Model.Steady`) answers the same in matched states and
leaves them matched (`Model.couples_linearizeAt`). If it succeeds, the component holds the same
blocks in both, those apart that were not asked for: whatever the selection was before and whatever
the blocks were, what is asked for is written by the call or approximated afresh.
-/

namespace Sensitivity

variable {R M : Type} [Scalar R] [DirectSolver R]

/-- Whether an approximation may store a block at a pair: the pair is one that a method approximates,
and a block of the right shape is in the form that the pair had at the start. -/
def ModelComponent.Fits (c : ModelComponent R M) (pair : String × String) (b : Block R) : Prop :=
  c.Approximates pair ∧ ∃ old, c.initial.blocks.get? pair = some old ∧
    (old.rows = b.rows → old.cols = b.cols → b.form = old.form)

/-- Whether a call asks for the block of a pair: each declared partial of the pair is relevant. All
are when nothing is said. -/
def ModelComponent.Asks (c : ModelComponent R M) (relevant : Option (List Bool))
    (pair : String × String) : Prop :=
  ∀ on, relevant = some on → ∀ k p, c.partials[k]? = some p → (p.of, p.wrt) = pair →
    on.getD k false = true

omit [Scalar R] [DirectSolver R] in
/-- A block that is asked for is one that the component computes itself, or one that a method
approximates. -/
theorem ModelComponent.covered_of_asks (c : ModelComponent R M) {relevant : Option (List Bool)}
    {pair : String × String} (h : c.Asks relevant pair) : ¬ c.Approximates pair ∨
      ∃ x ∈ c.methods.zipIdx, ∃ q ∈
        MethodState.chosen c.partials x.1.2 (MethodState.selection x.1.2 relevant),
          (q.of, q.wrt) = pair := by
  by_cases happrox : c.Approximates pair
  · obtain ⟨e, he, k, hk, p, hp, rfl, hrequest⟩ := happrox
    obtain ⟨q, hq⟩ := Option.isSome_iff_exists.1 hrequest
    obtain ⟨place, hplace⟩ := List.mem_iff_getElem?.1 he
    refine .inr ⟨(e, place), List.mem_zipIdx_iff_getElem?.2 hplace, q, ?_, ?_⟩
    · have hselected : (k, true) ∈ e.2.zip (MethodState.selection e.2 relevant) := by
        rw [MethodState.selection, ← List.map_prod_left_eq_zip, List.mem_map]
        refine ⟨k, hk, Prod.ext rfl ?_⟩
        cases relevant with
        | none => rfl
        | some on => exact h on rfl k p hp rfl
      exact List.mem_filterMap.2 ⟨_, hselected, by rw [if_pos rfl, hp]; exact hq⟩
    · obtain ⟨settings, -, rfl⟩ := Option.map_eq_some_iff.1 hq
      rfl
  · exact .inl happrox

/-- A lenient model of stateless components that make the same writes in every call. -/
structure Model.Steady (m : Model R M) : Prop where
  lenient : m.policy ≠ .reject
  stateless : ∀ c ∈ m.components, c.component.Stateless
  rewrites : ∀ c ∈ m.components, ∃ targets, c.Rewrites targets
  distinct : ∀ c ∈ m.components, (c.partials.map fun p => (p.of, p.wrt)).Nodup

/-- A method of a component has some partials selected. -/
def ModelState.Selects (s : ModelState R M) (c place : Nat) (selected : List Bool) : Prop :=
  ∀ k, s.components[c]? = some k → ∀ a, k.methods[place]? = some a → a.selected = some selected

omit [Scalar R] [DirectSolver R] in
theorem ModelState.selects_modifyComponent {s : ModelState R M} {c place : Nat}
    {selected : List Bool} {f : ComponentState R M → ComponentState R M}
    (hf : ∀ k, s.components[c]? = some k → ∀ a, (f k).methods[place]? = some a →
      a.selected = some selected) : (s.modifyComponent c f).Selects c place selected := by
  intro k hk
  rw [modifyComponent, List.getElem?_modify_eq] at hk
  obtain ⟨old, hold, rfl⟩ := Option.map_eq_some_iff.1 hk
  exact hf old hold

namespace Model

variable {m : Model R M} {anchors : ModelState R M × ModelState R M} {c : Nat}
  {component : ModelComponent R M} {P : String × String → Prop}

omit [Scalar R] [DirectSolver R] in
/-- Sequences that begin with what a component keeps. -/
theorem couples_kept_bind {α : Type} {pre err : ModelState R M → ModelState R M → Prop}
    {post : α → α → ModelState R M → ModelState R M → Prop}
    {f g : ComponentState R M → ModelWork R M α}
    (hpre : ∀ s t, pre s t → s.components[c]?.isSome = t.components[c]?.isSome)
    (h : ∀ s t k l, pre s t → s.components[c]? = some k → t.components[c]? = some l →
      Action.Alike post err ((f k).perform s) ((g l).perform t)) :
    Action.Couples pre post err (kept c >>= f) (kept c >>= g) := by
  intro s t hs
  have hsome := hpre s t hs
  simp only [kept, Action.perform_bind, Action.perform_read]
  cases hk : s.components[c]? with
  | none =>
    cases hl : t.components[c]? with
    | none => exact .breach
    | some l =>
      rw [hk, hl] at hsome
      cases hsome
  | some k =>
    cases hl : t.components[c]? with
    | none =>
      rw [hk, hl] at hsome
      cases hsome
    | some l => exact h s t k l hs hk hl

omit [Scalar R] [DirectSolver R] in
/-- Sequences that begin with a component. -/
theorem couples_component_bind {α : Type} {pre err : ModelState R M → ModelState R M → Prop}
    {post : α → α → ModelState R M → ModelState R M → Prop}
    {f g : ModelComponent R M → ModelWork R M α}
    (h : ∀ component, m.components[c]? = some component →
      Action.Couples pre post err (f component) (g component)) :
    Action.Couples pre post err (m.component c >>= f) (m.component c >>= g) := by
  intro s t hs
  simp only [Model.component, Action.perform_bind, Action.perform_ofOutcome]
  cases hc : m.components[c]? with
  | none => exact .breach
  | some component => exact h component hc s t hs

/-- A component holds the same blocks in states that agree on all of them. -/
theorem Agreeing.blocks_eq (hm : m.Steady)
    (hcomponent : m.components[c]? = some component) {s t : ModelState R M}
    (h : m.Agreeing anchors c P s t) (hP : ∀ pair, P pair) {k l : ComponentState R M}
    (hk : s.components[c]? = some k) (hl : t.components[c]? = some l) :
    k.partials.blocks = l.partials.blocks := by
  obtain ⟨targets, hrewrites⟩ := hm.rewrites component (List.mem_of_getElem? hcomponent)
  have hkeys := (hrewrites.held (h.left.component c component k hcomponent hk).holds).keys
  have hkeys' := (hrewrites.held (h.right.component c component l hcomponent hl).holds).keys
  exact Table.ext_of_keys (hkeys.trans hkeys'.symm) fun pair => h.agree k l hk hl pair (hP pair)

section Component

variable (hm : m.Steady) (hcomponent : m.components[c]? = some component)

include hm hcomponent

/-- **A component fills in the partials that it computes itself** in the same way, whatever it holds
and whatever its memory. -/
theorem couples_computePartials (x : Array R) :
    Action.Couples (m.Matched anchors)
      (fun _ _ => m.Agreeing anchors c fun pair => ¬ component.Approximates pair)
      (m.Matched anchors) (computePartials c component x) (computePartials c component x) := by
  obtain ⟨targets, hrewrites⟩ := hm.rewrites component (List.mem_of_getElem? hcomponent)
  refine couples_kept_bind (fun s t hs => hs.isSome_eq c) fun s t k l hs hk hl => ?_
  have hk' := hs.left.component c component k hcomponent hk
  have hl' := hs.right.component c component l hcomponent hl
  have hanswer := hrewrites.answer_eq x (μ := k.memory) (ν := l.memory) hk'.holds hl'.holds
  have hholds {k : ComponentState R M} (hk : k.Sound component m.policy)
      (ha : ((component.component.computePartials x).perform (k.memory, k.partials)).1.Answers) :=
    ModelComponent.Holds.call x k.memory hk.holds ha
  have hagree (hok : ((component.component.computePartials x).perform (k.memory, k.partials)).1 =
      .ok ()) (pair : String × String) (hpair : ¬ component.Approximates pair) :=
    hrewrites.get?_eq_of_calls (x := x) (μ := k.memory) (ν := l.memory) hk'.holds hl'.holds hok hpair
  have hholdsl := hholds hl'
  replace hholds := hholds hk'
  simp only [Action.perform_on, Action.perform_mapError]
  generalize (component.component.computePartials x).perform (k.memory, k.partials) = r
    at hanswer hholds hagree
  generalize (component.component.computePartials x).perform (l.memory, l.partials) = q
    at hanswer hholdsl hagree
  obtain ⟨answer, μ, p⟩ := r
  obtain ⟨answer', ν, p'⟩ := q
  obtain rfl : answer = answer' := hanswer
  have hend {Q : String × String → Prop} (ha : answer.Answers)
      (hQ : ∀ pair, Q pair → p.blocks.get? pair = p'.blocks.get? pair) :
      m.Agreeing anchors c Q (s.modifyComponent c fun k => { k with memory := μ, partials := p })
        (t.modifyComponent c fun k => { k with memory := ν, partials := p' }) := by
    refine hs.agreeing.modifyComponent (fun component' k' hc _ hk'' => ?_)
      (fun component' l' hc _ hl'' => ?_) fun _ _ _ _ => hQ
    · obtain rfl := Option.some.inj (hcomponent.symm.trans hc)
      exact ⟨hholds ha, hk''.length_eq, hk''.method⟩
    · obtain rfl := Option.some.inj (hcomponent.symm.trans hc)
      exact ⟨hholdsl ha, hl''.length_eq, hl''.method⟩
  rcases answer with (e | _) | ⟨⟩
  · exact .error (hend (Q := fun _ => False) (by simp) fun _ h => h.elim).toMatched
  · exact .breach
  · exact .value (hend (by simp) (hagree rfl))

/-- **Blocks are stored in the same way**, whatever the component holds, and are the same from then
on. -/
theorem couples_storeBlocks (blocks : Jacobian R)
    (hfits : ∀ e ∈ blocks.entries, component.Fits e.1 e.2) :
    Action.Couples (m.Agreeing anchors c P)
      (fun _ _ => m.Agreeing anchors c fun pair => P pair ∨ pair ∈ blocks.keys) (m.Matched anchors)
      (storeBlocks c blocks) (storeBlocks c blocks) := by
  obtain ⟨targets, hrewrites⟩ := hm.rewrites component (List.mem_of_getElem? hcomponent)
  unfold storeBlocks Table.keys
  generalize blocks.entries = entries at hfits
  induction entries generalizing P with
  | nil => exact Action.couples_pure fun s t hs => hs.mono fun pair hpair => by simpa using hpair
  | cons e rest ih =>
    obtain ⟨⟨of, wrt⟩, b⟩ := e
    obtain ⟨hfit, hrest⟩ := List.forall_mem_cons.1 hfits
    obtain ⟨happrox, old, hold, hform⟩ := hfit
    have hone : Action.Couples (m.Agreeing anchors c P)
        (fun _ _ => m.Agreeing anchors c fun pair => P pair ∨ pair = (of, wrt)) (m.Matched anchors)
        (do
          let kept ← kept c
          let partials ← Action.ofOutcome <|
            (Outcome.ofExcept (kept.partials.insert of wrt b)).mapError .declaration
          modify fun s : ModelState R M =>
            s.modifyComponent c fun k => { k with partials := partials })
        (do
          let kept ← kept c
          let partials ← Action.ofOutcome <|
            (Outcome.ofExcept (kept.partials.insert of wrt b)).mapError .declaration
          modify fun s => s.modifyComponent c fun k => { k with partials := partials }) := by
      refine couples_kept_bind (fun s t hs => hs.isSome_eq c) fun s t k l hs hk hl => ?_
      have hk' := hs.left.component c component k hcomponent hk
      have hl' := hs.right.component c component l hcomponent hl
      rcases hrewrites.insert_cases (of, wrt) b with ⟨e, he⟩ | ⟨hok, old', hold', hshape⟩
      · dsimp only at he
        rw [he _ hk'.holds, he _ hl'.holds]
        exact .error hs.toMatched
      · dsimp only at hok
        rw [hok _ hk'.holds, hok _ hl'.holds]
        obtain rfl := Option.some.inj (hold.symm.trans hold')
        refine .value (hs.modifyComponent (fun component' k' hc hk'' _ => ?_)
          (fun component' l' hc hl'' _ => ?_) fun k' l' hk'' hl'' pair hpair => ?_)
        · obtain rfl := Option.some.inj (hcomponent.symm.trans hc)
          obtain rfl := Option.some.inj (hk.symm.trans hk'')
          exact ⟨.store hk'.holds happrox hold (hform hshape.1 hshape.2) (hok _ hk'.holds),
            hk'.length_eq, hk'.method⟩
        · obtain rfl := Option.some.inj (hcomponent.symm.trans hc)
          obtain rfl := Option.some.inj (hl.symm.trans hl'')
          exact ⟨.store hl'.holds happrox hold (hform hshape.1 hshape.2) (hok _ hl'.holds),
            hl'.length_eq, hl'.method⟩
        · rw [Table.get?_insert, Table.get?_insert]
          split
          · rfl
          · exact hs.agree k l hk hl pair (hpair.resolve_right ‹_›)
    refine Action.couples_bind hone fun _ _ => ?_
    exact (ih hrest).mono (fun _ _ h => h) (fun _ _ s t h => h.mono fun pair hpair => by
      simpa [or_assoc] using hpair) fun _ _ h => h

omit hcomponent [DirectSolver R] in
/-- **The work of schemes in one role on a component by itself** has the same outcome, whatever they
kept and whatever the memory of the component is. -/
theorem couples_onComponent (hmem : component ∈ m.components) (x y : Array R) (enclosed : Bool)
    {ρ : Scheme.Role R} {a b : Scheme R} (hρ : ρ.policy ≠ .reject)
    (ha : a.role = ρ ∧ a.Current (component.target false))
    (hb : b.role = ρ ∧ b.Current (component.target false))
    (diagnostics : ModelState R M → Diagnostics)
    {pre err : ModelState R M → ModelState R M → Prop}
    {keep : Scheme R → Diagnostics → ModelState R M → ModelState R M}
    (hpre : ∀ s t, pre s t → s.components[c]?.isSome = t.components[c]?.isSome)
    (hkeep : ∀ a b d d' μ ν n n' s t, a.role = ρ ∧ a.Current (component.target false) →
      b.role = ρ ∧ b.Current (component.target false) → pre s t →
        err (keep a d (s.modifyComponent c fun k => { k with memory := μ, runs := n }))
          (keep b d' (t.modifyComponent c fun k => { k with memory := ν, runs := n' }))) :
    Action.Couples pre (fun j j' s t => (j = j' ∧ Scheme.Serves ρ.requests j) ∧ err s t) err
      (m.onComponent c component x y a diagnostics keep
        (Scheme.computeJacobian (component.target enclosed)))
      (m.onComponent c component x y b diagnostics keep
        (Scheme.computeJacobian (component.target enclosed))) := by
  have hexact := component.target_exact enclosed (hm.stateless component hmem)
  have hgraph {s t : ComponentScope R M} (_ : s.view = t.view) :
      (component.target enclosed).graph s = (component.target enclosed).graph t := rfl
  refine couples_kept_bind hpre fun s t k l hs _ _ => ?_
  have htwins := Scheme.twins_computeJacobian (fun _ _ => rfl) (hexact.coupled hgraph) hρ
    ⟨a, diagnostics s, .start k x y (m.complex && component.component.complexSafe)⟩
    ⟨b, diagnostics t, .start l x y (m.complex && component.component.complexSafe)⟩
    ⟨⟨ha.1, hb.1, rfl⟩, ha.2, hb.2⟩
  have hserves := fun j v => Scheme.serves_of_computeJacobian (j := j) (v := v) (w := ⟨a,
    diagnostics s, .start k x y (m.complex && component.component.complexSafe)⟩) hexact.toRestoring ha.2
  simp only [Action.perform_on, Action.perform_mapError]
  generalize (Scheme.computeJacobian (component.target enclosed)).perform ⟨a, diagnostics s,
    .start k x y (m.complex && component.component.complexSafe)⟩ = r at htwins hserves
  generalize (Scheme.computeJacobian (component.target enclosed)).perform ⟨b, diagnostics t,
    .start l x y (m.complex && component.component.complexSafe)⟩ = q at htwins
  cases htwins with
  | value h =>
    obtain ⟨rfl, h⟩ := h
    refine .value ⟨⟨rfl, ha.1 ▸ hserves _ _ rfl⟩, ?_⟩
    exact hkeep _ _ _ _ _ _ _ _ s t ⟨h.left, h.currentLeft⟩ ⟨h.right, h.currentRight⟩ hs
  | error h =>
    exact .error (hkeep _ _ _ _ _ _ _ _ s t ⟨h.left, h.currentLeft⟩ ⟨h.right, h.currentRight⟩ hs)
  | breach => exact .breach

omit hm hcomponent [DirectSolver R] in
/-- What approximations of the chosen requests of a method store fits. -/
theorem fits_of_serves (hdistinct : (component.partials.map fun p => (p.of, p.wrt)).Nodup)
    {e : Method × List Nat} (he : e ∈ component.methods)
    {selected : List Bool} {j : Jacobian R}
    (hj : Scheme.Serves (MethodState.chosen component.partials e.2 selected) j) :
    ∀ x ∈ j.entries, component.Fits x.1 x.2 := by
  rintro ⟨pair, b⟩ hx
  obtain ⟨q, hq, rfl, hform⟩ := hj.form pair b ((Table.get?_eq_some_iff j pair b).2 hx)
  simp only [MethodState.chosen, List.mem_filterMap, Option.ite_none_right_eq_some,
    Option.bind_eq_some_iff] at hq
  obtain ⟨⟨k, on⟩, hk, -, p, hp, hq⟩ := hq
  obtain ⟨settings, hsettings, rfl⟩ := Option.map_eq_some_iff.1 hq
  obtain ⟨rows, cols, hold⟩ := ModelComponent.get?_initial hdistinct (List.mem_of_getElem? hp)
  refine ⟨⟨e, he, k, (List.of_mem_zip hk).1, p, hp, rfl, by rw [hq]; rfl⟩, _, hold,
    fun hrows hcols => ?_⟩
  rw [Block.rows_zeros] at hrows
  rw [Block.cols_zeros] at hcols
  rw [hform, Block.form_zeros, hrows, hcols]

/-- Agreeing states in which a method of a component has the same partials selected. -/
structure Selecting (m : Model R M) (anchors : ModelState R M × ModelState R M) (c : Nat)
    (P : String × String → Prop) (place : Nat) (selected : List Bool) (s t : ModelState R M) : Prop extends
    m.Agreeing anchors c P s t where
  left_selects : s.Selects c place selected
  right_selects : t.Selects c place selected

/-- Keeps the scheme of a method, and the notices. -/
def keepMethod (c place : Nat) (scheme : Scheme R) (diagnostics : Diagnostics)
    (s : ModelState R M) : ModelState R M :=
  { s.modifyComponent c fun k => { k with
      methods := k.methods.modify place fun a => { a with scheme := scheme } } with
    diagnostics := diagnostics }

omit hm hcomponent in
theorem Agreeing.keepMethod (hcomponent : m.components[c]? = some component) {place : Nat}
    {e : Method × List Nat} (he : component.methods[place]? = some e) {a b : Scheme R}
    {d d' : Diagnostics} {s t : ModelState R M} (h : m.Agreeing anchors c P s t)
    (hs : ∀ k, s.components[c]? = some k → ∀ own, k.methods[place]? = some own →
      ({ own with scheme := a } : MethodState R).Sound component m.policy e.2)
    (ht : ∀ l, t.components[c]? = some l → ∀ own, l.methods[place]? = some own →
      ({ own with scheme := b } : MethodState R).Sound component m.policy e.2) :
    m.Agreeing anchors c P (Model.keepMethod c place a d s) (Model.keepMethod c place b d' t) := by
  have hkept : m.Agreeing anchors c P
      (s.modifyComponent c fun k => { k with
        methods := k.methods.modify place fun own => { own with scheme := a } })
      (t.modifyComponent c fun k => { k with
        methods := k.methods.modify place fun own => { own with scheme := b } }) :=
    h.modifyKept hcomponent (fun _ => rfl) (fun _ => rfl)
      (fun k hk hsound => hsound.modifyMethod he fun own hown _ => hs k hk own hown)
      fun l hl hsound => hsound.modifyMethod he fun own hown _ => ht l hl own hown
  exact hkept.congr rfl rfl hkept.inputs_eq hkept.outputs_eq hkept.stack_eq

/-- Schemes of a method with the same requests approximate and store the same blocks. -/
theorem couples_approximateChosen {place : Nat} {e : Method × List Nat}
    (he : component.methods[place]? = some e) (x y : Array R) (enclosed : Bool)
    {selected : List Bool} {a b : MethodState R} (ha : a.Sound component m.policy e.2)
    (hb : b.Sound component m.policy e.2) (hasel : a.selected = some selected)
    (hbsel : b.selected = some selected) :
    Action.Couples (m.Selecting anchors c P place selected)
      (fun _ _ => m.Agreeing anchors c fun pair => P pair ∨
        ∃ q ∈ MethodState.chosen component.partials e.2 selected, (q.of, q.wrt) = pair)
      (m.Matched anchors)
      (m.onComponent c component x y a.scheme ModelState.diagnostics (keepMethod c place)
        (Scheme.computeJacobian (component.target enclosed)) >>= storeBlocks c)
      (m.onComponent c component x y b.scheme ModelState.diagnostics (keepMethod c place)
        (Scheme.computeJacobian (component.target enclosed)) >>= storeBlocks c) := by
  let bare : Scheme R := .empty component.path .component m.policy
  let ρ : Scheme.Role R :=
    { bare.role with requests := MethodState.chosen component.partials e.2 selected }
  have hrole {a : MethodState R} (ha : a.Sound component m.policy e.2)
      (hasel : a.selected = some selected) : a.scheme.role = ρ := by
    rw [ha.role_eq, ha.requests_eq _ hasel]
  have hsound {a : Scheme R} (ha : a.role = ρ ∧ a.Current (component.target false))
      {own : MethodState R} (hown : own.selected = some selected) :
      ({ own with scheme := a } : MethodState R).Sound component m.policy e.2 := by
    have hrequests : a.requests = MethodState.chosen component.partials e.2 selected :=
      congrArg Scheme.Role.requests ha.1
    refine ⟨⟨ha.1.trans (by rw [hrequests]), ?_⟩, ha.2, fun own' hown' => ?_⟩
    · rw [hrequests, ← hb.requests_eq _ hbsel]
      exact hb.valid
    · obtain rfl := Option.some.inj (hown.symm.trans hown')
      exact hrequests
  have hkeep (a b : Scheme R) (d d' : Diagnostics) (μ ν : M) (n n' : Nat) (s t : ModelState R M)
      (ha : a.role = ρ ∧ a.Current (component.target false))
      (hb : b.role = ρ ∧ b.Current (component.target false))
      (hs : m.Selecting anchors c P place selected s t) : m.Agreeing anchors c P
        (keepMethod c place a d (s.modifyComponent c fun k => { k with memory := μ, runs := n }))
        (keepMethod c place b d'
          (t.modifyComponent c fun k => { k with memory := ν, runs := n' })) := by
    have hran : m.Agreeing anchors c P
        (s.modifyComponent c fun k => { k with memory := μ, runs := n })
        (t.modifyComponent c fun k => { k with memory := ν, runs := n' }) :=
      hs.remember (fun _ => ⟨rfl, rfl⟩) fun _ => ⟨rfl, rfl⟩
    have hleft : (s.modifyComponent c fun k => { k with memory := μ, runs := n }).Selects c place
      selected := ModelState.selects_modifyComponent hs.left_selects
    have hright : (t.modifyComponent c fun k => { k with memory := ν, runs := n' }).Selects c place
      selected := ModelState.selects_modifyComponent hs.right_selects
    exact hran.keepMethod hcomponent he (fun k hk own hown => hsound ha (hleft k hk own hown))
      fun l hl own hown => hsound hb (hright l hl own hown)
  have hwork := (couples_onComponent hm (List.mem_of_getElem? hcomponent) x y enclosed hm.lenient
    ⟨hrole ha hasel, ha.current⟩ ⟨hrole hb hbsel, hb.current⟩ ModelState.diagnostics
    (fun s t hs => hs.isSome_eq c) hkeep).mono (fun _ _ h => h) (fun _ _ _ _ h => h)
      fun _ _ h => h.toMatched
  refine Action.couples_bind hwork ?_
  rintro j _ s t ⟨⟨rfl, hserves⟩, hs⟩
  have hstore := couples_storeBlocks hm hcomponent j
    (fits_of_serves (hm.distinct component (List.mem_of_getElem? hcomponent))
      (List.mem_of_getElem? he) hserves) s t hs
  refine hstore.mono (fun _ _ s t h => h.mono fun pair hpair => hpair.imp_right ?_) fun _ _ h => h
  rintro ⟨q, hq, rfl⟩
  exact hserves.covers q hq

/-- **A method approximates the partials that are asked for** in the same way, whatever was selected
before. -/
theorem couples_approximatePartials {place : Nat} {e : Method × List Nat}
    (he : component.methods[place]? = some e) (relevant : Option (List Bool)) (x y : Array R) :
    Action.Couples (m.Agreeing anchors c P)
      (fun _ _ => m.Agreeing anchors c fun pair => P pair ∨
        ∃ q ∈ MethodState.chosen component.partials e.2 (MethodState.selection e.2 relevant),
          (q.of, q.wrt) = pair)
      (m.Matched anchors) (m.approximatePartials c place e.2 relevant x y)
      (m.approximatePartials c place e.2 relevant x y) := by
  unfold approximatePartials
  refine couples_component_bind fun component' hc => ?_
  obtain rfl := Option.some.inj (hcomponent.symm.trans hc)
  refine couples_kept_bind (fun s t hs => hs.isSome_eq c) fun s t k l hs hk hl => ?_
  have hmethod {k : ComponentState R M} (hk : k.Sound component m.policy) :
      ∃ a, k.methods[place]? = some a ∧ a.Sound component m.policy e.2 := by
    have hlt : place < k.methods.length := hk.length_eq ▸ (List.getElem?_eq_some_iff.1 he).1
    exact ⟨_, List.getElem?_eq_getElem hlt, hk.method place e _ he (List.getElem?_eq_getElem hlt)⟩
  obtain ⟨a, ha, hasound⟩ := hmethod (hs.left.component c component k hcomponent hk)
  obtain ⟨b, hb, hbsound⟩ := hmethod (hs.right.component c component l hcomponent hl)
  rw [ha, hb]
  simp only [Outcome.ofOption, Action.perform_bind, Action.perform_ofOutcome]
  rcases MethodState.select_cases component m.policy e.2 relevant with ⟨err, hselect⟩ | hselect
  · rw [hselect a hasound, hselect b hbsound]
    exact .error hs.toMatched
  obtain ⟨a', ha', hasound', hasel⟩ := hselect a hasound
  obtain ⟨b', hb', hbsound', hbsel⟩ := hselect b hbsound
  rw [ha', hb']
  simp only [Outcome.ofExcept, Outcome.mapError, Action.perform_modify]
  have hrequests := hasound'.requests_eq _ hasel
  have hrequests' := hbsound'.requests_eq _ hbsel
  have hagreeing : m.Agreeing anchors c P
      (s.modifyComponent c fun k => { k with methods := k.methods.modify place fun _ => a' })
      (t.modifyComponent c fun k => { k with methods := k.methods.modify place fun _ => b' }) :=
    hs.modifyKept hcomponent (fun _ => rfl) (fun _ => rfl)
      (fun _ _ hk => hk.modifyMethod he fun _ _ _ => hasound')
      fun _ _ hl => hl.modifyMethod he fun _ _ _ => hbsound'
  have hselects (s : ModelState R M) {a : MethodState R}
      (ha : a.selected = some (MethodState.selection e.2 relevant)) :
      (s.modifyComponent c fun k => { k with methods := k.methods.modify place fun _ => a }).Selects
        c place (MethodState.selection e.2 relevant) := by
    refine ModelState.selects_modifyComponent fun k _ a' ha' => ?_
    rw [List.getElem?_modify_eq] at ha'
    obtain ⟨-, -, rfl⟩ := Option.map_eq_some_iff.1 ha'
    exact ha
  have hleft := hselects s hasel
  have hright := hselects t hbsel
  generalize (s.modifyComponent c fun k =>
    { k with methods := k.methods.modify place fun _ => a' }) = s' at hagreeing hleft ⊢
  generalize (t.modifyComponent c fun k =>
    { k with methods := k.methods.modify place fun _ => b' }) = t' at hagreeing hright ⊢
  rw [hrequests, hrequests']
  split
  · rename_i hempty
    rw [List.isEmpty_iff] at hempty
    exact .value (hagreeing.mono fun pair hpair => by simpa [hempty] using hpair)
  · rw [Action.perform_get_bind, Action.perform_get_bind, hagreeing.stack_eq]
    exact couples_approximateChosen hm hcomponent he x y _ hasound' hbsound' hasel hbsel s' t'
      ⟨hagreeing, hleft, hright⟩

/-- **All methods** approximate the partials that are asked for. -/
theorem couples_approximateMethods {methods : List ((Method × List Nat) × Nat)}
    (hmethods : ∀ x ∈ methods, component.methods[x.2]? = some x.1) (relevant : Option (List Bool))
    (x y : Array R) :
    Action.Couples (m.Agreeing anchors c P)
      (fun _ _ => m.Agreeing anchors c fun pair => P pair ∨ ∃ x ∈ methods, ∃ q ∈
        MethodState.chosen component.partials x.1.2 (MethodState.selection x.1.2 relevant),
          (q.of, q.wrt) = pair)
      (m.Matched anchors)
      (Action.forEach methods fun z => m.approximatePartials c z.2 z.1.2 relevant x y)
      (Action.forEach methods fun z => m.approximatePartials c z.2 z.1.2 relevant x y) := by
  induction methods generalizing P with
  | nil => exact Action.couples_pure fun s t hs => hs.mono fun pair hpair => by simpa using hpair
  | cons z rest ih =>
    obtain ⟨hz, hrest⟩ := List.forall_mem_cons.1 hmethods
    refine Action.couples_bind (couples_approximatePartials hm hcomponent hz relevant x y)
      fun _ _ => (ih hrest).mono (fun _ _ h => h) (fun _ _ s t h => h.mono fun pair hpair => ?_)
        fun _ _ h => h
    simpa [or_assoc] using hpair

end Component

/-- **Linearizing a component has the same outcome in matched states**, and leaves it with the same
blocks where they were asked for. -/
theorem couples_linearizeAt (hm : m.Steady) (relevant : Option (List Bool))
    (baseline : Option (Array R)) :
    Action.Couples (m.Matched anchors)
      (fun _ _ s t => ∀ component, m.components[c]? = some component →
        m.Agreeing anchors c (component.Asks relevant) s t)
      (m.Matched anchors) (m.linearizeAt c relevant baseline) (m.linearizeAt c relevant baseline) := by
  unfold linearizeAt
  refine couples_component_bind fun component hcomponent => ?_
  refine Action.couples_get_bind fun s t hs => ?_
  rw [hs.inputs_eq, hs.outputs_eq]
  dsimp only
  split
  · rw [Action.perform_bind, Action.perform_bind]
    exact .error hs
  · refine Action.couples_bind (couples_computePartials hm hcomponent _) (fun _ _ => ?_) s t hs
    refine (couples_approximateMethods hm hcomponent (fun x hx => ?_) relevant _ _).mono
      (fun _ _ h => h) (fun _ _ s t h component' hcomponent' => ?_) fun _ _ h => h
    · exact List.mem_zipIdx_iff_getElem?.1 hx
    · obtain rfl := Option.some.inj (hcomponent.symm.trans hcomponent')
      exact h.mono fun pair hpair => component.covered_of_asks hpair

end Model

end Sensitivity
