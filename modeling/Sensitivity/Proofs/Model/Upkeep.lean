import Sensitivity.Proofs.Model.Nesting
import Sensitivity.Proofs.Model.Relaxing
import Sensitivity.Proofs.Model.TotalBlocks

/-!
# What components keep stays up to date

Whether or not schemes refuse entries outside patterns, and whatever fails, what the components of a
model keep is up to date after every history (`Model.upkept_of_reaches`). Refusals do not come into
this: with its schemes relaxed the state is sound for the model that refuses nothing
(`Model.Upkept.sound_relaxed`), so what is known of lenient models applies there.
-/

namespace Sensitivity

variable {R M : Type}

/-- The state without what is kept about groups. -/
def ModelState.ungrouped (s : ModelState R M) : ModelState R M :=
  { s with schemes := [], rootRequests := none }

variable [Scalar R]

/-- What is kept for a method is as up to date with its scheme relaxed. -/
theorem MethodState.Sound.relaxed {c : ModelComponent R M} {policy : PatternPolicy}
    {places : List Nat} {a : MethodState R} (h : a.Sound c policy places) :
    a.relaxed.Sound c policy.relaxed places where
  role_eq := congrArg (fun ρ : Scheme.Role R => { ρ with policy := ρ.policy.relaxed }) h.role_eq
  valid := h.valid
  current := h.current
  requests_eq := h.requests_eq

variable [DirectSolver R]

namespace Model

/-- What the components of a model keep is up to date. -/
def Upkept (m : Model R M) (s : ModelState R M) : Prop := ∃ anchor, m.Sound anchor s.ungrouped

variable {m : Model R M} {anchor s t : ModelState R M} {c : Nat} {component : ModelComponent R M}

theorem Sound.upkept (h : m.Sound anchor s) : m.Upkept s :=
  ⟨s.ungrouped, h.length_eq, h.component, fun _ => .none, rfl⟩

theorem Upkept.congr (h : m.Upkept s) (hcomponents : t.components = s.components) : m.Upkept t := by
  obtain ⟨anchor, hsound⟩ := h
  refine ⟨anchor, hsound.congr ?_⟩
  simp only [ModelState.caches, ModelState.ungrouped, hcomponents]

/-- Changes to a component that leave what it keeps up to date. -/
theorem Upkept.modifyComponent (h : m.Upkept s) (hcomponent : m.components[c]? = some component)
    {f : ComponentState R M → ComponentState R M}
    (hf : ∀ k, s.components[c]? = some k → k.Sound component m.policy →
      (f k).Sound component m.policy) : m.Upkept (s.modifyComponent c f) := by
  obtain ⟨anchor, hsound⟩ := h
  refine ⟨anchor, hsound.modifyComponent fun component' k hc hk hk' => ?_⟩
  obtain rfl := Option.some.inj (hcomponent.symm.trans hc)
  exact hf k hk hk'

/-- The memory of a component and the number of its runs may become anything. -/
theorem Upkept.ran (h : m.Upkept s) (c : Nat) (memory : M) (count : Nat → Nat) :
    m.Upkept (s.modifyComponent c fun k =>
      { k with memory := memory, runs := count k.runs }) := by
  obtain ⟨anchor, hsound⟩ := h
  exact ⟨anchor, hsound.modifyComponent fun _ _ _ _ hk => ⟨hk.holds, hk.length_eq, hk.method⟩⟩

theorem Upkept.kept (h : m.Upkept s) (hcomponent : m.components[c]? = some component)
    {k : ComponentState R M} (hk : s.components[c]? = some k) : k.Sound component m.policy := by
  obtain ⟨anchor, hsound⟩ := h
  exact hsound.component c component k hcomponent hk

/-- A model of stateless components, each with one block for a pair, that keeps its shape. -/
structure Orderly (m : Model R M) : Prop where
  stateless : ∀ c ∈ m.components, c.component.Stateless
  distinct : ∀ c ∈ m.components, (c.partials.map fun p => (p.of, p.wrt)).Nodup
  shape : ∀ c ∈ m.components, ∀ p, c.Holds p → ∀ pair,
    (p.blocks.get? pair).map (fun b => (b.rows, b.cols)) =
      (c.initial.blocks.get? pair).map fun b => (b.rows, b.cols)

omit [DirectSolver R] in
theorem Steady.orderly (hm : m.relaxed.Steady) : m.Orderly where
  stateless := hm.stateless
  distinct := hm.distinct
  shape c hc p hp := by
    obtain ⟨targets, hrewrites⟩ := hm.rewrites c hc
    exact (hrewrites.held hp).shape

section Linearize

variable (hm : m.Orderly) (hcomponent : m.components[c]? = some component)

include hcomponent in
theorem sustains_upkept_computePartials (x : Array R) :
    (computePartials c component x).Sustains m.Upkept fun _ => True := by
  intro s hs
  refine Action.ends_read_bind hs fun k hk => Action.ends_of_answers fun ha => ?_
  rw [Outcome.ofOption_eq_ok] at hk
  refine hs.modifyComponent hcomponent fun k' hk' hsound => ?_
  obtain rfl := Option.some.inj (hk.symm.trans hk')
  rw [Action.perform_on, Action.perform_mapError] at ha
  exact ⟨.call x k.memory hsound.holds ((Outcome.answers_mapError _ _).1 ha), hsound.length_eq,
    hsound.method⟩

include hm hcomponent

/-- Blocks that fit may be stored. -/
theorem sustains_upkept_storeBlocks {blocks : Jacobian R}
    (hfits : ∀ e ∈ blocks.entries, component.Fits e.1 e.2) :
    (storeBlocks c blocks : ModelWork R M Unit).Sustains m.Upkept fun _ => True := by
  refine Action.sustains_forEach_of_mem fun e he s hs => ?_
  obtain ⟨⟨of, wrt⟩, b⟩ := e
  refine Action.ends_read_bind hs fun k hk => ?_
  refine Action.ends_ofOutcome_bind hs fun p hp => .inl ?_
  rw [Outcome.ofOption_eq_ok] at hk
  rw [Outcome.mapError_eq_ok, Outcome.ofExcept_eq_ok] at hp
  obtain ⟨happrox, old, hold, hform⟩ := hfits _ he
  have hholds := (hs.kept hcomponent hk).holds
  refine hs.modifyComponent hcomponent fun k' _ hsound => ?_
  -- what is replaced has the shape of the block at the start
  obtain ⟨now, new, hnow, hnew, -⟩ := (Partials.write_eq_ok (w := ((of, wrt), .block b))).1 hp
  obtain ⟨hrows, hcols⟩ := (Option.ite_none_right_eq_some.1 hnew).1
  have hshape := hm.shape component (List.mem_of_getElem? hcomponent) _ hholds (of, wrt)
  rw [hnow, hold, Option.map_some, Option.map_some, Option.some.injEq, Prod.mk.injEq] at hshape
  exact ⟨.store hholds happrox hold (hform (hshape.1.symm.trans hrows) (hshape.2.symm.trans hcols))
    hp, hsound.length_eq, hsound.method⟩

/-- **Methods approximate blocks that fit**, and what is kept for them stays up to date wherever they
are broken off. -/
theorem sustains_upkept_approximatePartials {place : Nat} {e : Method × List Nat}
    (he : component.methods[place]? = some e) (relevant : Option (List Bool)) (x y : Array R) :
    (m.approximatePartials c place e.2 relevant x y).Sustains m.Upkept fun _ => True := by
  unfold approximatePartials
  refine Action.sustains_ofOutcome_bind fun component' hcomponent' => ?_
  rw [Outcome.ofOption_eq_ok] at hcomponent'
  obtain rfl := Option.some.inj (hcomponent.symm.trans hcomponent')
  intro s hs
  refine Action.ends_read_bind hs fun kept hkept => ?_
  rw [Outcome.ofOption_eq_ok] at hkept
  refine Action.ends_ofOutcome_bind hs fun state hstate => ?_
  rw [Outcome.ofOption_eq_ok] at hstate
  refine Action.ends_ofOutcome_bind hs fun chosen hchosen => ?_
  rw [Outcome.mapError_eq_ok, Outcome.ofExcept_eq_ok] at hchosen
  obtain ⟨hsound, hselected⟩ :=
    ((hs.kept hcomponent hkept).method place e state he hstate).select hchosen
  have hmethod {s : ModelState R M} (hs : m.Upkept s) {f : MethodState R → MethodState R}
      (hf : ∀ k, s.components[c]? = some k → ∀ a, k.methods[place]? = some a →
        (f a).Sound component m.policy e.2) :
      m.Upkept (s.modifyComponent c fun k => { k with methods := k.methods.modify place f }) :=
    hs.modifyComponent hcomponent fun k hk hk' => hk'.modifyMethod he fun a ha _ => hf k hk a ha
  have hstored := hmethod hs (f := fun _ => chosen) fun _ _ _ _ => hsound
  refine Action.ends_bind (P := m.Upkept) (.inl hstored) fun _ t ht _ => ?_
  obtain rfl : s.modifyComponent c _ = t := congrArg Prod.snd ht
  dsimp only
  split
  · exact .inl hstored
  rw [Action.perform_get_bind]
  refine Action.ends_bind (P := m.Upkept) ?_ fun blocks t hblocks ht => ?_
  · refine (ends_onComponent component x y chosen.scheme _
      (E := fun a => ({ chosen with scheme := a } : MethodState R).Sound component m.policy e.2)
      (fun w hw => hsound.settled _ hw) hstored fun a d μ runs ha => ?_).mono fun _ _ => trivial
    refine (hmethod (hstored.ran c μ fun _ => runs) (f := fun own => { own with scheme := a })
      fun k hk own hown => ?_).congr rfl
    -- what is kept for the method is what was chosen
    obtain rfl := Option.some.inj ((ModelState.getElem?_modifyComponent
      (ModelState.getElem?_modifyComponent hkept _) _).symm.trans hk)
    rw [List.getElem?_modify_eq] at hown
    obtain ⟨-, -, rfl⟩ := Option.map_eq_some_iff.1 hown
    exact ha
  · obtain ⟨k, u, -, hwork⟩ := Action.bind_eq_ok.1 hblocks
    rw [Action.perform_on, Action.perform_mapError] at hwork
    have hjacobian := (Outcome.mapError_eq_ok _ _ _).1 (congrArg Prod.fst hwork)
    have hexact := component.target_exact s.stack.isActive
      (hm.stateless component (List.mem_of_getElem? hcomponent))
    have hcurrent : chosen.scheme.Current (component.target s.stack.isActive) :=
      hsound.current.of_graph fun _ => rfl
    have hserves := Scheme.serves_of_computeJacobian hexact.toRestoring
      (w := ⟨chosen.scheme, _, _⟩) hcurrent (Action.perform_eq_ok hjacobian)
    have hrequests := hsound.requests_eq _ hselected
    refine sustains_upkept_storeBlocks hm hcomponent ?_ t ht
    exact fits_of_serves (hm.distinct component (List.mem_of_getElem? hcomponent))
      (List.mem_of_getElem? he) (hrequests ▸ hserves)

omit hcomponent in
/-- **Linearizing leaves what is kept up to date**, wherever it is broken off. -/
theorem preserves_upkept_linearizeAt (c : Nat) (relevant : Option (List Bool))
    (baseline : Option (Array R)) : (m.linearizeAt c relevant baseline).Preserves m.Upkept := by
  refine Action.Sustains.preserves (Q := fun _ => True) ?_
  unfold linearizeAt
  refine Action.sustains_ofOutcome_bind fun component hcomponent => ?_
  rw [Outcome.ofOption_eq_ok] at hcomponent
  refine Action.sustains_bind Action.sustains_get fun s => ?_
  dsimp only
  split
  on_goal 1 => refine Action.sustains_bind (Action.sustains_fail _) fun _ => ?_
  all_goals
    refine Action.sustains_bind (sustains_upkept_computePartials hcomponent _) fun _ => ?_
    exact Action.sustains_forEach_of_mem fun x hx => sustains_upkept_approximatePartials hm
      hcomponent (List.mem_zipIdx_iff_getElem?.1 hx) relevant _ _

end Linearize

theorem enduring_upkept (hm : m.Orderly) : m.Enduring m.Upkept where
  congr hs h := hs.congr (congrArg Prod.fst h)
  ran c memory count hs := hs.ran c memory count
  linearizeAt := preserves_upkept_linearizeAt hm

/-- **What components keep is up to date** through all operations. -/
theorem upkept_lasting (hm : m.Orderly) : m.Lasting fun s =>
    m.Upkept s ∧ (m.root.approximation.isSome → ∃ a, m.Rooted s a) where
  toEnduring := (enduring_upkept hm).and (rooted_lasting m).toEnduring
  root hroot hs := (rooted_lasting m).root hroot hs.2
  scheme hs ha hrole hcurrent :=
    ⟨hs.1.congr rfl, (rooted_lasting m).scheme hs.2 ha hrole hcurrent⟩
  requests hs ha hadded := ⟨hs.1.congr rfl, (rooted_lasting m).requests hs.2 ha hadded⟩

/-- **What components keep is up to date after every history.** -/
theorem upkept_of_reaches (hm : m.Orderly) {g : Group R M} {settings : SetupSettings}
    (hbuild : ofGroup g settings = .ok m) {first s : ModelState R M} (hstart : m.start = .ok first)
    {ops : List (Operation R)} (h : m.Reaches first ops s) : m.Upkept s :=
  ((upkept_lasting hm).of_reaches h
    ⟨(sound_start hstart).upkept, fun hroot => rooted_start hbuild hstart hroot⟩).1

/-- **A state with its schemes relaxed is sound** for the model that refuses nothing. -/
theorem Upkept.sound_relaxed (h : m.Upkept s) : ∃ anchor, m.relaxed.Sound anchor s.relaxed := by
  obtain ⟨anchor, hsound⟩ := h
  refine ⟨s.relaxed, (List.length_map ..).trans hsound.length_eq, fun c component k hcomponent hk => ?_,
    fun _ => .none, rfl⟩
  rw [s.getElem?_relaxed] at hk
  obtain ⟨old, hold, rfl⟩ := Option.map_eq_some_iff.1 hk
  have hk := hsound.component c component old hcomponent hold
  refine ⟨hk.holds, (List.length_map ..).trans hk.length_eq, fun place e a he ha => ?_⟩
  obtain ⟨own, hown, rfl⟩ := Option.map_eq_some_iff.1 ((List.getElem?_map ..).symm.trans ha)
  exact (hk.method place e own he hown).relaxed

end Model

end Sensitivity
