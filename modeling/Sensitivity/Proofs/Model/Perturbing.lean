import Mathlib
import Sensitivity.Proofs.Model.Affine
import Sensitivity.Proofs.Model.Pruning

/-!
# Runs of affine models

At a balanced point the inputs of a scope are what they read, and the outputs of its components are
what their laws say. An excursion moves some entries away from such a point and runs some components
(`Excursion`). Component by component (`Model.Underway.step`), the entries that matter end up moved by
their tangents (`Model.Underway.of_runSchedule`); a component may be passed over if nothing that
matters arrives at it. In real arithmetic the values move, and in complex arithmetic the imaginary
parts.
-/

namespace Sensitivity

variable {R M : Type} [ExactScalar R]

/-- Moves away from a point, with what is done about them. -/
structure Excursion (R : Type) where
  scope : Span
  mode : Mode
  active : ActiveSet
  /-- The entries of the inputs and outputs at the point. -/
  inputs : Nat → R
  outputs : Nat → R
  /-- What is added to them. -/
  inputMove : Nat → R
  outputMove : Nat → R
  /-- The entries of the outputs that matter. -/
  Matters : Nat → Prop

namespace Model

variable (m : Model R M)

/-- Connections lead from a component to one that runs later. -/
def Forward : Prop := ∀ target source v w, m.source? target = some source →
  m.variableAt? source = some v → m.variableAt? target = some w → v.owner < w.owner

/-- A laid out model of affine components, each of which reads outputs of earlier ones. -/
structure Affine (laws : Nat → AffineLaw R) : Prop where
  laid : m.Laid
  stacked : Consecutive 0 m.outputLength (m.components.map (·.outputs))
  forward : m.Forward
  component : ∀ (k : Nat) c, m.components[k]? = some c → c.Affine (laws k)

/-- The affine system of the components in a scope, with the connections inside it. -/
def flowIn (laws : Nat → AffineLaw R) (scope : Span) : Flow R :=
  (m.flow laws).within (m.inScope scope)

end Model

namespace Excursion

variable (e : Excursion R) (m : Model R M) (laws : Nat → AffineLaw R)

/-- A component does not change its outputs when its turn comes. -/
def Waits (k : Nat) : Prop :=
  e.active.contains k = false ∨ ∃ c, m.components[k]? = some c ∧ ¬ c.component.Obeys (laws k)

/-- How far an entry of the outputs ends up from the point. -/
def tangent (r : Nat) : R := (m.flowIn laws e.scope).tangent e.inputMove e.outputMove r

/-- An excursion from a balanced point. What matters depends on what matters alone, no move of an
output that matters is lost when its component runs, and none arrives at a component that does not
run. -/
structure Sound : Prop where
  connected : ∀ p q, (m.flowIn laws e.scope).wire p = some q → e.inputs p = e.outputs q
  computed : ∀ (k : Nat) c, m.components[k]? = some c → e.scope.contains k = true →
    c.component.Obeys (laws k) → ∀ r, c.outputs.contains r = true →
      e.outputs r = (laws k).offsetIn e.mode (r - c.outputs.start) +
        ∑ p ∈ Finset.range m.inputLength, (m.flow laws).slope r p * e.inputs p
  closed : ∀ r p q, e.Matters r → (m.flow laws).slope r p ≠ 0 →
    (m.flowIn laws e.scope).wire p = some q → e.Matters q
  kept : ∀ r k, e.Matters r → m.ownerOf? .output r = some k → e.scope.contains k = true →
    ¬ e.Waits m laws k → e.outputMove r = 0
  passed : ∀ r k, e.Matters r → m.ownerOf? .output r = some k → e.scope.contains k = true →
    e.active.contains k = false → e.tangent m laws r = e.outputMove r
  capable : e.mode = .complex → m.complex = true ∧ ∀ (k : Nat) c, m.components[k]? = some c →
    e.scope.contains k = true → c.component.complexSafe = true

end Excursion

namespace Model

variable {m : Model R M} {laws : Nat → AffineLaw R} {e : Excursion R} {s t : ModelState R M}
  {k : Nat} {c : ModelComponent R M}

section Affine

variable (hm : m.Affine laws)

include hm

/-- An entry that is read belongs to an earlier component, if it is in scope to one in scope. -/
theorem Affine.owner_of_wire {p q : Nat} (hp : m.ownerOf? .input p = some k)
    (h : (m.flow laws).wire p = some q) : ∃ j, m.ownerOf? .output q = some j ∧ j < k := by
  obtain ⟨id, source, w, v, hid, hw, hpw, hsource, hv, hvkind, hq, -⟩ := hm.laid.of_wire h
  have howner := hm.laid.ownerOf?_eq hv hq
  rw [hvkind] at howner
  rw [ownerOf?, hid, Option.bind_some, hw, Option.map_some] at hp
  exact ⟨v.owner, howner, Option.some.inj hp ▸ hm.forward id source v w hsource hv hw⟩

/-- The outputs of a component stand before those of later ones. -/
theorem Affine.lt_of_owner {j q r : Nat} (hq : m.ownerOf? .output q = some j)
    (hr : m.ownerOf? .output r = some k) (h : j < k) : q < r := by
  obtain ⟨b, hb, hbq⟩ := hm.laid.exists_component hq
  obtain ⟨c, hc, hcr⟩ := hm.laid.exists_component hr
  obtain ⟨hj, rfl⟩ := List.getElem?_eq_some_iff.1 hb
  obtain ⟨hk, rfl⟩ := List.getElem?_eq_some_iff.1 hc
  have hbefore := List.pairwise_iff_getElem.1 hm.stacked.pairwise j k
    (by simpa using hj) (by simpa using hk) h
  simp only [List.getElem_map] at hbefore
  rw [Flattening.spanOf, Span.contains_iff] at hbq hcr
  omega

theorem Affine.ordered : (m.flow laws).Ordered := by
  intro r p q hslope hwire
  obtain ⟨k, c, hc, hr, hp, -⟩ := hm.laid.of_slope_flow_ne_zero hslope
  obtain ⟨j, hj, hlt⟩ := hm.owner_of_wire ((hm.laid.owner_input_iff hc).2 hp) hwire
  exact hm.lt_of_owner hj ((hm.laid.owner_output_iff hc).2 hr) hlt

/-- What an entry of a component depends on, besides itself. -/
theorem Affine.tangent_eq (x y : Nat → R) (scope : Span) (r : Nat) :
    (m.flowIn laws scope).tangent x y r = y r + ∑ p ∈ Finset.range m.inputLength,
      (m.flow laws).slope r p *
        (m.flowIn laws scope).feed x ((m.flowIn laws scope).tangent x y) p :=
  Flow.tangent_eq (hm.ordered.within _) r

end Affine

/-- A run of the components of a scope in their order that has come to the component `next`: the
entries that matter are moved by their tangents where their component had its turn. -/
structure Underway (m : Model R M) (laws : Nat → AffineLaw R) (e : Excursion R) (next : Nat)
    (s : ModelState R M) : Prop where
  sized : m.Sized e.mode s
  free : ∀ p, (m.flowIn laws e.scope).wire p = none →
    s.inputs.entry e.mode p = e.inputs p + e.inputMove p
  output : ∀ r k, e.Matters r → m.ownerOf? .output r = some k → e.scope.start ≤ k → k < next →
    s.outputs.entry e.mode r = e.outputs r + e.tangent m laws r
  waiting : ∀ r k, e.Matters r → m.ownerOf? .output r = some k → next ≤ k → e.Waits m laws k →
    s.outputs.entry e.mode r = e.outputs r + e.outputMove r
  read : ∀ p q k, (m.flowIn laws e.scope).wire p = some q → e.Matters q →
    m.ownerOf? .input p = some k → e.scope.start ≤ k → k < next → e.active.contains k = true →
      s.inputs.entry e.mode p = e.inputs p + e.tangent m laws q

namespace Underway

/-- A component that does not run is passed over. -/
theorem pass (he : e.Sound m laws) (h : m.Underway laws e k s) (hk : e.scope.contains k = true)
    (hactive : e.active.contains k = false) : m.Underway laws e (k + 1) s where
  sized := h.sized
  free := h.free
  output r j hr hj hstart hlt := by
    rcases Nat.lt_succ_iff_lt_or_eq.1 hlt with hlt | rfl
    · exact h.output r j hr hj hstart hlt
    · rw [h.waiting r j hr hj (Nat.le_refl _) (.inl hactive), he.passed r j hr hj hk hactive]
  waiting r j hr hj hle := h.waiting r j hr hj (Nat.le_of_succ_le hle)
  read p q j hwire hq hj hstart hlt hj' := by
    refine h.read p q j hwire hq hj hstart ?_ hj'
    rcases Nat.lt_succ_iff_lt_or_eq.1 hlt with hlt | rfl
    · exact hlt
    · rw [hactive] at hj'
      cases hj'

/-- **A component that runs** pulls what its inputs are fed, and takes its outputs along. -/
theorem step (hm : m.Affine laws) (he : e.Sound m laws) (h : m.Underway laws e k s)
    (hk : e.scope.contains k = true) (hc : m.components[k]? = some c)
    (hactive : e.active.contains k = true)
    (hcompute : (m.compute k e.mode).perform (m.pull e.scope c s) = (.ok (), t)) :
    m.Underway laws e (k + 1) t := by
  have hlaid := hm.laid
  obtain ⟨hsized, houtputs, hpull⟩ := hlaid.pull_spec e.scope h.sized hc
  obtain ⟨hinputs, hsized', houtside, hidle, hlaw⟩ := hlaid.compute_spec (laws k) hsized hc
    (fun hmode => ⟨(he.capable hmode).1, (he.capable hmode).2 k c hc hk⟩) hcompute
  have hscope := (Span.contains_iff.1 hk).1
  -- what is pulled is moved by what it is fed
  have hfed (p : Nat) (hp : c.inputs.contains p = true)
      (hq : ∀ q, (m.flowIn laws e.scope).wire p = some q → e.Matters q) :
      t.inputs.entry e.mode p = e.inputs p +
        (m.flowIn laws e.scope).feed e.inputMove (e.tangent m laws) p := by
    rw [hinputs, hpull, if_pos hp, pulled_eq_feed laws]
    change (m.flowIn laws e.scope).feed _ _ p = _
    unfold Flow.feed
    split
    · rename_i q hwire
      obtain ⟨hread, hin⟩ := Option.filter_eq_some_iff.1 hwire
      obtain ⟨j, hj, hlt⟩ :=
        hm.owner_of_wire ((hlaid.owner_input_iff hc).2 hp) hread
      rw [inScope, hj, Option.any_some, Span.contains_iff] at hin
      rw [h.output q j (hq q hwire) hj hin.1 hlt, he.connected p q hwire]
    · rename_i hwire
      exact h.free p hwire
  have howner {r j : Nat} (hj : m.ownerOf? .output r = some j) (hne : j ≠ k) :
      t.outputs.entry e.mode r = s.outputs.entry e.mode r := by
    rw [houtside r ?_, houtputs]
    rw [← Bool.not_eq_true, ← hlaid.owner_output_iff hc, hj]
    exact fun heq => hne (Option.some.inj heq)
  refine ⟨hsized', fun p hp => ?_, fun r j hr hj hstart hlt => ?_, fun r j hr hj hle hwaits => ?_,
    fun p q j hwire hq hj hstart hlt hj' => ?_⟩
  · rw [hinputs, hpull]
    split
    · rw [pulled, show (m.wire p).filter (m.inScope e.scope) = none from hp]
      exact h.free p hp
    · exact h.free p hp
  · rcases Nat.lt_succ_iff_lt_or_eq.1 hlt with hlt | rfl
    · rw [howner hj (Nat.ne_of_lt hlt)]
      exact h.output r j hr hj hstart hlt
    have hrc : c.outputs.contains r = true := (hlaid.owner_output_iff hc).1 hj
    have htangent := hm.tangent_eq e.inputMove e.outputMove e.scope r
    by_cases hobeys : c.component.Obeys (laws j)
    · rw [hlaw hobeys r hrc, ← hinputs, ← hlaid.sum_slope hc hrc,
        he.computed j c hc hk hobeys r hrc, Excursion.tangent, htangent,
        he.kept r j hr hj hk, zero_add, add_assoc, ← Finset.sum_add_distrib]
      · refine congrArg (_ + ·) (Finset.sum_congr rfl fun p _ => ?_)
        rw [← mul_add]
        by_cases hslope : (m.flow laws).slope r p = 0
        · rw [hslope, zero_mul, zero_mul]
        · obtain ⟨j', c', hc', hr', hp', -⟩ := hlaid.of_slope_flow_ne_zero hslope
          obtain rfl : j = j' := Option.some.inj
            (hj.symm.trans ((hlaid.owner_output_iff hc').2 hr'))
          obtain rfl := Option.some.inj (hc.symm.trans hc')
          rw [hfed p hp' fun q hwire => he.closed r p q hr hslope hwire]
          rfl
      · rintro (hpassive | ⟨c', hc', hnot⟩)
        · rw [hactive] at hpassive
          cases hpassive
        · obtain rfl := Option.some.inj (hc.symm.trans hc')
          exact hnot hobeys
    · -- what is not computed stays where it was moved to
      obtain ⟨hholds, hzero⟩ | hobeys' := (hm.component j c hc).lawful
      swap
      · exact absurd hobeys' hobeys
      rw [hidle hholds, houtputs, h.waiting r j hr hj (Nat.le_refl _) (.inr ⟨c, hc, hobeys⟩),
        Excursion.tangent, htangent]
      refine congrArg (_ + ·) ((add_zero _).symm.trans (congrArg (_ + ·) ?_))
      refine (Finset.sum_eq_zero fun p _ => ?_).symm
      rw [hlaid.slope_flow hc hrc, hzero, ite_self, zero_mul]
  · rw [howner hj (Nat.ne_of_gt hle)]
    exact h.waiting r j hr hj (Nat.le_of_succ_le hle) hwaits
  · by_cases hp : c.inputs.contains p = true
    · rw [hfed p hp fun q' hwire' => Option.some.inj (hwire.symm.trans hwire') ▸ hq, Flow.feed,
        hwire]
    · have hne : j ≠ k := by
        rintro rfl
        exact hp ((hlaid.owner_input_iff hc).1 hj)
      rw [hinputs, hpull, if_neg hp]
      exact h.read p q j hwire hq hj hstart (by omega) hj'

/-- **A run of members** that are in scope takes all of them along. -/
theorem of_runSchedule [DirectSolver R] (hm : m.Affine laws) (he : e.Sound m laws) {path : String}
    {members : Members R M} {schedule : Schedule R} {first stop : Nat}
    (hfollows : Schedule.Follows m.components path members schedule first stop)
    (honce : ∀ x ∈ schedule.groups, x.1.solver = .runOnce) (hstart : e.scope.start ≤ first)
    (hstop : stop ≤ e.scope.stop) (h : m.Underway laws e first s)
    (hrun : (m.runSchedule e.active e.mode e.scope schedule).perform s = (.ok (), t)) :
    m.Underway laws e stop t := by
  induction hfollows generalizing s t with
  | empty path k =>
    cases hrun
    exact h
  | @component _ _ _ _ _ k stop c hc _ _ hrest ih =>
    have hk : e.scope.contains k = true := by
      have := hrest.le
      rw [Span.contains_iff]
      omega
    unfold runSchedule at hrun
    dsimp only at hrun
    split at hrun
    swap
    · rename_i hpassed
      exact ih honce (by omega) hstop (h.pass he hk (by simpa using hpassed)) hrun
    rename_i hactive
    obtain ⟨c', _, hcomponent, hpulled⟩ := Action.bind_eq_ok.1 hrun
    simp only [Model.component, Action.perform_ofOutcome, Prod.mk.injEq, Outcome.ofOption_eq_ok]
      at hcomponent
    obtain ⟨hc', rfl⟩ := hcomponent
    obtain ⟨_, _, hpull, hcomputed⟩ := Action.bind_eq_ok.1 hpulled
    cases hpull
    obtain ⟨_, u, hcompute, hrun⟩ := Action.bind_eq_ok.1 hcomputed
    exact ih honce (by omega) hstop (h.step hm he hk hc' hactive hcompute) hrun
  | @group _ _ _ _ _ g body rest stop _ _ _ hbody hrest ihbody ihrest =>
    have hg : g.solver = .runOnce := honce (g, body) List.mem_cons_self
    have hbodyOnce (x : ModelGroup R × Schedule R) (hx : x ∈ body.groups) :
        x.1.solver = .runOnce := honce x (List.mem_cons_of_mem _ (List.mem_append_left _ hx))
    have hrestOnce (x : ModelGroup R × Schedule R) (hx : x ∈ rest.groups) :
        x.1.solver = .runOnce := honce x (List.mem_cons_of_mem _ (List.mem_append_right _ hx))
    have hbefore : g.components.start ≤ g.components.stop := hbody.le
    have hafter : g.components.stop ≤ stop := hrest.le
    rw [runSchedule_group hg] at hrun
    obtain ⟨_, u, hbodyRun, hrun⟩ := Action.bind_eq_ok.1 hrun
    exact ihrest hrestOnce (by omega) hstop
      (ihbody hbodyOnce hstart (by omega) h hbodyRun) hrun

end Underway

end Model

end Sensitivity
