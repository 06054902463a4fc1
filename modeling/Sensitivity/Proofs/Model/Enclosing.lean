import Sensitivity.Proofs.Approximation.Enclosed
import Sensitivity.Proofs.Model.Storing

/-!
# Linearizing inside a complex step

While a complex step is under way around a component, its methods for complex steps store forward
differences of first order with the default step (`ModelComponent.Drawn`): those at the real parts of
its inputs, from the baseline that the linearization is given. In the end every block that was asked
for and that a method draws is drawn (`Model.drawn_of_linearizeAt`).
-/

namespace Sensitivity

variable {R M : Type} [Scalar R]

/-- The same settings with the forward difference of first order and the step `1e-6` itself. -/
def Settings.plainForward (s : Settings R) : Settings R :=
  { s with
    method := .finiteDifference
    step := some 1e-6
    form := .forward
    order := some 1
    stepRule := .absolute }

namespace ModelComponent

variable (c : ModelComponent R M) (x y : Array R) (complex : Bool)

/-- The plain forward difference of a component at some inputs and outputs, with no complex step
under way. `kept` holds its memory. -/
def forwardDifference (own : Settings R) (of : String) (i : Nat) (wrt : String) (j : Nat)
    (kept : ComponentState R M) : Outcome (ApproximationError R) R :=
  Scheme.quotient (c.target false) c.path .component own.plainForward (.start kept x y complex)
    of i wrt j

/-- **Inside a complex step a complex step stands for the plain forward difference.** -/
theorem quotient_of_enclosed {own : Settings R} (hmethod : own.method = .complexStep)
    (kept : ComponentState R M) (of : String) (i : Nat) (wrt : String) (j : Nat) :
    Scheme.quotient (c.target true) c.path .component own (.start kept x y complex) of i wrt j =
      c.forwardDifference x y complex own of i wrt j kept := by
  have hactive : (c.target true).complexStepActive (.start kept x y complex) = true := rfl
  have hplain : Scheme.settingsAt (c.target false) (.start kept x y complex) own.plainForward =
      own.plainForward := rfl
  rw [forwardDifference, Scheme.quotient, Scheme.quotient, Scheme.settingsAt_of_active hactive hmethod,
    hplain]
  rfl

/-- A block is drawn when its values are plain forward differences, if it is declared with a complex
step whose columns may not merge. They are differences at some memory of the component, and at any if
it is stateless. -/
def Drawn (blocks : Jacobian R) (pair : String × String) : Prop :=
  ∀ p ∈ c.partials, (p.of, p.wrt) = pair → ∀ own, p.provision.approximation = some own →
    own.method = .complexStep → own.directional = false → ∃ of wrt block,
      c.layout.locate? p.of = some of ∧ c.layout.locate? p.wrt = some wrt ∧
      blocks.get? pair = some block ∧
      block.Holds p.provision.pattern of.2.size wrt.2.size fun i j v =>
        (∃ kept, c.forwardDifference x y complex own p.of i p.wrt j kept = .ok v) ∧
        (c.component.Stateless →
          ∀ kept, c.forwardDifference x y complex own p.of i p.wrt j kept = .ok v)

variable {c x y complex}

theorem Drawn.congr {blocks blocks' : Jacobian R} {pair : String × String}
    (h : c.Drawn x y complex blocks pair) (hget : blocks'.get? pair = blocks.get? pair) :
    c.Drawn x y complex blocks' pair := by
  unfold Drawn
  rw [hget]
  exact h

/-- Differences of a stateless component do not depend on its memory. -/
theorem forwardDifference_congr (hc : c.component.Stateless) (own : Settings R) (of : String) (i : Nat)
    (wrt : String) (j : Nat) (kept kept' : ComponentState R M) :
    c.forwardDifference x y complex own of i wrt j kept =
      c.forwardDifference x y complex own of i wrt j kept' := by
  have hview : (ComponentScope.start kept x y complex).view =
      (ComponentScope.start kept' x y complex).view := rfl
  exact Scheme.quotient_congr (c.target_exact false hc) hview _ _ _ _ _ _ _

/-- Scopes with the same view differ in the memory of the component, and the number of its runs. -/
theorem exists_start_of_view {k : ComponentState R M} {u : ComponentScope R M}
    (h : u.view = (ComponentScope.start k x y complex).view) :
    ∃ kept : ComponentState R M, u = .start kept x y complex := by
  obtain ⟨hinputs, houtputs, hstack⟩ := ComponentScope.view_eq_iff.1 h
  refine ⟨{ k with memory := u.memory, runs := u.runs }, ?_⟩
  cases u
  cases hinputs
  cases houtputs
  cases hstack
  rfl

/-- **Inside a complex step a method draws its blocks.** -/
theorem drawn_of_computeJacobian [StrictScalar R]
    (hdistinct : (c.partials.map fun p => (p.of, p.wrt)).Nodup) {policy : PatternPolicy}
    {places : List Nat} (hplaces : places.Nodup) {a : MethodState R} (ha : a.Sound c policy places)
    {relevant : Option (List Bool)}
    (hselected : a.selected = some (MethodState.selection places relevant)) {d : Diagnostics}
    {k : ComponentState R M} {j : Jacobian R} {w : Session R (ComponentScope R M)}
    (h : (Scheme.computeJacobian (c.target true)).perform
      ⟨a.scheme, d, .start k x y complex⟩ = (.ok j, w)) {q : Request R}
    (hq : q ∈ MethodState.chosen c.partials places (MethodState.selection places relevant)) :
    c.Drawn x y complex j (q.of, q.wrt) := by
  have hrequests := ha.requests_eq _ hselected
  have hchosen := MethodState.nodup_chosen hplaces hdistinct relevant
  obtain ⟨sizes, hsizes, hall⟩ := Scheme.differences_of_computeJacobian (c.target_restoring true)
    (c.values_target true) (fun _ => rfl) (fun _ => rfl)
    (ha.current.of_graph fun _ => rfl) (hrequests ▸ hchosen) h
  intro p hp hpair own hown hmethod hdirectional
  have hrequest := request_of_mem_chosen hdistinct hq hp hpair
  rw [MethodState.request?, hown, Option.map_some, Option.some.injEq] at hrequest
  subst hrequest
  obtain ⟨rows, cols, block, hrows, hcols, hblock, hholds⟩ :=
    hall _ (hrequests ▸ hq) hmethod hdirectional
  obtain ⟨of, hof, rfl⟩ := locate?_of_sizes hsizes hrows
  obtain ⟨wrt, hwrt, rfl⟩ := locate?_of_sizes hsizes hcols
  rw [List.length_range, List.length_range] at hholds
  refine ⟨of, wrt, block, hof, hwrt, hblock, hholds.imp fun i _ j _ v hv => ?_⟩
  obtain ⟨i', j', u, hi, hj, hview, hquotient⟩ := hv
  obtain rfl : i = i' := by simpa using (List.getElem?_eq_some_iff.1 hi).2
  obtain rfl : j = j' := by simpa using (List.getElem?_eq_some_iff.1 hj).2
  obtain ⟨kept, rfl⟩ := exists_start_of_view hview
  have howner : a.scheme.owner = c.path := congrArg Scheme.Role.owner ha.role_eq
  have hsite : a.scheme.site = .component := congrArg Scheme.Role.site ha.role_eq
  rw [howner, hsite] at hquotient
  replace hquotient := (c.quotient_of_enclosed x y complex hmethod kept _ i _ j).symm.trans hquotient
  exact ⟨⟨kept, hquotient⟩, fun hc kept' =>
    (forwardDifference_congr hc own _ i _ j kept' kept).trans hquotient⟩

end ModelComponent

omit [Scalar R] in
theorem ActivationStack.depth_pos_of_isActive {s : ActivationStack R} (h : s.isActive = true) :
    0 < s.depth := by
  obtain ⟨activations⟩ := s
  cases activations with
  | nil => cases h
  | cons a rest => exact Nat.succ_pos _

namespace Model

variable {m : Model R M} {s t : ModelState R M} {c : Nat} {component : ModelComponent R M}

/-- **Linearizing a component inside a complex step draws the blocks that are asked for.** -/
theorem drawn_of_linearizeAt [StrictScalar R] (hm : m.Laid)
    (hcomponent : m.components[c]? = some component) (hs : m.Nested 1 s)
    {relevant : Option (List Bool)} {baseline : Option (Array R)}
    (h : (m.linearizeAt c relevant baseline).perform s = (.ok (), t)) :
    ∃ k, t.components[c]? = some k ∧ ∀ pair, component.Asks relevant pair →
      component.Drawn (s.inputs.readReal component.inputs)
        (baseline.getD (s.outputs.readReal component.outputs))
        (m.complex && component.component.complexSafe) k.partials.blocks pair := by
  have hlt : c < m.graph.components.length :=
    hm.length_eq ▸ (List.getElem?_eq_some_iff.1 hcomponent).1
  obtain ⟨d, hlaid⟩ := hm.component c component _ hcomponent (List.getElem?_eq_getElem hlt)
  have hdistinct := Declarations.nodup_resolve hlaid.partials
  obtain ⟨k, hk, hdrawn⟩ := stores_of_linearizeAt hm hcomponent hs
    ⟨ModelComponent.Drawn.congr, fun hplaces ha hselected hw _ hq =>
      ModelComponent.drawn_of_computeJacobian hdistinct hplaces ha hselected hw hq⟩ h
  refine ⟨k, hk, fun pair hasks p hp hpair own hown => ?_⟩
  exact hdrawn pair ⟨hasks, hpair ▸ hlaid.approximates hp hown⟩ p hp hpair own hown

end Model

end Sensitivity
