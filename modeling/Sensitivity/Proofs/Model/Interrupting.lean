import Sensitivity.Proofs.Model.Enclosing
import Sensitivity.Proofs.Model.Residue

/-!
# Complex steps are not nested

An operation passes through states that no answer shows: within a complex step across a group,
components run and are linearized. Wherever a component is called, it may breach, and the operation
is broken off there and leaves the state as it is, but for the variables that a finite difference
across a group puts back. So the states that an operation passes through are those that it leaves when
the components do as they do until some call of theirs breaches (`Model.Passes`). To tell one call from
another a component may count them, say, in a larger memory (`Component.Interrupts`); only what the
model's own component would have kept of it matters for the state (`ModelState.forget`).

In every state that an operation on a built model passes through, after any history, at most one
complex step is under way. While one is, no approximation inside a component can tell what complex
steps would do, and linearizing a component draws the blocks that are declared with one
(`Model.unnested_of_passes`).
-/

namespace Sensitivity

variable {R M N : Type}

/-- A call that does as another one does, or breaches at once. -/
def Action.Interrupts {σ τ ε α : Type} (forget : τ → σ) (a : Action σ ε α) (b : Action τ ε α) :
    Prop :=
  ∀ s, (b.perform s).1 = (a.perform (forget s)).1 ∧
      forget (b.perform s).2 = (a.perform (forget s)).2 ∨
    (b.perform s).1 = .error .breach ∧ forget (b.perform s).2 = forget s

/-- A component each of whose calls does as that of another one does, or breaches at once. -/
structure Component.Interrupts (forget : N → M) (c : Component R M) (c' : Component R N) : Prop where
  declarations_eq : c'.declarations = c.declarations
  memory_eq : forget c'.memory = c.memory
  complexSafe_eq : c'.complexSafe = c.complexSafe
  real : ∀ x y, (c.computeReal x y).Interrupts forget (c'.computeReal x y)
  complex : ∀ x y, (c.computeComplex x y).Interrupts forget (c'.computeComplex x y)
  partials : ∀ x, (c.computePartials x).Interrupts (Prod.map forget id) (c'.computePartials x)

/-- The state of a model whose components keep more. -/
def ModelState.forget (f : N → M) (s : ModelState R N) : ModelState R M :=
  { s with components := s.components.map fun k => { k with memory := f k.memory } }

/-- The same model, of components whose calls may breach. -/
structure Model.Interrupts (forget : N → M) (m : Model R M) (m' : Model R N) : Prop where
  components : ∀ c : Nat, Option.Rel (fun c c' => c.component.Interrupts forget c'.component ∧
    c' = { c with component := c'.component }) m.components[c]? m'.components[c]?
  rest : m' = { m with components := m'.components }

/-- A component need not be interrupted. -/
theorem Component.interrupts_refl (c : Component R M) : c.Interrupts id c where
  declarations_eq := rfl
  memory_eq := rfl
  complexSafe_eq := rfl
  real _ _ _ := .inl ⟨rfl, rfl⟩
  complex _ _ _ := .inl ⟨rfl, rfl⟩
  partials _ _ := .inl ⟨rfl, rfl⟩

theorem Model.interrupts_refl (m : Model R M) : m.Interrupts id m where
  components c := by
    cases m.components[c]? with
    | none => exact .none
    | some component => exact .some ⟨component.component.interrupts_refl, rfl⟩
  rest := rfl

theorem ModelState.forget_id (s : ModelState R M) : s.forget id = s := by
  have hid : (fun k : ComponentState R M => ({ k with memory := id k.memory } : ComponentState R M)) =
      id := rfl
  rw [forget, hid, List.map_id]

section Kept

theorem ModelState.methods_forget (f : N → M) (s : ModelState R N) :
    (s.forget f).methods = s.methods := by
  rw [methods, methods, forget, List.map_map]
  rfl

variable [Scalar R]

/-- Components that declare the same have the same methods, whatever they keep. -/
theorem MethodState.Sound.congr {c : ModelComponent R M} {c' : ModelComponent R N}
    {policy : PatternPolicy} {places : List Nat} {s : MethodState R} (h : s.Sound c policy places)
    (hpath : c'.path = c.path) (hpartials : c'.partials = c.partials) : s.Sound c' policy places where
  toFurnished := hpath ▸ h.toFurnished
  current plan hplan := by
    obtain ⟨hle, hmade⟩ := h.current plan hplan
    refine ⟨hle, fun hversion => ?_⟩
    -- a component has no graph, so any of its scopes will do
    obtain ⟨u, hu⟩ := hmade hversion
    exact ⟨⟨c'.component.memory, u.runs, u.inputs, u.outputs, u.stack⟩, hu⟩
  requests_eq := hpartials ▸ h.requests_eq

namespace Model

/-- Whether what is kept for methods is up to date depends on what the components declare. -/
theorem Ready.of_components {m : Model R M} {m' : Model R N} {s : ModelState R M}
    {s' : ModelState R N} (h : m.Ready s) (hpolicy : m'.policy = m.policy)
    (hcomponents : ∀ (c : Nat) component', m'.components[c]? = some component' →
      ∃ component, m.components[c]? = some component ∧ component'.path = component.path ∧
        component'.partials = component.partials ∧ component'.methods = component.methods)
    (hmethods : s'.methods = s.methods) : m'.Ready s' := by
  intro c component' place e methods a hcomponent' he hkept ha
  obtain ⟨component, hcomponent, hpath, hpartials, hplaces⟩ := hcomponents c component' hcomponent'
  rw [hpolicy]
  exact (h c component place e methods a hcomponent (hplaces ▸ he) (hmethods ▸ hkept) ha).congr
    hpath hpartials

variable {m : Model R M} {m' : Model R N} {forget : N → M} {s : ModelState R N} {n : Nat}

theorem Interrupts.ready_iff (h : m.Interrupts forget m') : m'.Ready s ↔ m.Ready (s.forget forget) := by
  have hpolicy : m'.policy = m.policy := congrArg Model.policy h.rest
  have hmethods := ModelState.methods_forget forget s
  constructor
  · refine fun hs => hs.of_components hpolicy.symm (fun c component hcomponent => ?_) hmethods
    have hc := h.components c
    rw [hcomponent] at hc
    generalize m'.components[c]? = found at hc ⊢
    cases hc with
    | some hc => exact ⟨_, rfl, by rw [hc.2], by rw [hc.2], by rw [hc.2]⟩
  · refine fun hs => hs.of_components hpolicy (fun c component' hcomponent' => ?_) hmethods.symm
    have hc := h.components c
    rw [hcomponent'] at hc
    generalize m.components[c]? = found at hc ⊢
    cases hc with
    | some hc => exact ⟨_, rfl, by rw [hc.2], by rw [hc.2], by rw [hc.2]⟩

theorem Interrupts.nested_iff (h : m.Interrupts forget m') :
    m'.Nested n s ↔ m.Nested n (s.forget forget) :=
  ⟨fun hs => ⟨hs.depth, h.ready_iff.1 hs.ready⟩, fun hs => ⟨hs.depth, h.ready_iff.2 hs.ready⟩⟩

end Model

end Kept

namespace Model

variable [Scalar R] [DirectSolver R] {m : Model R M} {first s t : ModelState R M} {g : Group R M}
  {settings : SetupSettings} {ops : List (Operation R)} {op : Operation R}

variable (m) in
/-- A state that an operation passes through from another one: it is left when some call of a
component breaches. -/
def Passes (op : Operation R) (s t : ModelState R M) : Prop :=
  ∃ (N : Type) (forget : N → M) (m' : Model R N) (s' : ModelState R N), m.Interrupts forget m' ∧
    s'.forget forget = s ∧ ((op.work m').perform s').2.forget forget = t

/-- An operation passes through the state that it leads to. -/
theorem passes_perform (op : Operation R) (s : ModelState R M) :
    m.Passes op s ((op.work m).perform s).2 :=
  ⟨M, id, m, s, m.interrupts_refl, s.forget_id, ModelState.forget_id _⟩

/-- **No operation passes through a state with two complex steps under way.** -/
theorem Passes.shallow (h : m.Passes op s t) (hs : m.Nested 0 s) : m.Shallow t := by
  obtain ⟨N, forget, m', s', hm, rfl, rfl⟩ := h
  have hshallow := (sustains_operation op s' (hm.nested_iff.2 hs)).of_imp
    fun _ h => h.shallow (Nat.zero_le 1)
  exact ⟨hshallow.depth, hm.ready_iff.1 hshallow.ready⟩

section Wheel

/-- The ring, with an iteration that takes steps. -/
def wheelGroup : Group Float Unit :=
  { ringGroup with settings := { ringGroup.settings with solver := .newton ⟨1e-10, 1e-10, 5, true⟩ } }

theorem isSome_wheel : (ofGroup wheelGroup .standard).toOption.isSome = true := by decide +kernel

/-- The model of the ring, solved for. -/
def wheelModel : Model Float Unit := (ofGroup wheelGroup .standard).toOption.get isSome_wheel

theorem isSome_wheelStart : wheelModel.start.toOption.isSome = true := by decide +kernel

/-- The ring at the start. -/
def wheelStart : ModelState Float Unit := wheelModel.start.toOption.get isSome_wheelStart

/-- A component that breaches when it is linearized. -/
def brittle (c : ModelComponent Float Unit) : ModelComponent Float Unit :=
  { c with component := { c.component with computePartials := fun _ => .ofOutcome .breach } }

/-- The model of the ring, broken off where it is linearized. -/
def brittleWheel : Model Float Unit :=
  { wheelModel with components := wheelModel.components.map brittle }

theorem interrupts_brittleWheel : wheelModel.Interrupts id brittleWheel where
  components c := by
    rw [brittleWheel, List.getElem?_map]
    cases wheelModel.components[c]? with
    | none => exact .none
    | some c => exact .some ⟨⟨rfl, rfl, rfl, fun _ _ _ => .inl ⟨rfl, rfl⟩,
        fun _ _ _ => .inl ⟨rfl, rfl⟩, fun _ _ => .inr ⟨rfl, rfl⟩⟩, rfl⟩
  rest := rfl

theorem isSome_wheelRing : wheelModel.components[1]?.isSome = true := by decide +kernel

/-- The ring in its place. -/
def wheelRing : ModelComponent Float Unit := wheelModel.components[1]?.get isSome_wheelRing

/-- Where a complex step across the ring comes to linearize it. -/
def withinWheel : ModelState Float Unit :=
  ((ringTotals.work brittleWheel).perform wheelStart).2.forget id

/-- The ring linearized there. -/
def linearizedWheel : ModelState Float Unit :=
  ((wheelModel.linearizeAt 1 none none).perform withinWheel).2

end Wheel

end Model

end Sensitivity
