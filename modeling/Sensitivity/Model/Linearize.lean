import Sensitivity.Model.ComponentScope

/-!
# Partial derivatives of a component

`Model.linearizeAt` fills in the partials of a component at the real part of the
current state: first what the component computes itself, then an approximation of
every other block that is asked for. The blocks that a scheme has change only when the
choice of relevant partials does.
-/

namespace Sensitivity

namespace MethodState

variable {R : Type} [Scalar R]

/-- The request for an approximated partial. -/
def request? (p : DeclaredPartial R) : Option (Request R) :=
  p.provision.approximation.map fun settings =>
    { Request.whole p.of p.wrt settings with
      pattern := p.provision.pattern, everything := p.everything }

/-- For each of the partials at some places, whether it is relevant; all are when
nothing is said. -/
def selection (places : List Nat) (relevant : Option (List Bool)) : List Bool :=
  places.map fun k => match relevant with
    | some on => on.getD k false
    | none => true

/-- Gives the scheme the relevant ones of the partials at some places. -/
def select (s : MethodState R) (partials : List (DeclaredPartial R)) (places : List Nat)
    (relevant : Option (List Bool)) : Except (ApproximationError R) (MethodState R) := do
  let selected := selection places relevant
  if s.selected == some selected then return s
  let chosen := (places.zip selected).filterMap fun (k, on) =>
    if on then partials[k]?.bind request? else none
  return ⟨← s.scheme.clearRequests.addRequests chosen, some selected⟩

end MethodState

namespace Model

variable {R M : Type} [Scalar R] (m : Model R M)

/-- The work of a scheme on a component by itself, with notices going to `diagnostics`. -/
def onComponent {α : Type} (c : Nat) (component : ModelComponent R M) (x y : Array R)
    (scheme : Scheme R) (diagnostics : ModelState R M → Diagnostics)
    (keep : Scheme R → Diagnostics → ModelState R M → ModelState R M)
    (work : Scheme.Work R (ComponentScope R M) α) : ModelWork R M α := do
  let kept ← kept c
  let complex := m.complex && component.component.complexSafe
  (work.mapError .approximation).on
    (fun s => ⟨scheme, diagnostics s, .start kept x y complex⟩)
    fun s w => keep w.scheme w.diagnostics <| s.modifyComponent c fun k =>
      { k with memory := w.target.memory, runs := w.target.runs }

/-- Replaces blocks of the partials of a component. -/
def storeBlocks (c : Nat) (blocks : Jacobian R) : ModelWork R M Unit :=
  Action.forEach blocks.entries fun ((of, wrt), block) => do
    let kept ← kept c
    let partials ← Action.ofOutcome <|
      (Outcome.ofExcept (kept.partials.insert of wrt block)).mapError .declaration
    modify fun s => s.modifyComponent c fun k => { k with partials := partials }

/-- Approximates the relevant partials of a component that use the method at a place in
its list. -/
def approximatePartials (c place : Nat) (partialPlaces : List Nat)
    (relevant : Option (List Bool)) (x y : Array R) : ModelWork R M Unit := do
  let component ← m.component c
  let kept ← kept c
  let state ← Action.ofOutcome (.ofOption kept.methods[place]?)
  let state ← Action.ofOutcome <|
    (Outcome.ofExcept (state.select component.partials partialPlaces relevant)).mapError
      .approximation
  let store (f : MethodState R → MethodState R) (s : ModelState R M) : ModelState R M :=
    s.modifyComponent c fun k => { k with methods := k.methods.modify place f }
  modify (store fun _ => state)
  if state.scheme.requests.isEmpty then return
  let enclosed := (← get).stack.isActive
  let blocks ← m.onComponent c component x y state.scheme ModelState.diagnostics
    (fun scheme diagnostics s =>
      { store (fun k => { k with scheme := scheme }) s with diagnostics := diagnostics })
    (Scheme.computeJacobian (component.target enclosed))
  storeBlocks c blocks

/-- Lets a component fill in the partials that it computes itself. -/
def computePartials (c : Nat) (component : ModelComponent R M) (x : Array R) :
    ModelWork R M Unit := do
  let kept ← kept c
  ((component.component.computePartials x).mapError (.component component.path)).on
    (fun _ => (kept.memory, kept.partials))
    fun s r => s.modifyComponent c fun k => { k with memory := r.1, partials := r.2 }

/-- Fills in the partials of a component at its current inputs, with `baseline` as its
outputs there, or else its current outputs. -/
def linearizeAt (c : Nat) (relevant : Option (List Bool)) (baseline : Option (Array R)) :
    ModelWork R M Unit := do
  let component ← m.component c
  let s ← get
  let x := s.inputs.readReal component.inputs
  let y := baseline.getD (s.outputs.readReal component.outputs)
  if y.size ≠ component.outputs.size then
    Action.fail (.system (.dimensions component.outputs.size y.size))
  computePartials c component x
  Action.forEach component.methods.zipIdx fun ((_, partialPlaces), place) =>
    m.approximatePartials c place partialPlaces relevant x y

/-- Fills in the partials of a component at its current inputs and outputs. -/
def linearize (c : Nat) (relevant : Option (List Bool)) : ModelWork R M Unit :=
  m.linearizeAt c relevant none

end Model

end Sensitivity
