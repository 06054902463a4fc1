import Sensitivity.Model.Run

/-!
# Approximating across a group

The target of the derivatives of a group: the group in its place in the model,
evaluated with its own solver, pulling values from inside itself only. A restore
returns all vectors of the model.
-/

namespace Sensitivity

namespace Model

variable {R M : Type} [Scalar R] [DirectSolver R] (m : Model R M)

/-- A variable by its full name. -/
def locate (name : String) : Outcome (ApproximationError R) (ModelVariable R) :=
  .expect (.unknownVariable name) (m.variableTable.get? name)

/-- Adds to an entry of a variable. -/
def perturb (label name : String) (index : Nat) (delta : Delta R) :
    Action (ModelState R M) (ApproximationError R) Unit := do
  let s ← get
  let found ← Action.ofOutcome (m.locate name)
  let v ← Action.ofOutcome
    ((s.vector found.kind).perturb (shadowMissing label) (found.start + index) delta)
  set (s.setVector found.kind v)

/-- Whether complex evaluations of a group carry derivatives. -/
def isComplexSafe (g : ModelGroup R) : Bool :=
  m.complex && g.members.all fun c => m.components[c]?.any fun c => c.component.complexSafe

/-- A group as a target. -/
def groupTarget (g : ModelGroup R) (body : Schedule R) : Target R (ModelState R M) where
  size _ name := do return (← m.locate name).size
  values s name part := do
    let found ← m.locate name
    return (s.vector found.kind).readPart found.span part
  perturb := m.perturb g.label
  evaluate active mode :=
    (m.solveGroup g body active mode g.components).mapError fun e =>
      .evaluation g.label e.message
  restore := ModelState.restore
  complexCapable _ := m.isComplexSafe g
  complexStepActive s := s.stack.isActive
  enter owner step s := { s with stack := s.stack.push owner step }
  leave s := { s with stack := s.stack.pop }
  graph _ := some m.graph

/-- The work of a scheme on a group. Its notices come after those of the evaluations. -/
def onGroup {α : Type} (g : ModelGroup R) (body : Schedule R) (scheme : Scheme R)
    (keep : Scheme R → ModelState R M → ModelState R M)
    (work : Target R (ModelState R M) → Scheme.Work R (ModelState R M) α) : ModelWork R M α :=
  ((work (m.groupTarget g body)).mapError .approximation).on
    (fun s => ⟨scheme, .empty, s⟩)
    fun _ w => keep w.scheme
      { w.target with diagnostics := w.target.diagnostics.append w.diagnostics }

/-- Approximates the blocks of a scheme at the current state, leaving no trace of it. -/
def approximateAfresh (g : ModelGroup R) (body : Schedule R) (scheme : Scheme R) :
    ModelWork R M (Jacobian R) :=
  m.onGroup g body scheme (fun _ s => s) Scheme.computeJacobian

/-- Keeps the scheme of a group. -/
def keepScheme (g : ModelGroup R) (scheme : Scheme R) (s : ModelState R M) : ModelState R M :=
  { s with schemes := s.schemes.set g.number (some scheme) }

/-- Approximates the blocks of the scheme of a group, which is kept. -/
def approximateGroup (g : ModelGroup R) (body : Schedule R) (scheme : Scheme R) :
    ModelWork R M (Jacobian R) :=
  m.onGroup g body scheme (keepScheme g) Scheme.computeJacobian

end Model

end Sensitivity
