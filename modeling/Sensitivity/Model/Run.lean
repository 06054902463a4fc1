import Sensitivity.Model.Newton

/-!
# Running a model

Groups run their members in order, or solve for all of them together. Components that
are not active are passed over; a group under Newton iteration runs whole or not at
all.
-/

namespace Sensitivity

namespace Model

variable {R M : Type} [Scalar R] [DirectSolver R] (m : Model R M)

/-- Runs a schedule. Connections are pulled from components in `scope`. -/
def runSchedule (active : ActiveSet) (mode : Mode) (scope : Span) :
    Schedule R → ModelWork R M Unit
  | .done => return
  | .component c rest => do
    if active.contains c then
      let component ← m.component c
      modify (m.pull scope component)
      m.compute c mode
    runSchedule active mode scope rest
  | .group g body rest => do
    match g.solver with
    | .runOnce => runSchedule active mode scope body
    | .newton settings =>
      if g.members.any active.contains then discard (m.newton g settings mode scope)
    runSchedule active mode scope rest

/-- Converges a group with its schedule. -/
def solveGroup (g : ModelGroup R) (body : Schedule R) (active : ActiveSet) (mode : Mode)
    (scope : Span) : ModelWork R M Unit :=
  m.runSchedule active mode scope (.group g body .done)

/-- Runs the whole model in real arithmetic. -/
def run : ModelWork R M Unit :=
  m.solveGroup m.root m.schedule .all .real ⟨0, m.components.length⟩

end Model

end Sensitivity
