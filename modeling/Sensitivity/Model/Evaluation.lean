import Sensitivity.Model.State

/-!
# Running one component of a model

A component first pulls the values of its connected inputs from their sources and then
computes its outputs. Within a group that is evaluated by itself only the connections
from inside the group are pulled.
-/

namespace Sensitivity

namespace Model

variable {R M : Type} (m : Model R M)

/-- Pulls the value of an input from its source, if the component of the source is in
scope. -/
def pullInput (scope : Span) (s : ModelState R M) (id : Nat) : ModelState R M :=
  match m.variableAt? id, (m.source? id).bind m.variableAt? with
  | some input, some source =>
    if scope.contains source.owner then
      { s with inputs := s.inputs.copy input.span s.outputs source.span }
    else s
  | _, _ => s

/-- Pulls all connected inputs of a component. -/
def pull (scope : Span) (c : ModelComponent R M) (s : ModelState R M) : ModelState R M :=
  c.inputIds.foldl (m.pullInput scope) s

variable [Scalar R]

/-- Whether an evaluation carries imaginary parts. -/
def isComplexIn (mode : Mode) : Bool := mode = .complex && m.complex

/-- Runs a component on its stored inputs. -/
def compute (c : Nat) (mode : Mode) : ModelWork R M Unit := do
  let component ← m.component c
  let kept ← kept c
  .of fun s =>
    let (outcome, memory, outputs) :=
      (component.component.evaluate s.inputs component.inputs component.outputs
        (m.isComplexIn mode)).perform (kept.memory, s.outputs)
    let counted := s.modifyComponent c fun k => { k with memory := memory, runs := k.runs + 1 }
    (outcome.mapError (.component component.path), { counted with outputs := outputs })

end Model

end Sensitivity
