import Sensitivity.Model.Evaluation
import Sensitivity.Model.Linearize

/-!
# Newton iteration on a group

The unknowns are the outputs `y` of all components of a group, and the residual is
`y - f y`, where `f` runs every component once on inputs pulled from `y`. A step solves
`(I - df/dy) d = -(y - f y)` with the partials of the components at the real part of
the state. In a complex evaluation the imaginary part takes a step with the same
matrix, and its residual counts in units of the complex step.

Unless an error ends the iteration, the outputs left behind are the ones last computed.
-/

namespace Sensitivity

/-- How a Newton iteration ended. -/
structure NewtonResult (R : Type) where
  iterations : Nat
  converged : Bool
  /-- The norm of the last residual. -/
  norm : R

/-- The residual of some outputs. -/
structure Residual (R : Type) where
  re : Array R
  /-- The imaginary part, in a complex evaluation. -/
  im : Option (Array R)
  /-- The real parts of the computed outputs. -/
  computed : Array R

namespace Residual

variable {R : Type} [Scalar R]

/-- The sum of the squares of some values. -/
def sumSquares (xs : Array R) : R := Scalar.sum (xs.toList.map fun x => x * x)

/-- The Euclidean norm, imaginary parts in units of the complex step. -/
def norm (r : Residual R) (step : Option R) : R :=
  let imaginary := match r.im, step with
    | some im, some h => sumSquares (im.map fun x => x / h)
    | _, _ => 0
  Scalar.sqrt (sumSquares r.re + imaginary)

end Residual

/-- The group that a Newton iteration works on, and how. -/
structure NewtonFrame (R : Type) where
  settings : NewtonSettings R
  label : String
  components : List Nat
  /-- Where the outputs of the components stand. -/
  unknowns : Span
  mode : Mode
  /-- The components whose outputs are pulled. -/
  scope : Span
  /-- The step of the complex step under way, in a complex evaluation. -/
  step : Option R

namespace NewtonFrame

variable {R M : Type} [Scalar R] (m : Model R M) (frame : NewtonFrame R)

/-- Runs all components once on pulled inputs. The outputs stay as they were; the
residual is noted in the residual vector. -/
def residual : ModelWork R M (Residual R) := do
  let u := frame.unknowns
  let before ← get
  Action.forEach frame.components fun c => do
    let component ← m.component c
    modify (m.pull frame.scope component)
  Action.forEach frame.components fun c => m.compute c frame.mode
  let s ← get
  let y := before.outputs.readReal u
  let computed := s.outputs.readReal u
  let re := Array.zipWith (· - ·) y computed
  set { s with
    outputs := s.outputs.writeReal u y, residuals := s.residuals.writeReal u re }
  if !m.isComplexIn frame.mode then return ⟨re, none, computed⟩
  let y := before.outputs.readImag u
  let im := Array.zipWith (· - ·) y (s.outputs.readImag u)
  modify fun s => { s with
    outputs := s.outputs.writeImag u y, residuals := s.residuals.writeImag u im }
  return ⟨re, some im, computed⟩

/-- Subtracts a block of partials from the matrix of the iteration, if its input reads
one of the unknowns. -/
def couple (component : ModelComponent R M) (matrix : DenseMatrix R)
    (entry : (String × String) × Block R) : Option (DenseMatrix R) :=
  let ((of, wrt), block) := entry
  let output := (component.outputId? of).bind m.variableAt?
  let source := ((component.inputId? wrt).bind m.source?).bind m.variableAt?
  let u := frame.unknowns
  match output, source with
  | some output, some source =>
    if u.contains source.start then
      block.addInto? matrix (output.start - u.start) (source.start - u.start) (-1)
    else some matrix
  | _, _ => some matrix

/-- Subtracts the partials of some components at the outputs `computed`. -/
def addPartials (computed : Array R) : List Nat → DenseMatrix R → ModelWork R M (DenseMatrix R)
  | [], matrix => return matrix
  | c :: rest, matrix => do
    let component ← m.component c
    let own : Span := ⟨component.outputs.start - frame.unknowns.start, component.outputs.size⟩
    m.linearizeAt c none (some (own.slice computed))
    let kept ← Model.kept c
    let matrix ← Action.ofOutcome <| .ofOption <|
      kept.partials.blocks.entries.foldlM (frame.couple m component) matrix
    addPartials computed rest matrix

/-- The matrix `I - df/dy`. -/
def jacobian (computed : Array R) : ModelWork R M (DenseMatrix R) :=
  frame.addPartials m computed frame.components (.identity frame.unknowns.size)

variable [DirectSolver R]

/-- The step that a residual asks for. -/
def correction (matrix : DenseMatrix R) (residual : Array R) : ModelWork R M (Array R) := do
  let d ← Action.ofOutcome <| (Outcome.ofExcept <|
    solveColumn matrix (residual.toList.map fun x => -x)).mapError .system
  return d.toArray

/-- Moves the outputs by a Newton step. -/
def advance (r : Residual R) : ModelWork R M Unit := do
  let u := frame.unknowns
  let matrix ← frame.jacobian m r.computed
  let d ← correction matrix r.re
  modify fun s => { s with
    outputs := s.outputs.writeReal u (Array.zipWith (· + ·) (s.outputs.readReal u) d) }
  match r.im with
  | none => return
  | some im =>
    let d ← correction matrix im
    modify fun s => { s with
      outputs := s.outputs.writeImag u (Array.zipWith (· + ·) (s.outputs.readImag u) d) }

/-- Whether a residual norm is small enough. -/
def isSmall (first norm : R) : Bool :=
  let t := frame.settings
  decide (norm ≤ t.absolute) || (decide (0 < first) && decide (norm / first ≤ t.relative))

/-- Iterates until the residual is small, at most `remaining` more steps. `first` is
the norm of the first residual, once there is one. -/
def iterate (first : Option R) (remaining : Nat) : ModelWork R M (NewtonResult R) := do
  let r ← frame.residual m
  let norm := r.norm frame.step
  let first := first.getD norm
  let converged := frame.isSmall first norm
  let result : NewtonResult R := ⟨frame.settings.iterations - remaining, converged, norm⟩
  if converged then
    modify fun s => { s with outputs := s.outputs.writeReal frame.unknowns r.computed }
    return result
  match remaining with
  | 0 =>
    modify fun s => { s with outputs := s.outputs.writeReal frame.unknowns r.computed }
    return result
  | remaining + 1 =>
    frame.advance m r
    iterate (some first) remaining

/-- The notice that an iteration gave up. -/
def unconvergedDetail (iterations : Nat) (norm : R) : String :=
  let size := Scalar.scientificText norm
  s!"Newton failed to converge in {iterations} iterations (|R| = {size})"

/-- A whole iteration. Giving up is an error or a notice, as the settings say. -/
def solve : ModelWork R M (NewtonResult R) := do
  let result ← frame.iterate m none frame.settings.iterations
  if result.converged then return result
  if frame.settings.required then
    Action.fail (.notConverged frame.label result.iterations)
  let detail := unconvergedDetail result.iterations result.norm
  modify fun s => { s with diagnostics := s.diagnostics.push frame.label .nonConvergence detail }
  return result

end NewtonFrame

namespace Model

variable {R M : Type} [Scalar R] [DirectSolver R] (m : Model R M)

/-- Where the outputs of a group stand among all outputs. -/
def outputsOf (g : ModelGroup R) : Option Span := do
  let first ← m.components[g.components.start]?
  let last ← m.components[g.components.stop - 1]?
  Span.between? first.outputs.start last.outputs.stop

/-- Converges a group by Newton iteration. A group without components is converged. -/
def newton (g : ModelGroup R) (settings : NewtonSettings R) (mode : Mode) (scope : Span) :
    ModelWork R M (NewtonResult R) := do
  if g.components.size = 0 then return ⟨0, true, 0⟩
  let unknowns ← Action.ofOutcome (.ofOption (m.outputsOf g))
  let s ← get
  let step := if m.isComplexIn mode then s.stack.current?.map Activation.step else none
  NewtonFrame.solve m ⟨settings, g.label, g.members, unknowns, mode, scope, step⟩

end Model

end Sensitivity
