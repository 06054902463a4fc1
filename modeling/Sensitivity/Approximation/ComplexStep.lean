import Sensitivity.Approximation.Target
import Sensitivity.Table

/-!
# The complex step

A direction is evaluated at `x + i h`; the imaginary parts of the results, divided by
`h`, are derivatives without cancellation.

`ActivationStack` tells a model that such an evaluation is under way. `StepEngine`
takes one direction through its phases: perturbed, captured, and idle again. Beginning
out of turn, or capturing or ending what was not begun, is a breach.
-/

namespace Sensitivity

/-- A complex step under way. -/
structure Activation (R : Type) where
  /-- The scope that began it. -/
  owner : String
  step : R

/-- The complex steps under way, the innermost one first. -/
structure ActivationStack (R : Type) where
  activations : List (Activation R)
deriving Inhabited

namespace ActivationStack

variable {R : Type}

/-- No complex step under way. -/
def empty : ActivationStack R := ⟨[]⟩

/-- Begins a complex step. -/
def push (s : ActivationStack R) (owner : String) (step : R) : ActivationStack R :=
  ⟨⟨owner, step⟩ :: s.activations⟩

/-- Ends the innermost complex step, if there is one. -/
def pop (s : ActivationStack R) : ActivationStack R := ⟨s.activations.tail⟩

/-- The innermost complex step. -/
def current? (s : ActivationStack R) : Option (Activation R) := s.activations.head?

/-- Whether a complex step is under way. -/
def isActive (s : ActivationStack R) : Bool := !s.activations.isEmpty

/-- The number of complex steps under way. -/
def depth (s : ActivationStack R) : Nat := s.activations.length

end ActivationStack

/-- How far a direction has come. -/
inductive Phase where
  | idle
  | perturbed
  | captured
deriving DecidableEq

/-- A direction under way, with the state to return to. -/
structure StepEngine (σ : Type) where
  phase : Phase
  saved : Option σ

namespace StepEngine

/-- No direction under way. -/
def idle {σ : Type} : StepEngine σ := ⟨.idle, none⟩

/-- An engine and the state of its target. -/
structure Driven (σ : Type) where
  engine : StepEngine σ
  target : σ

variable {R σ : Type} [Scalar R] (T : Target R σ)

/-- An action on the target alone. -/
def onTarget {α : Type} (a : Action σ (ApproximationError R) α) :
    Action (Driven σ) (ApproximationError R) α :=
  a.on Driven.target fun d t => { d with target := t }

/-- A breach unless the engine is in one of some phases. -/
def require (allowed : Phase → Bool) : Action (Driven σ) (ApproximationError R) Unit :=
  .read fun d => if allowed d.engine.phase then .ok () else .breach

/-- Notes a new phase. -/
def setPhase (p : Phase) : Action (Driven σ) (ApproximationError R) Unit :=
  modify fun d => { d with engine := { d.engine with phase := p } }

/-- Saves the state, notes that a complex step begins and applies the imaginary
perturbations. -/
def start (owner : String) (perturbations : List (Perturbation R)) :
    Action (Driven σ) (ApproximationError R) Unit := do
  require (· = .idle)
  let step := Scalar.maximum (perturbations.map Perturbation.step)
  modify fun d => ⟨⟨.perturbed, some d.target⟩, T.enter owner step d.target⟩
  Action.forEach perturbations fun p => onTarget (T.perturb p.name p.index (.imag p.step))

/-- Evaluates once and reads the imaginary parts. -/
def capture (active : ActiveSet) (of : List String) :
    Action (Driven σ) (ApproximationError R) (Table String (List R)) := do
  require (· = .perturbed)
  onTarget (T.evaluate active .complex)
  let read ← onTarget (T.readAll of .imag)
  setPhase .captured
  return .ofList read

/-- Returns to the saved state and notes that the complex step is over. -/
def finish : Action (Driven σ) (ApproximationError R) Unit := do
  require (· ≠ .idle)
  modify fun d =>
    let restored := match d.engine.saved with
      | some saved => T.restore saved d.target
      | none => d.target
    ⟨idle, T.leave restored⟩

/-- A whole direction. The state returns whether or not the evaluation succeeds. -/
def run (owner : String) (perturbations : List (Perturbation R)) (active : ActiveSet)
    (of : List String) : Action (Driven σ) (ApproximationError R) (Table String (List R)) := do
  let captured ← Action.attempt do
    start T owner perturbations
    capture T active of
  finish T
  Action.ofOutcome (.ofExcept captured)

/-- A whole direction on a target that no other direction is using. -/
def runIdle (owner : String) (perturbations : List (Perturbation R)) (active : ActiveSet)
    (of : List String) : Action σ (ApproximationError R) (Table String (List R)) :=
  (run T owner perturbations active of).on (fun s => ⟨idle, s⟩) fun _ d => d.target

end StepEngine

end Sensitivity
