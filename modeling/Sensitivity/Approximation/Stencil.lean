import Sensitivity.Approximation.Target
import Sensitivity.Table

/-!
# Finite differences

A stencil approximates a derivative by a weighted sum of values along a direction:
`(baseline * f x + Σ weight * f (x + offset * h)) / (denominator * h)`. The value at
the point itself is not evaluated again, and after each point of the stencil the
target returns to where it was.
-/

namespace Sensitivity

/-- The weights of a difference, in units of the step. -/
structure Stencil (R : Type) where
  /-- Offsets with their weights, in the order of evaluation. -/
  points : List (R × R)
  baseline : R
  denominator : R

namespace Stencil

variable {R : Type} [Scalar R]

/-- The stencil of a form and an order. -/
def ofForm? : Form → Nat → Option (Stencil R)
  | .forward, 1 => some ⟨[(1.0, 1.0)], -1.0, 1.0⟩
  | .forward, 2 => some ⟨[(1.0, 4.0), (2.0, -1.0)], -3.0, 2.0⟩
  | .backward, 1 => some ⟨[(-1.0, -1.0)], 1.0, 1.0⟩
  | .backward, 2 => some ⟨[(-1.0, -4.0), (-2.0, 1.0)], 3.0, 2.0⟩
  | .central, 2 => some ⟨[(1.0, 1.0), (-1.0, -1.0)], 0.0, 2.0⟩
  | .central, 4 => some ⟨[(2.0, -1.0), (1.0, 8.0), (-1.0, -8.0), (-2.0, 1.0)], 0.0, 12.0⟩
  | _, _ => none

/-- The stencil of a form and an order, which has to exist. -/
def ofForm (form : Form) (order : Nat) : Except (ApproximationError R) (Stencil R) :=
  match ofForm? form order with
  | some s => .ok s
  | none => .error (.stencil order form)

/-- The number of evaluations along a direction. -/
def evaluations (s : Stencil R) : Nat := s.points.length

/-- Adds weighted values to a sum, as far as both go. -/
def addWeighted (weight : R) : List R → List R → List R
  | a :: as, v :: vs => (a + weight * v) :: addWeighted weight as vs
  | as, _ => as

/-- Adds the weighted values of a point to the sums of their variables. -/
def accumulate (weight : R) (sums : Table String (List R)) (point : List (String × List R)) :
    Table String (List R) :=
  point.foldl (fun t nv =>
    match t.get? nv.1 with
    | some acc => t.insert nv.1 (addWeighted weight acc nv.2)
    | none => t) sums

variable {σ : Type} (T : Target R σ)

/-- Moves the perturbed entries by a multiple of their steps, evaluates, and reads. -/
def evaluatePoint (perturbations : List (Perturbation R)) (offset : R) (active : ActiveSet)
    (of : List String) : Action σ (ApproximationError R) (List (String × List R)) := do
  Action.forEach perturbations fun p => T.perturb p.name p.index (.real (offset * p.step))
  T.evaluate active .real
  T.readAll of .real

/-- Evaluates the points of a stencil one after another and sums up. -/
def sumPoints (saved : σ) (perturbations : List (Perturbation R)) (active : ActiveSet)
    (of : List String) : List (R × R) → Table String (List R) →
      Action σ (ApproximationError R) (Table String (List R))
  | [], sums => return sums
  | (offset, weight) :: rest, sums => do
    let point ← T.thenRestore saved (evaluatePoint T perturbations offset active of)
    sumPoints saved perturbations active of rest (accumulate weight sums point)

/-- The sums before any point: the weighted values at the point itself. -/
def startSums (s : Stencil R) (of : List String) (baseline : Table String (List R)) :
    Except (ApproximationError R) (Table String (List R)) :=
  of.foldlM (fun t name =>
    match baseline.get? name with
    | some f => .ok (t.insert name (f.map fun v => s.baseline * v))
    | none => .error (.unknownVariable name)) ∅

/-- The difference of each variable in `of` along a direction, divided by the
denominator of the stencil but not by a step. `baseline` holds the values at the
point. -/
def difference (s : Stencil R) (perturbations : List (Perturbation R)) (active : ActiveSet)
    (of : List String) (baseline : Table String (List R)) :
    Action σ (ApproximationError R) (Table String (List R)) := do
  let start ← Action.ofOutcome (.ofExcept (s.startSums of baseline))
  let saved ← get
  let sums ← sumPoints T saved perturbations active of s.points start
  return sums.map fun _ vs => vs.map fun v => v / s.denominator

end Stencil

end Sensitivity
