import Sensitivity.Settings

/-!
# Steps

From settings to the step of an entry. The base step is the one given, else the
default of the place where the approximation happens (`Site.baseStep`); the step
rule scales it with the current values of the variable (`Steps.compute`).
-/

namespace Sensitivity

/-- Base steps for settings that give none. -/
structure BaseSteps (R : Type) where
  /-- Forward and backward differences. -/
  oneSided : R
  /-- Central differences. -/
  central : R
  /-- The complex step on the partials of one component. -/
  complexLocal : R
  /-- The complex step across a group or the whole model. -/
  complexGlobal : R

namespace BaseSteps

/-- The usual base steps. A complex step loses no digits, so it can be tiny. -/
def standard {R : Type} [Scalar R] : BaseSteps R := ⟨1e-6, 1e-6, 1e-20, 1e-40⟩

instance {R : Type} [Scalar R] : Inhabited (BaseSteps R) := ⟨standard⟩

/-- The base step for settings at a local or a global place. -/
def choose {R : Type} (b : BaseSteps R) (isGlobal : Bool) (s : Settings R) : R :=
  match s.method, s.form with
  | .finiteDifference, .central => b.central
  | .finiteDifference, _ => b.oneSided
  | .complexStep, _ => if isGlobal then b.complexGlobal else b.complexLocal

end BaseSteps

/-- Where an approximation happens. -/
inductive Site (R : Type) where
  /-- A component approximates its own partials. -/
  | component
  /-- A group or the whole model approximates its totals. -/
  | group
  /-- A check with base steps of its own, of a component or across the model. -/
  | check (defaults : BaseSteps R) (isGlobal : Bool)

namespace Site

variable {R : Type} [Scalar R]

/-- The base step of settings: the one they give, else the default of the place. -/
def baseStep (site : Site R) (s : Settings R) : R :=
  s.step.getD <| match site with
    | component => BaseSteps.standard.choose false s
    | group => BaseSteps.standard.choose true s
    | check defaults isGlobal => defaults.choose isGlobal s

end Site

/-- The steps of the entries of a variable. -/
inductive Steps (R : Type) where
  /-- One step for all entries. -/
  | uniform (h : R)
  /-- A step for each entry. -/
  | entries (hs : List R)

namespace Steps

variable {R : Type}

/-- The step of an entry. -/
def at? : Steps R → Nat → Option R
  | uniform h, _ => some h
  | entries hs, i => hs[i]?

variable [Scalar R]

/-- A relative step, kept from below: at least `minimum`, and never zero. -/
def raise (minimum h : R) : R :=
  let raised := Scalar.max h minimum
  if raised == 0 then minimum else raised

/-- The Euclidean norm. -/
def norm (xs : List R) : R := Scalar.sqrt (Scalar.sum (xs.map fun x => x * x))

/-- The mean absolute value; zero for no values. -/
def meanAbs (xs : List R) : R :=
  if xs.isEmpty then 0
  else Scalar.sum (xs.map Scalar.abs) / OfScientific.ofScientific xs.length false 0

/-- The steps of a variable with the given values. -/
def compute (values : List R) (rule : StepRule) (base minimum : R) : Steps R :=
  match rule with
  | .absolute => uniform (if base == 0 then minimum else base)
  | .relative | .relativeLegacy => uniform (raise minimum (base * norm values))
  | .relativeMean => uniform (raise minimum (base * meanAbs values))
  | .relativeEntry => entries (values.map fun x => raise minimum (base * Scalar.abs x))

end Steps

end Sensitivity
