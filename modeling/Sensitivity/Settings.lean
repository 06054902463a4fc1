import Sensitivity.Scalar

/-!
# How a derivative is approximated

`Settings` collects the choices for one approximated derivative: the method, the
base step and the rule that scales it, the form and order of a finite difference,
and whether structurally independent columns may be perturbed together. Each
choice has a name; a name that is not one of them is an error that lists them.

`Settings.validate` refuses the combinations that no computation could carry out.
-/

namespace Sensitivity

/-- Finite differences or the complex step. -/
inductive Method where
  | finiteDifference
  | complexStep
deriving DecidableEq, Inhabited

/-- On which sides of the point a finite difference evaluates. -/
inductive Form where
  | forward
  | backward
  | central
deriving DecidableEq, Inhabited

/-- How the step of an entry follows from the base step. -/
inductive StepRule where
  /-- The base step itself. -/
  | absolute
  /-- Relative to the Euclidean norm of the variable. -/
  | relative
  /-- The same as `relative`, under an older name. -/
  | relativeLegacy
  /-- Relative to the mean absolute value of the variable. -/
  | relativeMean
  /-- Relative to the entry itself, a step for each. -/
  | relativeEntry
deriving DecidableEq, Inhabited

/-- What to do about entries found outside a declared pattern. -/
inductive PatternPolicy where
  | ignore
  | warn
  | reject
deriving DecidableEq, Inhabited

/-- A choice among named values. -/
class Named (α : Type) where
  /-- What is chosen. -/
  setting : String
  all : List α
  name : α → String

namespace Named

variable {α : Type} [Named α]

/-- The names of all values, in order. -/
def names : List String := (all (α := α)).map name

/-- The value with a name. -/
def ofName? (s : String) : Option α := all.find? fun a => name a == s

end Named

instance : Named Method where
  setting := "method"
  all := [.finiteDifference, .complexStep]
  name
    | .finiteDifference => "fd"
    | .complexStep => "cs"

instance : Named Form where
  setting := "form"
  all := [.forward, .backward, .central]
  name
    | .forward => "forward"
    | .backward => "backward"
    | .central => "central"

instance : Named StepRule where
  setting := "step_calc"
  all := [.absolute, .relative, .relativeLegacy, .relativeMean, .relativeEntry]
  name
    | .absolute => "abs"
    | .relative => "rel"
    | .relativeLegacy => "rel_legacy"
    | .relativeMean => "rel_avg"
    | .relativeEntry => "rel_element"

instance : Named PatternPolicy where
  setting := "sparsity_behavior"
  all := [.ignore, .warn, .reject]
  name
    | .ignore => "ignore"
    | .warn => "warn"
    | .reject => "error"

/-- Why settings are refused. -/
inductive SettingIssue (R : Type) where
  /-- `value` names none of the `allowed` values of a setting. -/
  | unknownName (setting value : String) (allowed : List String)
  /-- The step is not a positive finite number. -/
  | step (h : R)
  /-- The smallest step is not a positive finite number. -/
  | minimumStep (h : R)
  /-- Columns perturbed together cannot have a step for each entry. -/
  | directionalEntrySteps
  /-- No stencil of this order exists for this form. -/
  | order (order : Nat) (form : Form)

namespace Named

/-- Reads a name. -/
def parse {R α : Type} [Named α] (s : String) : Except (SettingIssue R) α :=
  match ofName? s with
  | some a => .ok a
  | none => .error (.unknownName (setting α) s (names (α := α)))

end Named

namespace Form

/-- The order used when none is asked for. -/
def defaultOrder : Form → Nat
  | forward | backward => 1
  | central => 2

/-- The orders that have a stencil. -/
def orders : Form → List Nat
  | forward | backward => [1, 2]
  | central => [2, 4]

end Form

/-- A list of numbers as messages write it. -/
def bracketed (xs : List Nat) : String :=
  "[" ++ ", ".intercalate (xs.map toString) ++ "]"

/-- The message of a refused setting. -/
def SettingIssue.message {R : Type} [Scalar R] : SettingIssue R → String
  | .unknownName setting value allowed =>
    let list := ", ".intercalate (allowed.map fun n => "'" ++ n ++ "'")
    s!"'{value}' is not a valid setting for {setting}; must be one of [{list}]."
  | .step h =>
    let text := Scalar.plainText h
    s!"step must be positive and finite, got {text}."
  | .minimumStep h =>
    let text := Scalar.plainText h
    s!"minimum_step must be positive and finite, got {text}."
  | .directionalEntrySteps =>
    "Option 'directional' is not supported when 'step_calc' is set to 'rel_element'."
  | .order k form =>
    let name := Named.name form
    let list := bracketed form.orders
    s!"order {k} is not available for '{name}' differences; must be one of {list}."

/-- The choices for one approximated derivative. -/
structure Settings (R : Type) where
  method : Method
  /-- The base step; without one, the place of the approximation decides. -/
  step : Option R
  form : Form
  /-- The order of a finite difference; without one, the default of its form. -/
  order : Option Nat
  stepRule : StepRule
  /-- No relative rule goes below this step. -/
  minimumStep : R
  /-- Perturb structurally independent columns together. -/
  directional : Bool

namespace Settings

variable {R : Type} [Scalar R]

/-- The base step of finite differences where none is given. -/
def defaultStep : R := 1e-6

/-- Forward differences of first order with the default step. -/
def finiteDifference : Settings R where
  method := .finiteDifference
  step := none
  form := .forward
  order := none
  stepRule := .absolute
  minimumStep := 1e-12
  directional := false

/-- The complex step with the default step. -/
def complexStep : Settings R := { finiteDifference with method := .complexStep }

instance : Inhabited (Settings R) := ⟨finiteDifference⟩

/-- Equality of settings, numbers compared as numbers. -/
instance : BEq (Settings R) where
  beq a b :=
    decide (a.method = b.method) && (a.step == b.step) && decide (a.form = b.form) &&
      a.order == b.order && decide (a.stepRule = b.stepRule) &&
      (a.minimumStep == b.minimumStep) && a.directional == b.directional

/-- The order of the difference. -/
def resolvedOrder (s : Settings R) : Nat := s.order.getD s.form.defaultOrder

/-- A step that can be taken. -/
def usableStep (h : R) : Bool := Scalar.isFinite h && !decide (h ≤ 0)

/-- Refuses settings that no computation could carry out. -/
def validate (s : Settings R) : Except (SettingIssue R) Unit :=
  match s.step.filter (!usableStep ·) with
  | some h => .error (.step h)
  | none =>
    if !usableStep s.minimumStep then .error (.minimumStep s.minimumStep)
    else if s.directional && s.stepRule = .relativeEntry then .error .directionalEntrySteps
    else if s.method = .finiteDifference && !s.form.orders.contains s.resolvedOrder then
      .error (.order s.resolvedOrder s.form)
    else .ok ()

end Settings

end Sensitivity
