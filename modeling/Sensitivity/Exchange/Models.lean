import Sensitivity.Component.Expression
import Sensitivity.Exchange.Values
import Sensitivity.Workbench

/-!
# Components and models in the exchange format

An expression is a number, or a list of an operation and its operands. A component is
given by expressions or consists of independent variables, a group by its members,
connections, solver and approximation.

A setting with an unknown name in a component fails when the component is set up; in a
group it is refused at once.
-/

namespace Sensitivity

namespace Exchange

/-- The operation that a sign stands for. -/
def operation? (sign : Char) : Option BinaryOperation :=
  if sign = '+' then some .add
  else if sign = '-' then some .sub
  else if sign = '*' then some .mul
  else if sign = '/' then some .div
  else none

/-- The function that a word stands for. -/
def function? (word : String) : Option UnaryFunction :=
  [("neg", UnaryFunction.neg), ("sqrt", .sqrt), ("exp", .exp), ("ln", .log), ("sin", .sin),
    ("cos", .cos), ("tanh", .tanh), ("abs", .abs)].lookup word

mutual

/-- An expression; one of unknown form counts as zero. -/
def expression : Json → Expression Float
  | .array (.string word :: operands) =>
    let read := expressions operands
    let first := read.headD (.constant 0.0)
    let last := operands.getD 1 .null
    let named := (operands.headD .null).asString
    if word = "in" then .input named last.asNat
    else if word = "out" then .output named last.asNat
    else if word = "powi" then .powInt first last.asInt
    else if word = "powf" then .powReal first last.asFloat
    else
      match function? word, word.toList with
      | some f, _ => .unary f first
      | none, [sign] => match operation? sign with
        | some op => .binary op first (read.getD 1 (.constant 0.0))
        | none => .constant 0.0
      | none, [sign, 'r'] => match operation? sign with
        | some op => .binaryReal op first last.asFloat
        | none => .constant 0.0
      | none, _ => .constant 0.0
  | j => .constant j.asFloat

/-- Expressions in a list. -/
def expressions : List Json → List (Expression Float)
  | [] => []
  | j :: rest => expression j :: expressions rest

end

/-- A component given by expressions. -/
def expressionComponent (j : Json) : ExpressionComponent Float where
  inputs := namedSpecs (j.get "inputs")
  outputs := (j.get "outputs").asList.map fun v =>
    ((v.get "name").asString, variableSpec v, expressions (v.get "expr").asList)
  partials := (j.get "partials").asList.map fun p =>
    (selection (p.get "of"), selection (p.get "wrt"), provision p)
  checkSettings := (j.get? "check").map settings
  complexSafe := ((j.get? "complex_safe").map Json.asBool).getD true
  analytic := (j.get "analytic").asList.map fun a =>
    ⟨(a.get "of").asString, (a.get "wrt").asString, expressions (a.get "values").asList,
      (a.get "scalar").asBool⟩
  failures := (j.get "fail").asList.map fun f =>
    ⟨expression (f.get "expr"), (f.get "above").asFloat, (f.get "message").asString⟩

/-- A component. -/
def component (j : Json) : Component Float Unit :=
  if (j.get "type").asString = "indep" then
    Component.independent () (namedSpecs (j.get "outputs"))
  else (expressionComponent j).toComponent

/-- The settings of a Newton iteration, given members over the defaults. -/
def newtonSettings (j : Json) : NewtonSettings Float :=
  let s : NewtonSettings Float := .standard
  { absolute := ((j.get? "atol").map Json.asFloat).getD s.absolute
    relative := ((j.get? "rtol").map Json.asFloat).getD s.relative
    iterations := ((j.get? "maxiter").map Json.asNat).getD s.iterations
    required := ((j.get? "err_on_non_converge").map Json.asBool).getD s.required }

/-- What a group says besides its members. -/
def groupSettings (j : Json) : Read (GroupSettings Float) := do
  return {
    connections := (j.get "connections").asPairs.map fun c => (c.1.asString, c.2.asString)
    solver := match j.get? "newton" with
      | some n => .newton (newtonSettings n)
      | none => .runOnce
    approximation := ← (j.get? "approx").mapM settings }

mutual

/-- The members of a group in front of some others. -/
def members : List Json → Read (Members Float Unit)
  | [] => .ok .empty
  | j :: rest => do
    match ← group? j with
    | some g => return .group (j.get "name").asString g.settings g.members (← members rest)
    | none => return .component (j.get "name").asString (component j) (← members rest)

/-- A group, if it is marked as one. -/
def group? : Json → Read (Option (Group Float Unit))
  | .object fields =>
    if ((Json.object fields).get "type").asString = "group" then do
      let inner ← children fields
      return some ⟨← groupSettings (.object fields), inner⟩
    else return none
  | _ => return none

/-- The members that stand among the fields of a group. -/
def children : List (String × Json) → Read (Members Float Unit)
  | [] => .ok .empty
  | (key, .array items) :: rest => if key = "children" then members items else children rest
  | _ :: rest => children rest

end

/-- A whole system, which need not be marked as a group. -/
def system (j : Json) : Read (Group Float Unit) := do
  let inner ← members (j.get "children").asList
  return ⟨← groupSettings j, inner⟩

/-- A driver variable: a name, or a name with entries and a reference. -/
def driverVariable : Json → DriverVariable Float
  | .string s => .whole s
  | j => ⟨(j.get "name").asString, (j.get? "indices").map Json.asNats,
      (j.get? "ref").map Json.asFloat⟩

/-- Driver variables in a list. -/
def driverVariables (j : Json) : List (DriverVariable Float) := j.asList.map driverVariable

/-- A problem with its driver variables. -/
def problem (j : Json) : Read (Problem Float Unit) := do
  return { Problem.ofGroup (← system (j.get "model")) with
    designVariables := driverVariables (j.get "design_vars")
    objectives := driverVariables (j.get "objectives")
    constraints := driverVariables (j.get "constraints") }

/-- The settings of a check, given members over nothing. -/
def checkSettings (j : Json) : Read (CheckSettings Float) := do
  return {
    method := ← name? j "method"
    step := (j.get? "step").map Json.asFloat
    form := ← name? j "form"
    stepRule := ← name? j "step_calc"
    defaults := baseSteps (j.get "defaults")
    includes := (j.get? "includes").map Json.asStrings }

/-- The settings of a setup, given members over the defaults. -/
def setupSettings (j : Json) : Read SetupSettings := do
  return ⟨(j.get "force_alloc_complex").asBool, (← name? j "sparsity_behavior").getD .warn⟩

/-- Entries outside a pattern, with their largest magnitude. -/
def excess (j : Json) : Excess Float :=
  ⟨(j.get "rows").asNats, (j.get "cols").asNats, (j.get "max").asFloat⟩

/-- A compared block. -/
def comparison (j : Json) : Comparison Float :=
  let of := (j.get "of").asString
  let wrt := (j.get "wrt").asString
  ⟨of, wrt, (j.get "calc").asFloat, (j.get "check").asFloat, (j.get "abs").asFloat,
    (j.get "rel").asFloat, (j.get? "sparsity").map fun e => ⟨of, wrt, excess e⟩⟩

/-- A report of a check. -/
def report (j : Json) : Read (Report Float) := do
  let scopes ← (j.get "scopes").asList.mapM fun s => do
    return ⟨(s.get "scope").asString, ← name (s.get "method"), (s.get "step").asFloat,
      (s.get "comparisons").asList.map comparison⟩
  return ⟨scopes, (j.get "sparsity_tol").asFloat⟩

end Exchange

end Sensitivity
