import Sensitivity.Component

/-!
# Components given by expressions

An expression is evaluated in any arithmetic over the reals, left operand first, from
the entries of named inputs and outputs. A component given by expressions has one for
each entry of its outputs, writes every result at once, and can have others for its
partial derivatives and for conditions under which it fails.

Naming a variable or an entry that does not exist is a breach.
-/

namespace Sensitivity

/-- Arithmetic between two values. -/
inductive BinaryOperation where
  | add
  | sub
  | mul
  | div
deriving DecidableEq

/-- Functions of one value. -/
inductive UnaryFunction where
  | neg
  | sqrt
  | exp
  | log
  | sin
  | cos
  | tanh
  | abs
deriving DecidableEq

/-- An expression over the entries of named variables. -/
inductive Expression (R : Type) where
  | constant (c : R)
  | input (name : String) (entry : Nat)
  | output (name : String) (entry : Nat)
  | binary (op : BinaryOperation) (a b : Expression R)
  /-- The right operand is a real number. -/
  | binaryReal (op : BinaryOperation) (a : Expression R) (c : R)
  | unary (f : UnaryFunction) (a : Expression R)
  | powInt (a : Expression R) (n : Int)
  | powReal (a : Expression R) (p : R)

namespace BinaryOperation

variable {R T : Type} [Number R T]

/-- The operation on two values. -/
def apply : BinaryOperation → T → T → T
  | add, x, y => x + y
  | sub, x, y => x - y
  | mul, x, y => x * y
  | div, x, y => x / y

/-- The operation on a value and a real number. -/
def applyReal : BinaryOperation → T → R → T
  | add => Number.addReal
  | sub => Number.subReal
  | mul => Number.mulReal
  | div => Number.divReal

end BinaryOperation

namespace UnaryFunction

/-- The value of the function. -/
def apply {R T : Type} [Number R T] : UnaryFunction → T → T
  | neg => Neg.neg
  | sqrt => Number.sqrt
  | exp => Number.exp
  | log => Number.log
  | sin => Number.sin
  | cos => Number.cos
  | tanh => Number.tanh
  | abs => Number.stepAbs

end UnaryFunction

/-- Flat values with the spans of the variables in them. -/
structure NamedValues (T : Type) where
  spans : Table String Span
  values : Array T

namespace NamedValues

variable {T : Type}

/-- The position of an entry of a variable. -/
def position? (v : NamedValues T) (name : String) (entry : Nat) : Option Nat := do
  let s ← v.spans.get? name
  if entry < s.size then some (s.start + entry) else none

/-- An entry of a variable. -/
def entry? (v : NamedValues T) (name : String) (entry : Nat) : Option T := do
  v.values[← v.position? name entry]?

/-- The values with an entry of a variable replaced. -/
def write? (v : NamedValues T) (name : String) (entry : Nat) (x : T) : Option (NamedValues T) := do
  let i ← v.position? name entry
  if i < v.values.size then some { v with values := v.values.setIfInBounds i x } else none

end NamedValues

namespace Expression

/-- The value of an expression. -/
def eval {R T : Type} [Scalar R] [Number R T] (inputs outputs : NamedValues T) :
    Expression R → Option T
  | constant c => some (Number.ofReal c)
  | input name entry => inputs.entry? name entry
  | output name entry => outputs.entry? name entry
  | binary op a b => do
    let x ← a.eval inputs outputs
    let y ← b.eval inputs outputs
    return op.apply x y
  | binaryReal op a c => return op.applyReal (← a.eval inputs outputs) c
  | unary f a => return f.apply (← a.eval inputs outputs)
  | powInt a n => return Number.powInt (← a.eval inputs outputs) n
  | powReal a p => return Number.powReal (← a.eval inputs outputs) p

end Expression

/-- A condition under which a component fails. -/
structure FailureRule (R : Type) where
  /-- Fails when the real part of this expression -/
  expression : Expression R
  /-- exceeds this limit, -/
  above : R
  /-- in these words. -/
  message : String

/-- Analytic partial derivatives of a pair. -/
structure AnalyticRule (R : Type) where
  of : String
  wrt : String
  values : List (Expression R)
  /-- Only the first value is used, for a block with one entry. -/
  single : Bool

/-- A component given by expressions. -/
structure ExpressionComponent (R : Type) where
  inputs : List (String × VariableSpec R)
  /-- The outputs with the expressions of their entries. -/
  outputs : List (String × VariableSpec R × List (Expression R))
  /-- Declarations of partial derivatives; one with an unknown setting fails when the
  component is set up. -/
  partials : List (Selection × Selection × Except (SettingIssue R) (Provision R))
  checkSettings : Option (Except (SettingIssue R) (Settings R))
  complexSafe : Bool
  analytic : List (AnalyticRule R)
  failures : List (FailureRule R)

namespace ExpressionComponent

section Declaring

variable {R : Type} [Scalar R] (c : ExpressionComponent R)

/-- A setting that has to be a known one. -/
def known {α : Type} : Except (SettingIssue R) α → Except (DeclarationError R) α
  | .ok a => .ok a
  | .error issue => .error (.setting issue)

/-- The declarations: inputs, outputs, partial derivatives, check settings. -/
def declare : Except (DeclarationError R) (Declarations R) := do
  let d ← c.inputs.foldlM (fun d v => d.addVariable .input v.1 v.2) ∅
  let d ← c.outputs.foldlM (fun d v => d.addVariable .output v.1 v.2.1) d
  let d ← c.partials.foldlM (fun d (of, wrt, p) => do d.addPartials of wrt (← known p)) d
  match c.checkSettings with
  | some s => d.setCheckSettings (← known s)
  | none => return d

/-- The layout of the declared variables. -/
def layout : Layout := .ofDeclarations (c.declare.toOption.getD ∅)

end Declaring

section Computing

variable {R : Type} [Elementary R] (c : ExpressionComponent R)

/-- Fails by the first condition that holds. -/
def checkFailures {T : Type} [Number R T] (inputs outputs : NamedValues T) :
    List (FailureRule R) → Outcome (DeclarationError R) Unit
  | [] => .ok ()
  | rule :: rest => do
    let x : T ← Outcome.ofOption (rule.expression.eval inputs outputs)
    if rule.above < Number.re x then Outcome.fail (.compute rule.message)
    else checkFailures inputs outputs rest

/-- Computes the entries of an output one after another. -/
def writeEntries {T : Type} [Number R T] (inputs : NamedValues T) (name : String) :
    List (Expression R × Nat) → NamedValues T → Option (NamedValues T)
  | [], outputs => some outputs
  | (e, k) :: rest, outputs => do
    let x ← e.eval inputs outputs
    writeEntries inputs name rest (← outputs.write? name k x)

/-- Computes all outputs, with the variables laid out by `l`. -/
def compute {T : Type} [Number R T] (l : Layout) (x y : Array T) :
    Outcome (DeclarationError R) (Array T) := do
  let inputs : NamedValues T := ⟨l.inputs, x⟩
  let outputs : NamedValues T := ⟨l.outputs, y⟩
  checkFailures inputs outputs c.failures
  let written ← Outcome.ofOption <|
    c.outputs.foldlM (fun out v => writeEntries inputs v.1 v.2.2.zipIdx out) outputs
  return written.values

/-- Fills in the analytic partial derivatives of a pair. -/
def fill (l : Layout) (x : Array R) (p : Partials R) (rule : AnalyticRule R) :
    Outcome (DeclarationError R) (Partials R) := do
  let inputs : NamedValues R := ⟨l.inputs, x⟩
  let values ← Outcome.ofOption (rule.values.mapM fun e => e.eval inputs ⟨∅, #[]⟩)
  if rule.single then
    let v ← Outcome.ofOption values.head?
    Outcome.ofExcept (p.set rule.of rule.wrt #[v])
  else Outcome.ofExcept (p.set rule.of rule.wrt values.toArray)

/-- The component, which keeps nothing between calls. -/
def toComponent : Component R Unit :=
  let l := c.layout
  { declarations := .ofExcept c.declare
    memory := ()
    computeReal := fun x y => .ofOutcome (c.compute l x y)
    computeComplex := fun x y => .ofOutcome (c.compute l x y)
    computePartials := fun x => Action.forEach c.analytic fun rule => do
      let (m, p) ← get
      set (m, ← Action.ofOutcome (fill l x p rule))
    complexSafe := c.complexSafe }

end Computing

end ExpressionComponent

end Sensitivity
