import Sensitivity.Check.Report
import Sensitivity.Totals

/-!
# Checking derivatives

The derivatives that a model computes are compared with a fresh approximation at the
same state: the partials of each component (`Model.checkPartials`), or total
derivatives (`Model.checkTotals`). A check that would repeat the computation it is to
check is refused.
-/

namespace Sensitivity

/-- How to check. What is not given comes from the component, else from defaults. -/
structure CheckSettings (R : Type) where
  method : Option Method
  step : Option R
  form : Option Form
  stepRule : Option StepRule
  /-- Base steps where neither the check nor the component gives one. -/
  defaults : BaseSteps R
  /-- The paths of the components to check; all when absent. -/
  includes : Option (List String)

namespace CheckSettings

variable {R : Type} [Scalar R]

/-- Nothing given. -/
def standard : CheckSettings R := ⟨none, none, none, none, .standard, none⟩

/-- The settings for a scope with settings of its own. A form that is given takes its
own default order. -/
def resolve (c : CheckSettings R) (own : Option (Settings R)) : Settings R :=
  let s := own.getD .finiteDifference
  { s with
    method := c.method.getD s.method
    step := match c.step with
      | some h => some h
      | none => s.step
    form := c.form.getD s.form
    order := if c.form.isSome then none else s.order
    stepRule := c.stepRule.getD s.stepRule }

/-- Where a check approximates. -/
def site (c : CheckSettings R) (isGlobal : Bool) : Site R := .check c.defaults isGlobal

/-- Whether a component is to be checked. -/
def covers (c : CheckSettings R) (path : String) : Bool :=
  match c.includes with
  | some paths => paths.contains path
  | none => true

end CheckSettings

/-- Whether checking would repeat the computation: the same method with the same base
step, and for differences of the same form and step rule. -/
def sameApproximation {R : Type} [Scalar R] (computed : Settings R) (computedAt : Site R)
    (check : Settings R) (checkAt : Site R) : Bool :=
  computed.method = check.method && computedAt.baseStep computed == checkAt.baseStep check &&
    match check.method with
    | .complexStep => true
    | .finiteDifference =>
      computed.form = check.form && computed.stepRule = check.stepRule

namespace Model

variable {R M : Type} [Scalar R]

/-- Refuses settings that no computation could carry out. -/
def requireValid (s : Settings R) : ModelWork R M Unit :=
  match s.validate with
  | .ok () => return
  | .error issue => Action.fail (.declaration (.setting issue))

/-- Refuses a check of a computation by itself. -/
def requireDifferent (scope wrt : String) (computed : Option (Settings R)) (computedAt : Site R)
    (check : Settings R) (checkAt : Site R) : ModelWork R M Unit :=
  if computed.any fun s => sameApproximation s computedAt check checkAt then
    Action.fail (.sameMethod scope wrt)
  else return

/-- A scheme for a check, with its blocks. -/
def checkScheme (owner : String) (site : Site R) (requests : List (Request R)) :
    ModelWork R M (Scheme R) :=
  .ofOutcome <| (Outcome.ofExcept <|
    (Scheme.empty owner site .ignore).addRequests requests).mapError .approximation

/-- The entries of a fresh block that lie outside the declared pattern of its pair. -/
def excessOf (c : ModelComponent R M) (of wrt : String) (fresh : DenseMatrix R) :
    Option (Mismatch R) := do
  let p ← c.partials.find? fun p => p.of == of && p.wrt == wrt
  return ⟨of, wrt, ← Excess.ofMatrix? fresh (← p.provision.pattern) Assembler.defaultTolerance⟩

/-- Compares a computed block, zero when there is none, with a fresh one. -/
def compare (of wrt : String) (computed : Option (DenseMatrix R)) (fresh : DenseMatrix R)
    (excess : Option (Mismatch R)) : ModelWork R M (Comparison R) :=
  let computed := computed.getD (.zeros fresh.rows fresh.cols)
  .ofOutcome (.ofOption (Comparison.ofBlocks? of wrt computed fresh excess))

variable (m : Model R M)

/-- Approximates all partials of a component afresh. -/
def freshPartials (c : Nat) (component : ModelComponent R M) (check : Settings R) (site : Site R) :
    ModelWork R M (Jacobian R) := do
  let pairs := component.layout.outputs.keys.flatMap fun of =>
    component.layout.inputs.keys.map fun wrt => Request.whole of wrt check
  let scheme ← checkScheme component.path site pairs
  let s ← get
  let x := s.inputs.readReal component.inputs
  let y := s.outputs.readReal component.outputs
  m.onComponent c component x y scheme (fun _ => .empty)
    (fun _ diagnostics s => { s with diagnostics := s.diagnostics.append diagnostics })
    (Scheme.computeJacobian (component.target s.stack.isActive))

/-- Compares the partials that a component has with fresh ones. -/
def comparePartials (c : Nat) (component : ModelComponent R M) (fresh : Jacobian R) :
    ModelWork R M (List (Comparison R)) := do
  let kept ← kept c
  fresh.entries.mapM fun ((of, wrt), block) => do
    let fresh ← denseOf block
    let computed ← (kept.partials.blocks.get? (of, wrt)).mapM denseOf
    compare of wrt computed fresh (excessOf component of wrt fresh)

/-- Checks the partials of a component, unless it lacks inputs or outputs. -/
def checkComponent (c : Nat) (component : ModelComponent R M) (settings : CheckSettings R) :
    ModelWork R M (List (ScopeReport R)) := do
  if component.layout.inputs.size = 0 || component.layout.outputs.size = 0 then return []
  let check := settings.resolve component.checkSettings
  let site := settings.site false
  requireValid check
  Action.forEach component.partials fun p =>
    requireDifferent component.path p.wrt p.provision.approximation .component check site
  m.linearize c none
  let fresh ← m.freshPartials c component check site
  let comparisons ← comparePartials c component fresh
  return [⟨component.path, check.method, site.baseStep check, comparisons⟩]

/-- Checks the partials of all components that the check covers, one after another. -/
def checkPartials (settings : CheckSettings R) : ModelWork R M (Report R) := do
  let covered := m.components.zipIdx.filter fun c => settings.covers c.1.path
  let scopes ← covered.mapM fun (component, c) => m.checkComponent c component settings
  return ⟨scopes.flatten, Assembler.defaultTolerance⟩

/-- Checks total derivatives against an approximation of the whole model. -/
def checkTotals [DirectSolver R] (of wrt : List (DriverVariable R)) (settings : CheckSettings R) :
    ModelWork R M (Report R) := do
  let check := settings.resolve none
  let site := settings.site true
  let label := ModelGroup.rootLabel
  requireValid check
  let first := (wrt.head?.map DriverVariable.name).getD ""
  requireDifferent label first m.root.approximation .group check site
  let totals ← m.computeTotals of wrt
  let requests ← Action.ofOutcome (.ofExcept (m.totalRequests of wrt check))
  let scheme ← checkScheme label site requests
  let blocks ← m.approximateAfresh m.root m.schedule scheme
  let found := ((pairs of wrt).zip requests).filterMap fun ((o, w), q) => do
    return (o.name, w.name, ← blocks.get? (q.of, q.wrt))
  let comparisons ← found.mapM fun (of, wrt, block) => do
    compare of wrt (totals.get? (of, wrt)) (← denseOf block) none
  return ⟨[⟨label, check.method, site.baseStep check, comparisons⟩], Assembler.defaultTolerance⟩

end Model

end Sensitivity
