import Sensitivity.Approximation.Assembler
import Sensitivity.Approximation.Stencil
import Sensitivity.Approximation.ComplexStep
import Sensitivity.Diagnostics
import Sensitivity.Step

/-!
# Approximation schemes

A scheme is the set of blocks that one scope approximates. It plans the directions
once and plans again only when its requests or the sizes of its variables have
changed (`Scheme.takePlan`). A computation evaluates the directions of a rank into an
assembler (`Scheme.computePartition`), or all of them into the finished blocks
(`Scheme.computeJacobian`).

Where a complex step is asked for but cannot be taken, forward differences stand in
for it, with a notice the first time.
-/

namespace Sensitivity

/-- A plan with the components to run for each of its directions. -/
structure CachedPlan (R : Type) where
  /-- The version of the requests that it was made for. -/
  version : Nat
  sizes : Sizes
  plan : Plan R
  active : List ActiveSet

/-- The blocks that a scope approximates. -/
structure Scheme (R : Type) where
  owner : String
  site : Site R
  requests : List (Request R)
  /-- Counts the changes to the requests. -/
  version : Nat
  cache : Option (CachedPlan R)
  planBuilds : Nat
  /-- The number of finished computations. -/
  computations : Nat
  policy : PatternPolicy
  tolerance : R
  nestedWarned : Bool
  fallbackWarned : Bool
  /-- What the last computation found outside patterns. -/
  mismatches : List (Mismatch R)

/-- A scheme at work on a target. -/
structure Session (R σ : Type) where
  scheme : Scheme R
  diagnostics : Diagnostics
  target : σ

namespace Scheme

variable {R : Type} [Scalar R]

/-- The scheme of a scope, without requests. -/
def empty (owner : String) (site : Site R) (policy : PatternPolicy) : Scheme R where
  owner := owner
  site := site
  requests := []
  version := 0
  cache := none
  planBuilds := 0
  computations := 0
  policy := policy
  tolerance := Assembler.defaultTolerance
  nestedWarned := false
  fallbackWarned := false
  mismatches := []

/-- Registers a block. Its settings have to be valid. -/
def addRequest (s : Scheme R) (q : Request R) : Except (ApproximationError R) (Scheme R) :=
  match q.settings.validate with
  | .error issue => .error (.declaration (.setting issue))
  | .ok () => .ok { s with requests := s.requests ++ [q], version := s.version + 1 }

/-- Registers several blocks. -/
def addRequests (s : Scheme R) (qs : List (Request R)) :
    Except (ApproximationError R) (Scheme R) := qs.foldlM addRequest s

/-- Drops all requests. -/
def clearRequests (s : Scheme R) : Scheme R :=
  { s with requests := [], version := s.version + 1 }

/-- The distinct variables that some requests are of. -/
def ofNames (s : Scheme R) (requests : List Nat) : List String :=
  (requests.filterMap fun r => s.requests[r]?.map Request.of).eraseDups

/-- The variables of the requests, each once, in the order of their first use. -/
def variableNames (s : Scheme R) : List String :=
  (s.requests.flatMap fun q => [q.of, q.wrt]).eraseDups

/-- What stands in for a complex step that cannot be taken. -/
def fallback (s : Settings R) : Settings R where
  method := .finiteDifference
  step := some Settings.defaultStep
  form := .forward
  order := none
  stepRule := .absolute
  minimumStep := s.minimumStep
  directional := s.directional

/-- The wording of the notice about a complex step inside another one. -/
def nestedDetail : String := "Nested complex step detected. Finite difference will be used."

/-- The wording of the notice about a scope that cannot be evaluated in complex
arithmetic. -/
def fallbackDetail : String :=
  "Complex step is not available for this scope. Finite difference will be used."

/-- The wording of the notice about entries outside a pattern. -/
def mismatchDetail (tolerance : R) (m : Mismatch R) : String :=
  let of := m.of
  let wrt := m.wrt
  let count := m.excess.rows.length
  let limit := Scalar.scientificText tolerance
  let rows := bracketed m.excess.rows
  let cols := bracketed m.excess.cols
  s!"Sparsity of '{of}' wrt '{wrt}' excludes {count} entries which appear to be non-zero. " ++
    s!"(Magnitudes exceed {limit}) Rows: {rows} Cols: {cols}"

variable {σ : Type} (T : Target R σ)

/-- Work of a scheme on a target. -/
abbrev Work (R σ α : Type) := Action (Session R σ) (ApproximationError R) α

/-- Changes the scheme. -/
def modifyScheme (f : Scheme R → Scheme R) : Work R σ Unit :=
  modify fun w => { w with scheme := f w.scheme }

/-- Adds a notice about the scope of the scheme. -/
def notice (kind : NoticeKind) (detail : String) : Work R σ Unit :=
  modify fun w => { w with diagnostics := w.diagnostics.push w.scheme.owner kind detail }

/-- An action on the target alone. -/
def onTarget {α : Type} (a : Action σ (ApproximationError R) α) : Work R σ α :=
  a.on Session.target fun w t => { w with target := t }

/-- The current sizes of the variables of the requests. -/
def sizes (s : Scheme R) (t : σ) : Outcome (ApproximationError R) Sizes := do
  return .ofList (← s.variableNames.mapM fun n => do return (n, ← T.size t n))

/-- The components to run for a direction. -/
def activeSet (s : Scheme R) (graph : Option DependencyGraph) (d : Direction) :
    Outcome (ApproximationError R) ActiveSet :=
  match graph with
  | none => .ok .all
  | some g => .ofOption (g.activeComponents? d.perturbed (s.ofNames d.requests))

/-- A new plan for the current requests. -/
def makePlan (s : Scheme R) (t : σ) (sizes : Sizes) :
    Outcome (ApproximationError R) (CachedPlan R) := do
  let plan ← Plan.build s.requests sizes
  let active ← plan.directions.mapM (s.activeSet (T.graph t))
  return ⟨s.version, sizes, plan, active⟩

/-- Takes the cached plan out when it still fits, or makes a new one. -/
def takePlan : Work R σ (CachedPlan R) := do
  let w ← get
  let sizes ← Action.ofOutcome (w.scheme.sizes T w.target)
  modifyScheme fun s => { s with cache := none }
  let fitting := w.scheme.cache.filter fun c =>
    c.version = w.scheme.version && c.sizes.sameEntries sizes
  match fitting with
  | some c => return c
  | none =>
    let c ← Action.ofOutcome (w.scheme.makePlan T w.target sizes)
    modifyScheme fun s => { s with planBuilds := s.planBuilds + 1 }
    return c

/-- Puts a plan back. -/
def keepPlan (c : CachedPlan R) : Work R σ Unit := modifyScheme fun s => { s with cache := some c }

/-- The number of directions for the current requests. -/
def directionCount : Work R σ Nat := do
  let c ← takePlan T
  keepPlan c
  return c.plan.directions.length

/-- The settings that are used: a complex step that cannot be taken is replaced. -/
def effective (s : Settings R) : Work R σ (Settings R) := do
  if s.method = .finiteDifference then return s
  let w ← get
  if T.complexStepActive w.target then
    if !w.scheme.nestedWarned then
      modifyScheme fun s => { s with nestedWarned := true }
      notice .nestedComplexStep nestedDetail
    return fallback s
  else if !T.complexCapable w.target then
    if !w.scheme.fallbackWarned then
      modifyScheme fun s => { s with fallbackWarned := true }
      notice .complexStepFallback fallbackDetail
    return fallback s
  else return s

/-- The stencil of settings; a complex step has none. -/
def stencil (s : Settings R) : Except (ApproximationError R) (Option (Stencil R)) :=
  match s.method with
  | .finiteDifference => (Stencil.ofForm s.form s.resolvedOrder).map some
  | .complexStep => .ok none

/-- What all directions of a computation share. -/
structure Frame (R : Type) where
  cached : CachedPlan R
  /-- The settings that are used, by their numbers in the plan, with their stencils. -/
  methods : List (Settings R × Option (Stencil R))
  /-- The values of the perturbed variables before any perturbation. -/
  nominal : Table String (List R)
  /-- The values of the requested variables before any perturbation. -/
  baseline : Table String (List R)

/-- Reads the values of the variables of the requests. -/
def readValues (requests : List (Request R)) (t : σ) :
    Outcome (ApproximationError R) (Table String (List R) × Table String (List R)) :=
  requests.foldlM (fun (nominal, baseline) q => do
    let nominal ← if nominal.contains q.wrt then pure nominal
      else do pure (nominal.insert q.wrt (← T.values t q.wrt .real))
    let baseline ← if baseline.contains q.of then pure baseline
      else do pure (baseline.insert q.of (← T.values t q.of .real))
    return (nominal, baseline)) (∅, ∅)

/-- The rule that turns base steps into steps; a complex step is taken as it is. -/
def stepRule (s : Settings R) : StepRule :=
  match s.method with
  | .finiteDifference => s.stepRule
  | .complexStep => .absolute

/-- The perturbation of a seed. -/
def perturbation (site : Site R) (nominal : Table String (List R)) (s : Settings R)
    (seed : Seed) : Outcome (ApproximationError R) (Perturbation R) := do
  let values ← .expect (.unknownVariable seed.wrt) (nominal.get? seed.wrt)
  let steps := Steps.compute values (stepRule s) (site.baseStep s) s.minimumStep
  return ⟨seed.wrt, seed.index, ← .ofOption (steps.at? seed.index)⟩

/-- Evaluates a direction and deposits its columns. -/
def runDirection (frame : Frame R) (a : Assembler R) (d : Direction) (index : Nat) :
    Work R σ (Assembler R) := do
  let scheme := (← get).scheme
  let (settings, stencil) ← Action.ofOutcome (.ofOption frame.methods[d.settings]?)
  let perturbations ← Action.ofOutcome
    (d.seeds.mapM (perturbation scheme.site frame.nominal settings))
  let of := scheme.ofNames d.requests
  let active ← Action.ofOutcome (.ofOption frame.cached.active[index]?)
  let numerators ← onTarget <| match stencil with
    | some st => st.difference T perturbations active of frame.baseline
    | none => StepEngine.runIdle T scheme.owner perturbations active of
  let (outcome, a) :=
    (Assembler.deposit index d (perturbations.map Perturbation.step) numerators).perform a
  Action.ofOutcome outcome
  return a

/-- Evaluates directions one after another. -/
def runDirections (frame : Frame R) :
    List (Direction × Nat) → Assembler R → Work R σ (Assembler R)
  | [], a => return a
  | (d, index) :: rest, a => do runDirections frame rest (← runDirection T frame a d index)

/-- Chooses the settings that are used, one after another. -/
def chooseMethods : List (Settings R) → Work R σ (List (Settings R))
  | [] => return []
  | s :: rest => do
    let s ← effective T s
    return s :: (← chooseMethods rest)

/-- Evaluates the directions of a rank into a new assembler. -/
def evaluateRank (c : CachedPlan R) (rank ranks : Nat) : Work R σ (Assembler R) := do
  let scheme := (← get).scheme
  let a ← Action.ofOutcome (.ofExcept (Assembler.start scheme.requests c.sizes c.plan))
  let chosen ← chooseMethods T c.plan.settings
  let methods ← Action.ofOutcome <| .ofExcept <| chosen.mapM fun s => do
    return (s, ← stencil s)
  let (nominal, baseline) ← .read fun w => readValues T w.scheme.requests w.target
  runDirections T ⟨c, methods, nominal, baseline⟩ (c.plan.directionsFor rank ranks)
    { a with tolerance := scheme.tolerance }

/-- Evaluates the directions of a rank. The plan is kept also after an error. -/
def computePartition (rank ranks : Nat) : Work R σ (Assembler R) := do
  let c ← takePlan T
  let result ← Action.attempt (evaluateRank T c rank ranks)
  keepPlan c
  Action.ofOutcome (.ofExcept result)

/-- Notes, or refuses, what was found outside patterns. -/
def applyPolicy : List (Mismatch R) → Work R σ Unit
  | [] => return
  | m :: rest => do
    let scheme := (← get).scheme
    match scheme.policy with
    | .ignore => return
    | .warn => notice .patternMismatch (mismatchDetail scheme.tolerance m)
    | .reject => Action.fail (.excess scheme.owner m.of m.wrt m.excess.rows.length)
    applyPolicy rest

/-- The blocks of a complete assembler. What lies outside patterns matters in the first
computation only. -/
def finish (a : Assembler R) : Work R σ (Jacobian R) := do
  let (jacobian, mismatches) ← Action.ofOutcome (.ofExcept a.finish)
  let first := (← get).scheme.computations = 0
  modifyScheme fun s => { s with computations := s.computations + 1, mismatches := mismatches }
  if first then applyPolicy mismatches
  return jacobian

/-- Approximates all requested blocks at the current state of the target. -/
def computeJacobian : Work R σ (Jacobian R) := do
  let a ← computePartition T 0 1
  finish a

end Scheme

end Sensitivity
