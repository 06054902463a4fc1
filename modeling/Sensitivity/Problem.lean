import Sensitivity.Check

/-!
# Problems

A problem is a system together with the design variables, objectives and constraints
of an optimizer. It is set up at most once: a setup takes the system, whether or not
it succeeds.
-/

namespace Sensitivity

/-- A model with its state. -/
structure LiveModel (R M : Type) where
  model : Model R M
  state : ModelState R M

/-- A system and what an optimizer varies and observes. -/
structure Problem (R M : Type) where
  /-- The system, before any setup. -/
  system : Option (Group R M)
  /-- The model, after a setup that succeeded. -/
  live : Option (LiveModel R M)
  designVariables : List (DriverVariable R)
  objectives : List (DriverVariable R)
  constraints : List (DriverVariable R)

/-- Work on a problem. -/
abbrev ProblemWork (R M α : Type) := Action (Problem R M) (ModelError R) α

namespace Problem

variable {R M : Type}

/-- The problem of a system. -/
def ofGroup (g : Group R M) : Problem R M := ⟨some g, none, [], [], []⟩

/-- Objectives, then constraints. -/
def responses (p : Problem R M) : List (DriverVariable R) := p.objectives ++ p.constraints

/-- Registers a design variable. -/
def addDesignVariable (v : DriverVariable R) (p : Problem R M) : Problem R M :=
  { p with designVariables := p.designVariables ++ [v] }

/-- Registers an objective. -/
def addObjective (v : DriverVariable R) (p : Problem R M) : Problem R M :=
  { p with objectives := p.objectives ++ [v] }

/-- Registers a constraint. -/
def addConstraint (v : DriverVariable R) (p : Problem R M) : Problem R M :=
  { p with constraints := p.constraints ++ [v] }

/-- The model, once there is one. -/
def model (p : Problem R M) : Except (ModelError R) (LiveModel R M) :=
  match p.live with
  | some live => .ok live
  | none => .error .notSetUp

/-- Named variables as they were registered, or all registered ones when nothing is
named. A name that was not registered stands for the whole variable. -/
def driverVariables (names : List String) (registered : List (DriverVariable R)) :
    List (DriverVariable R) :=
  if names.isEmpty then registered
  else names.map fun n => (registered.find? fun v => v.name == n).getD (.whole n)

/-- Work on the model, once there is one. -/
def onModel {α : Type} (work : Model R M → ModelWork R M α) : ProblemWork R M α :=
  .of fun p =>
    match p.live with
    | none => (Outcome.fail .notSetUp, p)
    | some live =>
      let r := (work live.model).perform live.state
      (r.1, { p with live := some ⟨live.model, r.2⟩ })

/-- What can be read off the model, once there is one. -/
def readModel {α : Type} (read : Model R M → ModelState R M → Except (ModelError R) α) :
    ProblemWork R M α :=
  onModel fun m => .read fun s => .ofExcept (read m s)

/-- Replaces the values of a variable. -/
def setValue (name : String) (values : List R) : ProblemWork R M Unit :=
  onModel fun m => m.setValue name values

/-- The values of a variable. -/
def value (name : String) : ProblemWork R M (List R) := readModel fun m s => m.value name s

/-- The notices of the model. -/
def diagnostics : ProblemWork R M Diagnostics := readModel fun _ s => .ok s.diagnostics

/-- The number of runs of the component at a path. -/
def runs (path : String) : ProblemWork R M Nat :=
  readModel fun m s =>
    match m.runs? path s with
    | some n => .ok n
    | none => .error (.unknownVariable path)

variable [Scalar R]

/-- The largest imaginary part left in the model. -/
def imaginaryNorm : ProblemWork R M R := readModel fun _ s => .ok s.imaginaryNorm

/-- A model of a system, with all driver variables found in it. -/
def build (g : Group R M) (s : SetupSettings) (drivers : List (DriverVariable R)) :
    Outcome (ModelError R) (LiveModel R M) := do
  let m ← Model.ofGroup g s
  let state ← m.start
  for v in drivers do
    discard <| Outcome.ofExcept (m.selection v)
  return ⟨m, state⟩

/-- Sets the model up. -/
def setup (s : SetupSettings) : ProblemWork R M Unit :=
  .of fun p =>
    match p.system with
    | none => (Outcome.fail (.setup .alreadySetUp), p)
    | some g =>
      let taken := { p with system := none }
      match build g s (p.designVariables ++ p.responses) with
      | .ok live => (.ok (), { taken with live := some live })
      | .error e => (.error e, taken)

variable [DirectSolver R]

/-- Runs the model. -/
def run : ProblemWork R M Unit := onModel Model.run

/-- Total derivatives of named responses by named design variables. -/
def totals (of wrt : List String) : ProblemWork R M (Totals R) := do
  let p ← get
  onModel fun m =>
    m.computeTotals (driverVariables of p.responses) (driverVariables wrt p.designVariables)

/-- Total derivatives in scaled units. -/
def scaledTotals (of wrt : List String) : ProblemWork R M (Totals R) := do
  let p ← get
  onModel fun m =>
    m.computeScaledTotals (driverVariables of p.responses) (driverVariables wrt p.designVariables)

/-- Checks the partials of components. -/
def checkPartials (s : CheckSettings R) : ProblemWork R M (Report R) :=
  onModel fun m => m.checkPartials s

/-- Checks total derivatives of named responses by named design variables. -/
def checkTotals (of wrt : List String) (s : CheckSettings R) : ProblemWork R M (Report R) := do
  let p ← get
  onModel fun m =>
    m.checkTotals (driverVariables of p.responses) (driverVariables wrt p.designVariables) s

end Problem

end Sensitivity
