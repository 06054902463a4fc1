import Sensitivity.Approximation.Request
import Sensitivity.Action

/-!
# Perturbation plans

A plan lists the directions in which a set of requests is evaluated. Requests by the
same variable with the same settings form a group, and every selected entry of the
variable is a seed of its group, together with the block columns that it feeds.

A group whose settings ask for it, and whose requests all have patterns, can be
coloured: the seeds of all such groups with equal settings are distributed over
directions, each into the first one whose rows it does not meet (`firstFit`). Every
other seed is a direction of its own.
-/

namespace Sensitivity

/-- A column of the block of a request. -/
structure Column where
  request : Nat
  col : Nat
deriving DecidableEq

/-- A perturbed entry and the columns that it feeds. -/
structure Seed where
  wrt : String
  index : Nat
  columns : List Column
deriving DecidableEq

/-- Entries that are perturbed together. -/
structure Direction where
  /-- The number of its settings in the plan. -/
  settings : Nat
  seeds : List Seed
deriving DecidableEq

namespace Direction

/-- Whether several seeds share the direction. -/
def isColored (d : Direction) : Bool := 1 < d.seeds.length

/-- The numbers of the requests that the direction serves, in order, each once. -/
def requests (d : Direction) : List Nat :=
  let served := (d.seeds.flatMap Seed.columns).map Column.request
  (List.range (served.foldr (fun r bound => max (r + 1) bound) 0)).filter served.contains

/-- The perturbed variables. -/
def perturbed (d : Direction) : List String := (d.seeds.map Seed.wrt).eraseDups

end Direction

/-- The directions for a set of requests. -/
structure Plan (R : Type) where
  /-- The distinct settings. -/
  settings : List (Settings R)
  directions : List Direction
  /-- The number of seeds of all groups. -/
  columnCount : Nat

namespace Plan

/-- Requests by the same variable with the same settings, with their numbers. -/
structure Group (R : Type) where
  wrt : String
  settings : Settings R
  requests : List (Nat × Request R)

/-- Seeds in one direction, and the rows that they write. -/
structure Color where
  used : List Nat
  seeds : List Seed

/-- The seed with the rows it writes goes into the first color that has none of
them. -/
def firstFit (seed : Seed) (rows : List Nat) : List Color → List Color
  | [] => [⟨rows, [seed]⟩]
  | c :: rest =>
    if rows.all fun r => !c.used.contains r then ⟨c.used ++ rows, c.seeds ++ [seed]⟩ :: rest
    else c :: firstFit seed rows rest

/-- Distributes seeds, each with its rows, in their order. -/
def colors (seeds : List (Seed × List Nat)) : List Color :=
  seeds.foldl (fun cs s => firstFit s.1 s.2 cs) []

variable {R : Type}

/-- The seeds of a group: the entries of its variable that some request selects, in
ascending order, each with its columns. -/
def groupSeeds (sizes : Sizes) (g : Group R) : Except (ApproximationError R) (List Seed) := do
  let columns ← g.requests.mapM fun (r, q) => do
    return (← q.cols sizes).mapIdx fun col index => (index, Column.mk r col)
  let columns := columns.flatten
  let size := (sizes.get? g.wrt).getD 0
  return (List.range size).filterMap fun i =>
    match columns.filterMap fun c => if c.1 = i then some c.2 else none with
    | [] => none
    | cs => some ⟨g.wrt, i, cs⟩

/-- Where the entries of each `of` variable start when all are stacked in the order
of their first request. -/
def rowOffsets (requests : List (Request R)) (sizes : Sizes) : Table String Nat :=
  (requests.foldl (fun (t, total) q =>
    if t.contains q.of then (t, total)
    else (t.insert q.of total, total + (sizes.get? q.of).getD 0))
    ((∅ : Table String Nat), 0)).1

/-- The rows of the stacked variables that a column writes through its pattern. -/
def columnRows (requests : List (Request R)) (sizes : Sizes) (offsets : Table String Nat)
    (c : Column) : Outcome (ApproximationError R) (List Nat) := do
  let q ← .ofOption requests[c.request]?
  let rows ← .ofExcept (q.rows sizes)
  let offset ← .ofOption (offsets.get? q.of)
  match q.pattern with
  | none => return []
  | some p => (p.rowsInCol c.col).mapM fun r => do return offset + (← .ofOption rows[r]?)

/-- A seed with the rows that it writes. -/
def seedRows (requests : List (Request R)) (sizes : Sizes) (offsets : Table String Nat)
    (s : Seed) : Outcome (ApproximationError R) (Seed × List Nat) := do
  let rows ← s.columns.mapM (columnRows requests sizes offsets)
  return (s, rows.flatten)

variable [Scalar R]

/-- Adds a request to the first group it belongs to. -/
def addToGroups (i : Nat) (q : Request R) : List (Group R) → List (Group R)
  | [] => [⟨q.wrt, q.settings, [(i, q)]⟩]
  | g :: rest =>
    if g.wrt == q.wrt && g.settings == q.settings then
      { g with requests := g.requests ++ [(i, q)] } :: rest
    else g :: addToGroups i q rest

/-- The groups of the requests, in the order of their first member. -/
def groups (requests : List (Request R)) : List (Group R) :=
  requests.zipIdx.foldl (fun gs (q, i) => addToGroups i q gs) []

/-- Whether the seeds of a group may share directions. -/
def Group.colorable (g : Group R) : Bool :=
  g.settings.directional && g.requests.all fun r => r.2.pattern.isSome

/-- Whether the seeds of two groups may share directions. -/
def Group.joins (g m : Group R) : Bool := m.colorable && m.settings == g.settings

/-- The seeds of the groups that join a group. -/
def joining (g : Group R) (rest : List (Group R × List Seed)) : List Seed :=
  (rest.filter fun m => g.joins m.1).flatMap Prod.snd

/-- The groups that do not join a group. -/
def remaining (g : Group R) (rest : List (Group R × List Seed)) : List (Group R × List Seed) :=
  rest.filter fun m => !g.joins m.1

theorem length_remaining_le (g : Group R) (rest : List (Group R × List Seed)) :
    (remaining g rest).length ≤ rest.length := List.length_filter_le _ _

/-- The number of settings in a list, which gains them if it does not have them. -/
def settingsIndex (known : List (Settings R)) (s : Settings R) : List (Settings R) × Nat :=
  match known.findIdx? (· == s) with
  | some i => (known, i)
  | none => (known ++ [s], known.length)

/-- The directions of groups with their seeds. A group that can be coloured takes all
later ones with equal settings along. -/
def arrange (requests : List (Request R)) (sizes : Sizes) (known : List (Settings R)) :
    List (Group R × List Seed) →
      Outcome (ApproximationError R) (List (Settings R) × List Direction)
  | [] => return (known, [])
  | (g, seeds) :: rest => do
    let (known, number) := settingsIndex known g.settings
    if g.colorable then
      let offsets := rowOffsets requests sizes
      let colored := colors
        (← (seeds ++ joining g rest).mapM (seedRows requests sizes offsets))
      let (known, others) ← arrange requests sizes known (remaining g rest)
      return (known, colored.map (fun c => ⟨number, c.seeds⟩) ++ others)
    else
      let (known, others) ← arrange requests sizes known rest
      return (known, seeds.map (fun s => ⟨number, [s]⟩) ++ others)
termination_by gs => gs.length
decreasing_by
  · exact Nat.lt_succ_of_le (length_remaining_le g rest)
  · simp

/-- The plan for some requests on variables of these sizes. -/
def build (requests : List (Request R)) (sizes : Sizes) :
    Outcome (ApproximationError R) (Plan R) := do
  for q in requests do
    Outcome.ofExcept (q.validate sizes)
  let grouped ← (groups requests).mapM fun g => do
    return (g, ← Outcome.ofExcept (groupSeeds sizes g))
  let (settings, directions) ← arrange requests sizes [] grouped
  return ⟨settings, directions, (grouped.flatMap Prod.snd).length⟩

/-- The directions with their numbers that one of several ranks evaluates: every
`ranks`-th one. -/
def directionsFor (p : Plan R) (rank ranks : Nat) : List (Direction × Nat) :=
  p.directions.zipIdx.filter fun d => d.2 % (max ranks 1) = rank

/-- Plans are equal when they prescribe the same evaluations. -/
instance : BEq (Plan R) where
  beq a b :=
    a.settings == b.settings && a.directions == b.directions && a.columnCount == b.columnCount

end Plan

end Sensitivity
