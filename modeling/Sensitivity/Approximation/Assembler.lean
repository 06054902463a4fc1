import Sensitivity.Approximation.Plan

/-!
# Assembling blocks

An assembler collects what the directions of a plan yield. It has a slot for each
request, with the block and the entries found outside its pattern, and knows which
directions are in. Several assemblers of one plan, each holding some of the
directions, can be merged; a complete one yields the blocks.

Entries outside a pattern can only be told for a direction with a single seed.
-/

namespace Sensitivity

/-- Entries outside a pattern whose magnitude exceeds a tolerance, column by column. -/
structure Excess (R : Type) where
  rows : List Nat
  cols : List Nat
  largest : R

/-- The excess of the block of a pair. -/
structure Mismatch (R : Type) where
  of : String
  wrt : String
  excess : Excess R

/-- Approximated blocks by their pairs. -/
abbrev Jacobian (R : Type) := Table (String × String) (Block R)

namespace Excess

variable {R : Type} [Scalar R]

/-- The excess made up of some entries; none when there are none. -/
def ofEntries? (entries : List ((Nat × Nat) × R)) : Option (Excess R) :=
  if entries.isEmpty then none
  else some ⟨entries.map (·.1.1), entries.map (·.1.2), Scalar.maximum (entries.map (·.2))⟩

/-- The entries of a matrix outside a pattern that exceed a tolerance. -/
def ofMatrix? (m : DenseMatrix R) (p : Pattern) (tolerance : R) : Option (Excess R) :=
  ofEntries? <| (List.range m.cols).flatMap fun c => (List.range m.rows).filterMap fun r =>
    let v := Scalar.abs (m.entry r c)
    if tolerance < v ∧ !p.contains r c then some ((r, c), v) else none

end Excess

/-- What the assembler holds for a request. -/
structure AssemblySlot (R : Type) where
  of : String
  wrt : String
  /-- The entries of `of` that form the rows. -/
  rows : List Nat
  block : Block R
  /-- The magnitudes found outside the pattern, by their coordinates. -/
  outside : Table (Nat × Nat) R

/-- The blocks of a plan under construction. -/
structure Assembler (R : Type) where
  slots : List (AssemblySlot R)
  /-- For each direction, whether it is in. -/
  deposited : List Bool
  tolerance : R

namespace Assembler

variable {R : Type} [Scalar R]

/-- The magnitude above which an entry outside a pattern counts. -/
def defaultTolerance : R := 1e-16

/-- The assembler of a plan before any direction. -/
def start (requests : List (Request R)) (sizes : Sizes) (plan : Plan R) :
    Except (ApproximationError R) (Assembler R) := do
  let slots ← requests.mapM fun q => do
    let (rows, cols) ← q.shape sizes
    return ⟨q.of, q.wrt, ← q.rows sizes, .zeros rows cols q.pattern, ∅⟩
  return ⟨slots, List.replicate plan.directions.length false, defaultTolerance⟩

/-- The number of directions that are in. -/
def completed (a : Assembler R) : Nat := a.deposited.count true

/-- Writes a column of a dense block. -/
def writeDense? (m : DenseMatrix R) (col : Nat) (values : List R) : Option (DenseMatrix R) :=
  values.zipIdx.foldlM (fun m (v, r) => (m.get? r col).map fun _ => m.set r col v) m

/-- Writes a column of a sparse block at the coordinates of its pattern. -/
def writeSparse? (p : Pattern) (values : List R) (col : Nat) (column : Nat → Option R) :
    Option (List R) :=
  values.zipIdx.mapM fun (old, j) => do
    if (← p.cols[j]?) = col then column (← p.rows[j]?) else return old

/-- The magnitudes of a column that exceed the tolerance outside its pattern. -/
def outsideOf (p : Pattern) (tolerance : R) (col : Nat) (values : List R) :
    List ((Nat × Nat) × R) :=
  values.zipIdx.filterMap fun (v, k) =>
    let size := Scalar.abs v
    if tolerance < size ∧ !(p.rowsInCol col).contains k then some ((k, col), size) else none

/-- The values of a column of a slot, in units of the step, if the numerators reach
all its rows. -/
def columnValues? (s : AssemblySlot R) (numerator : List R) (h : R) : Option (List R) :=
  s.rows.mapM fun row => numerator[row]?.map fun v => v / h

/-- A slot with a column written. `alone` says that nothing else was perturbed. -/
def writeColumn? (s : AssemblySlot R) (tolerance : R) (alone : Bool) (col : Nat)
    (numerator : List R) (h : R) : Option (AssemblySlot R) :=
  match s.block with
  | .dense m => do
    let m ← writeDense? m col (← columnValues? s numerator h)
    return { s with block := .dense m }
  | .sparse p values rows cols => do
    let entry (k : Nat) : Option R := do
      return (← numerator[← s.rows[k]?]?) / h
    let values ← writeSparse? p values col entry
    let outside ← if alone then
        (columnValues? s numerator h).map fun all =>
          s.outside.insertAll (outsideOf p tolerance col all)
      else some s.outside
    return { s with block := .sparse p values rows cols, outside := outside }

/-- Writes the column of a request. The numerators of its variable have to be known. -/
def depositColumn (alone : Bool) (numerators : Table String (List R)) (h : R) (c : Column) :
    Action (Assembler R) (ApproximationError R) Unit := do
  let a ← get
  let slot ← Action.ofOutcome (.ofOption a.slots[c.request]?)
  let numerator ← Action.ofOutcome
    (.expect (.unknownVariable slot.of) (numerators.get? slot.of))
  let written ← Action.ofOutcome
    (.ofOption (writeColumn? slot a.tolerance alone c.col numerator h))
  set { a with slots := a.slots.set c.request written }

/-- Writes the columns of a direction: the numerators over the step of each seed. -/
def deposit (index : Nat) (d : Direction) (steps : List R)
    (numerators : Table String (List R)) : Action (Assembler R) (ApproximationError R) Unit := do
  Action.forEach (d.seeds.zip steps) fun (seed, h) =>
    Action.forEach seed.columns (depositColumn (!d.isColored) numerators h)
  let a ← get
  if index < a.deposited.length then set { a with deposited := a.deposited.set index true }
  else throw .breach

/-- The sum of two blocks of one kind. -/
def addBlocks (a b : Block R) : Outcome (ApproximationError R) (Block R) :=
  match a, b with
  | .dense m, .dense n => (Outcome.ofOption (m.combine? (· + ·) n)).map .dense
  | .sparse p values rows cols, .sparse _ others _ _ =>
    .ok (.sparse p (values.mapIdx fun i v => match others[i]? with
      | some w => v + w
      | none => v) rows cols)
  | _, _ => Outcome.fail .mergeKinds

/-- Adds the blocks of other slots to slots, one after another. -/
def addSlotBlocks : List (AssemblySlot R) → List (AssemblySlot R) →
    Outcome (ApproximationError R) Unit × List (AssemblySlot R)
  | s :: rest, t :: others =>
    match addBlocks s.block t.block with
    | .ok b =>
      let r := addSlotBlocks rest others
      (r.1, { s with block := b } :: r.2)
    | .error e => (.error e, s :: rest)
  | slots, _ => (.ok (), slots)

/-- Adds what another assembler of the same plan holds. -/
def merge (other : Assembler R) : Action (Assembler R) (ApproximationError R) Unit := do
  let a ← get
  if other.slots.length ≠ a.slots.length ∨ other.deposited.length ≠ a.deposited.length then
    Action.fail .mergePlans
  let added := addSlotBlocks a.slots other.slots
  set { a with slots := added.2 }
  Action.ofOutcome added.1
  modify fun a => { a with
    deposited := List.zipWith (· || ·) a.deposited other.deposited
    slots := List.zipWith (fun s t => { s with outside := s.outside.insertAll t.outside.entries })
      a.slots other.slots }

/-- The order of entries column by column. -/
def columnOrder (a b : (Nat × Nat) × R) : Bool :=
  a.1.2 < b.1.2 || (a.1.2 == b.1.2 && a.1.1 ≤ b.1.1)

/-- What a slot found outside its pattern. -/
def mismatch? (s : AssemblySlot R) : Option (Mismatch R) :=
  (Excess.ofEntries? (s.outside.entries.mergeSort columnOrder)).map fun e => ⟨s.of, s.wrt, e⟩

/-- The blocks by their pairs, and what was found outside their patterns. All
directions have to be in. -/
def finish (a : Assembler R) :
    Except (ApproximationError R) (Jacobian R × List (Mismatch R)) :=
  if a.completed = a.deposited.length then
    .ok (.ofList (a.slots.map fun s => ((s.of, s.wrt), s.block)), a.slots.filterMap mismatch?)
  else .error (.incomplete a.completed a.deposited.length)

end Assembler

namespace Jacobian

variable {R : Type} [Scalar R]

/-- Scales every block with the references of its pair; a variable without one is left
as it is. -/
def scale (j : Jacobian R) (references : Table String R) : Jacobian R :=
  j.map fun pair b =>
    b.scaled ((references.get? pair.1).getD 1) ((references.get? pair.2).getD 1)

end Jacobian

end Sensitivity
