import Sensitivity.Approximation.Error
import Sensitivity.Table

/-!
# Requests

A request asks for one block of approximated derivatives: some or all entries of `of`
by some or all entries of `wrt`. Selected entries become the rows and columns of the
block in the order in which they are listed, repetitions included.
-/

namespace Sensitivity

/-- The number of entries of each variable. -/
abbrev Sizes := Table String Nat

/-- One block to approximate. -/
structure Request (R : Type) where
  of : String
  wrt : String
  settings : Settings R
  /-- The coordinates of the block that may be nonzero. -/
  pattern : Option Pattern
  /-- The entries of `of` that form the rows; all when absent. -/
  ofEntries : Option (List Nat)
  /-- The entries of `wrt` that form the columns; all when absent. -/
  wrtEntries : Option (List Nat)
  /-- The pair was declared by selecting all variables on both sides. -/
  everything : Bool

namespace Request

variable {R : Type}

/-- A request for the whole block of a pair. -/
def whole (of wrt : String) (s : Settings R) : Request R := ⟨of, wrt, s, none, none, none, false⟩

/-- The entries selected of a variable. -/
def select (name : String) (entries : Option (List Nat)) (sizes : Sizes) :
    Except (ApproximationError R) (List Nat) :=
  match sizes.get? name, entries with
  | none, _ => .error (.unknownVariable name)
  | some size, none => .ok (List.range size)
  | some size, some is =>
    match is.find? (size ≤ ·) with
    | some bad => .error (.index bad name size)
    | none => .ok is

/-- The entries of `of` that form the rows. -/
def rows (q : Request R) (sizes : Sizes) : Except (ApproximationError R) (List Nat) :=
  select q.of q.ofEntries sizes

/-- The entries of `wrt` that form the columns. -/
def cols (q : Request R) (sizes : Sizes) : Except (ApproximationError R) (List Nat) :=
  select q.wrt q.wrtEntries sizes

/-- The numbers of rows and columns. -/
def shape (q : Request R) (sizes : Sizes) : Except (ApproximationError R) (Nat × Nat) := do
  let rows ← q.rows sizes
  let cols ← q.cols sizes
  return (rows.length, cols.length)

variable [Scalar R]

/-- Equality of requests, numbers compared as numbers. -/
instance : BEq (Request R) where
  beq a b :=
    a.of == b.of && a.wrt == b.wrt && a.settings == b.settings && a.pattern == b.pattern &&
      a.ofEntries == b.ofEntries && a.wrtEntries == b.wrtEntries && a.everything == b.everything

/-- Refuses a request that cannot be computed with these sizes. -/
def validate (q : Request R) (sizes : Sizes) : Except (ApproximationError R) Unit := do
  match q.settings.validate with
  | .error issue => throw (.declaration (.setting issue))
  | .ok () =>
    let (rows, cols) ← q.shape sizes
    match q.pattern with
    | some p => if p.fits rows cols then return else throw (.pattern q.of q.wrt rows cols)
    | none => return

end Request

end Sensitivity
