import Sensitivity.Decimal

/-!
# The shortest decimal that reads back

A finite binary number is the nearest one to every real of an interval around it.
Of the decimals in that interval, the shortest one takes the fewest digits, and of
those with as few digits the one nearest to the number. For a given number of
digits only the two neighbours of the number on that decimal grid can qualify.
-/

namespace Sensitivity

/-- How a choice between two equally near neighbours is made. -/
inductive Tie where
  /-- The neighbour with an even last digit. -/
  | toEven
  /-- The larger neighbour. -/
  | up
deriving DecidableEq

/-- Whether the upper of the neighbours `c` and `c + 1` is chosen, given where the
number lies relative to their middle. -/
def Tie.takesUpper (tie : Tie) (c : Nat) : Ordering → Bool
  | .lt => false
  | .gt => true
  | .eq => match tie with
    | .toEven => c % 2 = 1
    | .up => true

namespace Decimal

/-- The reals that read as the number `value`: from `low` to `high`, ends included
when `closed`. -/
structure ReadsBack where
  low : Magnitude
  value : Magnitude
  high : Magnitude
  closed : Bool

namespace ReadsBack

/-- The interval of `m * 2 ^ q`. Its ends are the middles to the neighbouring
numbers, and they read as the number whose mantissa is even. -/
def ofBinary (m : Nat) (q : Int) (narrow : Bool) : ReadsBack where
  low := .ofBinary (4 * m - if narrow then 1 else 2) (q - 2)
  value := .ofBinary (4 * m) (q - 2)
  high := .ofBinary (4 * m + 2) (q - 2)
  closed := m % 2 = 0

/-- Whether `c * 10 ^ k` reads as the number. -/
def holds (i : ReadsBack) (c : Nat) (k : Int) : Bool :=
  match i.low.compareAt c k, i.high.compareAt c k with
  | .lt, .gt => true
  | .eq, _ => i.closed
  | _, .eq => i.closed
  | _, _ => false

/-- The better of the neighbours on the grid of multiples of `10 ^ k` that read as
the number. -/
def onGrid (i : ReadsBack) (tie : Tie) (k : Int) : Option Nat :=
  let c := i.value.floorAt k
  match i.holds c k, i.holds (c + 1) k with
  | true, true => some (if tie.takesUpper c (i.value.compareMiddle c k) then c + 1 else c)
  | true, false => some c
  | false, true => some (c + 1)
  | false, false => none

/-- The first grid with a hit, from the coarsest of `digits` grids on. -/
def search (i : ReadsBack) (tie : Tie) : Nat → Int → Decimal
  | 0, k => ⟨i.value.floorAt k, k⟩
  | digits + 1, k =>
    match i.onGrid tie k with
    | some c => trim 20 ⟨c, k⟩
    | none => search i tie digits (k - 1)

end ReadsBack

/-- The shortest decimal that reads as `m * 2 ^ q`. Seventeen digits always do. -/
def shortest (tie : Tie) (m : Nat) (q : Int) (narrow : Bool) : Decimal :=
  if m = 0 then ⟨0, 0⟩
  else
    let i := ReadsBack.ofBinary m q narrow
    i.search tie 17 i.value.leading

/-- `m * 2 ^ q` rounded to `places + 1` digits, a tie going to the even digit. -/
def rounded (places : Nat) (m : Nat) (q : Int) : Decimal :=
  if m = 0 then ⟨0, -(places : Int)⟩
  else
    let v := Magnitude.ofBinary m q
    let k := v.leading - places
    let c := v.floorAt k
    ⟨if Tie.toEven.takesUpper c (v.compareMiddle c k) then c + 1 else c, k⟩

end Decimal

end Sensitivity
