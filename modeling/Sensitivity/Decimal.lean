/-!
# Decimals and binary numbers, exactly

A decimal is `significand * 10 ^ exponent`; a finite binary number is
`mantissa * 2 ^ exponent`. Both are compared as quotients of natural numbers, so
nothing here rounds except where a definition says that it does.

* `Magnitude`: a positive rational as a numerator over a denominator, its decimal
  exponent and its position between two points of a decimal grid.
* `Binary`: a floating-point number taken apart into sign, mantissa and exponent.
-/

namespace Sensitivity

/-- The decimal `significand * 10 ^ exponent`. -/
structure Decimal where
  significand : Nat
  exponent : Int
deriving DecidableEq

namespace Decimal

/-- Drops trailing zeros of the significand. -/
def trim (fuel : Nat) (d : Decimal) : Decimal :=
  match fuel with
  | 0 => d
  | fuel + 1 =>
    if d.significand ≠ 0 ∧ d.significand % 10 = 0 then
      trim fuel ⟨d.significand / 10, d.exponent + 1⟩
    else d

/-- The digits of the significand. -/
def digits (d : Decimal) : List Char := Nat.toDigits 10 d.significand

/-- The exponent of the leading digit. -/
def leading (d : Decimal) : Int := d.exponent + d.digits.length - 1

end Decimal

/-- The positive rational `num / den`. -/
structure Magnitude where
  num : Nat
  den : Nat

namespace Magnitude

/-- The quotient of `v` by `10 ^ k`, as a numerator and a denominator. -/
def overPower (v : Magnitude) (k : Int) : Magnitude :=
  if 0 ≤ k then ⟨v.num, v.den * Nat.pow 10 k.toNat⟩ else ⟨v.num * Nat.pow 10 (-k).toNat, v.den⟩

/-- The point of the grid of multiples of `10 ^ k` at or below `v`. -/
def floorAt (v : Magnitude) (k : Int) : Nat :=
  let q := v.overPower k
  q.num / q.den

/-- `v` against `c * 10 ^ k`. -/
def compareAt (v : Magnitude) (c : Nat) (k : Int) : Ordering :=
  let q := v.overPower k
  compare q.num (c * q.den)

/-- `v` against the middle of `c * 10 ^ k` and `(c + 1) * 10 ^ k`. -/
def compareMiddle (v : Magnitude) (c : Nat) (k : Int) : Ordering :=
  let q := v.overPower k
  compare (2 * q.num) ((2 * c + 1) * q.den)

/-- The exponent of the leading decimal digit. The binary lengths give it up to
one, and a comparison decides. -/
def leading (v : Magnitude) : Int :=
  let guess := ((v.num.log2 : Int) - (v.den.log2 : Int)) * 30103 / 100000
  ([guess + 1, guess, guess - 1].find? fun e => v.compareAt 1 e != .lt).getD (guess - 2)

end Magnitude

/-- A binary floating-point number, taken apart. -/
inductive Binary where
  /-- Not a number. -/
  | undefined
  | infinite (negative : Bool)
  /-- `mantissa * 2 ^ exponent` up to its sign. `narrow` says that the distance to
  the next smaller number is half the distance to the next larger one. -/
  | finite (negative : Bool) (mantissa : Nat) (exponent : Int) (narrow : Bool)

namespace Binary

/-- Takes a 64-bit pattern apart: a sign, eleven bits of exponent and 52 bits of
fraction. -/
def ofBits (bits : UInt64) : Binary :=
  let n := bits.toNat
  let negative := decide (n / Nat.pow 2 63 = 1)
  let e : Nat := n / Nat.pow 2 52 % Nat.pow 2 11
  let f : Nat := n % Nat.pow 2 52
  if e = Nat.pow 2 11 - 1 then
    if f = 0 then .infinite negative else .undefined
  else if e = 0 then .finite negative f (-1074) false
  else .finite negative (Nat.pow 2 52 + f) ((e : Int) - 1075) (f = 0 ∧ 1 < e)

/-- Takes a double apart. -/
def ofFloat (x : Float) : Binary := ofBits x.toBits

end Binary

/-- `m * 2 ^ q` as a quotient. -/
def Magnitude.ofBinary (m : Nat) (q : Int) : Magnitude :=
  if 0 ≤ q then ⟨m * Nat.pow 2 q.toNat, 1⟩ else ⟨m, Nat.pow 2 (-q).toNat⟩

end Sensitivity
