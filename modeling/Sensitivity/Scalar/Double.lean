import Sensitivity.Scalar
import Sensitivity.Decimal.Style

/-!
# Binary floating point

The scalars that programs run with: 64-bit binary floating point, every operation
rounded once, elementary functions as the platform provides them.
-/

namespace Sensitivity

namespace Double

/-- The larger of two doubles; of a double and an undefined one, the double. -/
def max (x y : Float) : Float := if x < y || x.isNaN then y else x

/-- Whether the sign bit is set. -/
def isNegative (x : Float) : Bool := Nat.pow 2 63 ≤ x.toBits.toNat

end Double

/-- Doubles as scalars. -/
instance Double.scalar : Scalar Float where
  zero := 0.0
  one := 1.0
  neg := Float.neg
  add := Float.add
  sub := Float.sub
  mul := Float.mul
  div := Float.div
  ofScientific := Float.ofScientific
  lt := (· < ·)
  le := (· ≤ ·)
  beq := Float.beq
  decLT := inferInstance
  decLE := inferInstance
  abs := Float.abs
  max := Double.max
  sqrt := Float.sqrt
  isFinite := Float.isFinite
  plainText x := NumberStyle.plain.write (.ofFloat x)
  scientificText x := NumberStyle.scientific.write (.ofFloat x)

/-- Doubles with the platform's elementary functions. -/
instance Double.elementary : Elementary Float where
  exp := Float.exp
  log := Float.log
  sin := Float.sin
  cos := Float.cos
  tanh := Float.tanh
  sinh := Float.sinh
  cosh := Float.cosh
  atan2 := Float.atan2
  pow := Float.pow
  isNegative := Double.isNegative

end Sensitivity
