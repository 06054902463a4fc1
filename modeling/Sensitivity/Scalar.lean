/-!
# Scalars

The numbers a model computes with. Every numerical definition of the library is
written once over `Scalar R`, a class of operations without laws, so that the
same definition runs in binary floating point (`Sensitivity.Scalar.Double`) and
can be read in exact arithmetic.

* `Scalar R`: arithmetic, comparison, square root and the two written forms
  that messages use.
* `Elementary R`: the elementary functions that components may call.
* `Number R T`: the arithmetic a component is evaluated in, either `R` itself or
  complex numbers over `R` (`Sensitivity.Scalar.Complex`).
-/

namespace Sensitivity

/-- Real arithmetic as the library uses it. The class states no laws: rounding
is part of the behaviour. -/
class Scalar (R : Type) extends Zero R, One R, Neg R, Add R, Sub R, Mul R, Div R,
    OfScientific R, LT R, LE R, BEq R where
  decLT : DecidableLT R
  decLE : DecidableLE R
  /-- The absolute value. -/
  abs : R → R
  /-- The larger of two numbers; of a number and an undefined value, the number. -/
  max : R → R → R
  sqrt : R → R
  /-- Neither infinite nor undefined. -/
  isFinite : R → Bool
  /-- The written form without an exponent. -/
  plainText : R → String
  /-- The written form with an exponent. -/
  scientificText : R → String

attribute [reducible, instance] Scalar.decLT Scalar.decLE

namespace Scalar

variable {R : Type} [Scalar R]

/-- An undefined value is the only one that differs from itself. -/
def isUndefined (x : R) : Bool := !(x == x)

/-- The undefined value, as the quotient of zero by zero. -/
def undefined : R := (0 : R) / 0

/-- The sum of a list, from the left. It starts from the zero that changes no
term, so that a sum of negative zeros keeps its sign. -/
def sum (xs : List R) : R := xs.foldl (· + ·) (-(0 : R))

/-- The largest entry of a list, and zero for the empty list. -/
def maximum (xs : List R) : R := xs.foldl max 0

end Scalar

/-- The elementary functions of a scalar type. -/
class Elementary (R : Type) extends Scalar R where
  exp : R → R
  log : R → R
  sin : R → R
  cos : R → R
  tanh : R → R
  sinh : R → R
  cosh : R → R
  /-- The angle of the point with these ordinate and abscissa. -/
  atan2 : R → R → R
  pow : R → R → R
  /-- Whether the sign of a number, zeros included, is negative. -/
  isNegative : R → Bool

/-- The arithmetic `T` that a computation over reals `R` is carried out in. -/
class Number (R : outParam Type) (T : Type) extends Neg T, Add T, Sub T, Mul T, Div T where
  /-- Whether imaginary parts are carried along. -/
  isComplex : Bool
  /-- A number from its two parts; a real one forgets the second. -/
  ofParts : R → R → T
  re : T → R
  im : T → R
  addReal : T → R → T
  subReal : T → R → T
  mulReal : T → R → T
  divReal : T → R → T
  sqrt : T → T
  exp : T → T
  log : T → T
  sin : T → T
  cos : T → T
  tanh : T → T
  /-- The absolute value that a complex step can differentiate: the sign of the
  real part decides. -/
  stepAbs : T → T
  powInt : T → Int → T
  powReal : T → R → T

namespace Number

/-- A real constant. -/
def ofReal {R T : Type} [Scalar R] [Number R T] (x : R) : T := ofParts x 0

end Number

/-- Powers by repeated squaring: the bits of `n` from the lowest, `acc` times the
squares of `base` they select. -/
def powNat {R : Type} [Mul R] (acc base : R) (n : Nat) : R :=
  if n ≤ 1 then
    if n = 1 then acc * base else acc
  else powNat (if n % 2 = 1 then acc * base else acc) (base * base) (n / 2)
termination_by n
decreasing_by omega

/-- An integer power of a real number; a negative one is the reciprocal of the
positive one. -/
def powIntReal {R : Type} [Scalar R] (x : R) (n : Int) : R :=
  let p := powNat (1 : R) x n.natAbs
  if n < 0 then 1 / p else p

/-- A real computation carries no imaginary part. -/
instance Number.real {R : Type} [Elementary R] : Number R R where
  isComplex := false
  ofParts re _ := re
  re x := x
  im _ := 0
  addReal x y := x + y
  subReal x y := x - y
  mulReal x y := x * y
  divReal x y := x / y
  sqrt := Scalar.sqrt
  exp := Elementary.exp
  log := Elementary.log
  sin := Elementary.sin
  cos := Elementary.cos
  tanh := Elementary.tanh
  stepAbs x := if x < 0 then -x else x
  powInt := powIntReal
  powReal := Elementary.pow

end Sensitivity
