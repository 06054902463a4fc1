import Sensitivity.Scalar

/-!
# Complex numbers over a scalar type

Pairs of scalars with the textbook formulas, each operation spelled out down to
the order of its roundings. Functions of one variable go through the polar form
unless a part vanishes.
-/

namespace Sensitivity

/-- The number `re + im * i`. -/
structure ComplexNumber (R : Type) where
  re : R
  im : R

namespace ComplexNumber

section Arithmetic

variable {R : Type} [Scalar R]

/-- A real number as a complex one. -/
def ofReal (x : R) : ComplexNumber R := ⟨x, 0⟩

instance : Neg (ComplexNumber R) := ⟨fun z => ⟨-z.re, -z.im⟩⟩

instance : Add (ComplexNumber R) := ⟨fun z w => ⟨z.re + w.re, z.im + w.im⟩⟩

instance : Sub (ComplexNumber R) := ⟨fun z w => ⟨z.re - w.re, z.im - w.im⟩⟩

instance : Mul (ComplexNumber R) :=
  ⟨fun z w => ⟨z.re * w.re - z.im * w.im, z.re * w.im + z.im * w.re⟩⟩

/-- The square of the modulus. -/
def normSq (z : ComplexNumber R) : R := z.re * z.re + z.im * z.im

instance : Div (ComplexNumber R) :=
  ⟨fun z w =>
    ⟨(z.re * w.re + z.im * w.im) / w.normSq, (z.im * w.re - z.re * w.im) / w.normSq⟩⟩

/-- Whether a number is infinite. -/
def isInfinite (x : R) : Bool := !(Scalar.isFinite x) && !(Scalar.isUndefined x)

/-- The modulus. An infinite part decides it alone, and a part too small to show beside
the other one is added to it, so that its square need not be taken. -/
def modulus (z : ComplexNumber R) : R :=
  let a := Scalar.abs z.re
  let b := Scalar.abs z.im
  if isInfinite a then a
  else if isInfinite b then b
  else
    let (small, large) := if a < b then (a, b) else (b, a)
    if small ≤ large * 5.551115123125783e-17 then large + small else Scalar.sqrt z.normSq

/-- The reciprocal, as the conjugate over the squared modulus. -/
def inverse (z : ComplexNumber R) : ComplexNumber R := ⟨z.re / z.normSq, -z.im / z.normSq⟩

/-- A positive power: trailing zero bits of the exponent square the base before
anything is accumulated. -/
def powPos (z : ComplexNumber R) (n : Nat) : ComplexNumber R :=
  if n ≤ 1 then z
  else if n % 2 = 0 then powPos (z * z) (n / 2)
  else powNat z (z * z) (n / 2)
termination_by n
decreasing_by omega

/-- An integer power; a negative one is a power of the reciprocal. -/
def powInt (z : ComplexNumber R) (n : Int) : ComplexNumber R :=
  if n = 0 then ofReal 1
  else if n < 0 then z.inverse.powPos n.natAbs
  else z.powPos n.natAbs

end Arithmetic

section Functions

variable {R : Type} [Elementary R]

/-- The angle from the positive real axis. -/
def argument (z : ComplexNumber R) : R := Elementary.atan2 z.im z.re

/-- The number of modulus `r` and angle `t`. -/
def polar (r t : R) : ComplexNumber R := ⟨r * Elementary.cos t, r * Elementary.sin t⟩

/-- The exponential. At an infinite real part the result is a limit: zero on the
left, and on the right the number itself when its angle is zero or unknown. -/
def exp (z : ComplexNumber R) : ComplexNumber R :=
  if isInfinite z.re && decide (z.re < 0) && !(Scalar.isFinite z.im) then ⟨0, 0⟩
  else if isInfinite z.re && decide (0 < z.re) && (z.im == 0 || !(Scalar.isFinite z.im)) then
    ⟨z.re, if isInfinite z.im then Scalar.undefined else z.im⟩
  else if Scalar.isUndefined z.re && z.im == 0 then z
  else polar (Elementary.exp z.re) z.im

/-- The principal logarithm. -/
def log (z : ComplexNumber R) : ComplexNumber R := ⟨Elementary.log z.modulus, z.argument⟩

/-- The principal square root. On the axes it is taken without the polar form;
on the negative real axis the sign of the zero imaginary part chooses the side. -/
def sqrt (z : ComplexNumber R) : ComplexNumber R :=
  if z.im == 0 then
    if Elementary.isNegative z.re then
      let s := Scalar.sqrt (-z.re)
      ⟨0, if Elementary.isNegative z.im then -s else s⟩
    else ⟨Scalar.sqrt z.re, z.im⟩
  else if z.re == 0 then
    let x := Scalar.sqrt (Scalar.abs z.im / 2.0)
    ⟨x, if Elementary.isNegative z.im then -x else x⟩
  else polar (Scalar.sqrt z.modulus) (z.argument / 2.0)

/-- The sine, by the addition theorem. -/
def sin (z : ComplexNumber R) : ComplexNumber R :=
  ⟨Elementary.sin z.re * Elementary.cosh z.im, Elementary.cos z.re * Elementary.sinh z.im⟩

/-- The cosine, by the addition theorem. -/
def cos (z : ComplexNumber R) : ComplexNumber R :=
  ⟨Elementary.cos z.re * Elementary.cosh z.im, -Elementary.sin z.re * Elementary.sinh z.im⟩

/-- The hyperbolic tangent, by doubled arguments. -/
def tanh (z : ComplexNumber R) : ComplexNumber R :=
  let x := z.re + z.re
  let y := z.im + z.im
  let q := Elementary.cosh x + Elementary.cos y
  ⟨Elementary.sinh x / q, Elementary.sin y / q⟩

/-- A real power. -/
def powReal (z : ComplexNumber R) (p : R) : ComplexNumber R :=
  if p == 0 then ofReal 1 else polar (Elementary.pow z.modulus p) (z.argument * p)

/-- Computations that carry an imaginary part along. -/
instance number : Number R (ComplexNumber R) where
  isComplex := true
  ofParts := .mk
  re := ComplexNumber.re
  im := ComplexNumber.im
  addReal z x := ⟨z.re + x, z.im⟩
  subReal z x := ⟨z.re - x, z.im⟩
  mulReal z x := ⟨z.re * x, z.im * x⟩
  divReal z x := ⟨z.re / x, z.im / x⟩
  sqrt := ComplexNumber.sqrt
  exp := ComplexNumber.exp
  log := ComplexNumber.log
  sin := ComplexNumber.sin
  cos := ComplexNumber.cos
  tanh := ComplexNumber.tanh
  stepAbs z := if z.re < 0 then -z else z
  powInt := ComplexNumber.powInt
  powReal := ComplexNumber.powReal

end Functions

end ComplexNumber

end Sensitivity
