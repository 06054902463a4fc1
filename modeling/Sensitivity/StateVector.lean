import Sensitivity.Scalar.Complex
import Sensitivity.Span

/-!
# State vectors

The entries of all variables of one kind, laid out flat. A state vector may carry a
shadow with the imaginary part of every entry; real computations read past it.

Restoring (`StateVector.restore`) returns to a saved vector, imaginary parts
included when both have a shadow.
-/

namespace Sensitivity

/-- Real parts, and imaginary parts when there is a shadow. -/
structure StateVector (R : Type) where
  real : Array R
  imag : Option (Array R)
deriving Inhabited

namespace StateVector

variable {R : Type}

/-- The number of entries. -/
def size (v : StateVector R) : Nat := v.real.size

/-- Whether there is a shadow. -/
def isComplex (v : StateVector R) : Bool := v.imag.isSome

/-- The real parts in a span. -/
def readReal (v : StateVector R) (s : Span) : Array R := s.slice v.real

/-- The vector with the real parts in a span replaced. -/
def writeReal (v : StateVector R) (s : Span) (values : Array R) : StateVector R :=
  { v with real := s.overwrite v.real values }

/-- The vector with the imaginary parts in a span replaced; without a shadow there
is nothing to replace. -/
def writeImag (v : StateVector R) (s : Span) (values : Array R) : StateVector R :=
  { v with imag := v.imag.map fun im => s.overwrite im values }

/-- The vector with a span replaced by a span of another vector, imaginary parts
included when both have a shadow. -/
def copy (v : StateVector R) (target : Span) (w : StateVector R) (source : Span) :
    StateVector R where
  real := target.overwrite v.real (source.slice w.real)
  imag := match v.imag, w.imag with
    | some im, some other => some (target.overwrite im (source.slice other))
    | im, _ => im

variable [Scalar R]

/-- The vector of `n` zeros. -/
def zeros (n : Nat) (complex : Bool) : StateVector R :=
  ⟨Array.replicate n 0, if complex then some (Array.replicate n 0) else none⟩

/-- A vector with these real parts, its shadow zero. -/
def ofReal (values : Array R) (complex : Bool) : StateVector R :=
  ⟨values, if complex then some (Array.replicate values.size 0) else none⟩

/-- The imaginary parts in a span; zeros without a shadow. -/
def readImag (v : StateVector R) (s : Span) : Array R :=
  match v.imag with
  | some im => s.slice im
  | none => Array.replicate s.size 0

/-- The entries of a span as complex numbers. -/
def readComplex (v : StateVector R) (s : Span) : Array (ComplexNumber R) :=
  Array.zipWith ComplexNumber.mk (v.readReal s) (v.readImag s)

/-- The vector with a span replaced by the results of a real computation, whose
imaginary parts are zero. -/
def storeReal (v : StateVector R) (s : Span) (values : Array R) : StateVector R :=
  (v.writeReal s values).writeImag s (values.map fun _ => 0)

/-- The vector with a span replaced by complex results. Imaginary parts are kept
only where there is a shadow. -/
def storeComplex (v : StateVector R) (s : Span) (values : Array (ComplexNumber R)) :
    StateVector R :=
  (v.writeReal s (values.map ComplexNumber.re)).writeImag s (values.map ComplexNumber.im)

/-- Adds to the real part of an entry. -/
def addReal? (v : StateVector R) (i : Nat) (h : R) : Option (StateVector R) :=
  if i < v.size then some { v with real := v.real.modify i (· + h) } else none

/-- Adds to the imaginary part of an entry, which takes a shadow that holds it. -/
def addImag? (v : StateVector R) (i : Nat) (h : R) : Option (StateVector R) :=
  v.imag.bind fun im =>
    if i < im.size then some { v with imag := some (im.modify i (· + h)) } else none

/-- An entry as a complex number. -/
def complexAt? (v : StateVector R) (i : Nat) : Option (ComplexNumber R) := do
  let re ← v.real[i]?
  let im ← match v.imag with
    | some im => im[i]?
    | none => some 0
  return ⟨re, im⟩

/-- Sets every imaginary part to zero. -/
def clearImag (v : StateVector R) : StateVector R :=
  { v with imag := v.imag.map fun im => im.map fun _ => 0 }

/-- The largest absolute imaginary part; zero without a shadow. -/
def imagMaxAbs (v : StateVector R) : R :=
  match v.imag with
  | some im => Scalar.maximum (im.toList.map Scalar.abs)
  | none => 0

/-- Returns to a saved vector of the same size. A shadow that was not saved is
cleared, and one that was saved returns with its values. -/
def restore (saved v : StateVector R) : StateVector R where
  real := saved.real
  imag := v.imag.map fun im =>
    match saved.imag with
    | some old => old
    | none => im.map fun _ => 0

/-- Returns to a saved vector, which must have the same size. -/
def restore? (saved v : StateVector R) : Option (StateVector R) :=
  if saved.size = v.size then some (restore saved v) else none

/-- Replaces all real parts by as many values. -/
def replaceReal? (v : StateVector R) (values : Array R) : Option (StateVector R) :=
  if values.size = v.size then some { v with real := values } else none

/-- Replaces all imaginary parts by as many values; without a shadow nothing. -/
def replaceImag? (v : StateVector R) (values : Array R) : Option (StateVector R) :=
  match v.imag with
  | none => some v
  | some im => if values.size = im.size then some { v with imag := some values } else none

end StateVector

end Sensitivity
