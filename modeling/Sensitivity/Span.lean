/-!
# Spans

A run of consecutive positions of a flat array. Reading cuts the run out, writing
replaces entries inside the run and no others (`Span.overwrite`).
-/

namespace Sensitivity

/-- The positions from `start` on, `size` of them. -/
structure Span where
  start : Nat
  size : Nat
deriving DecidableEq, Inhabited

namespace Span

/-- The first position behind the span. -/
def stop (s : Span) : Nat := s.start + s.size

/-- The positions from `start` up to `stop`, which must not lie before it. -/
def between? (start stop : Nat) : Option Span :=
  if start ≤ stop then some ⟨start, stop - start⟩ else none

/-- Whether a position lies in the span. -/
def contains (s : Span) (i : Nat) : Bool := s.start ≤ i && i < s.stop

/-- Whether an array of `n` entries holds the span. -/
def fits (s : Span) (n : Nat) : Bool := s.stop ≤ n

/-- The positions of the span, in order. -/
def positions (s : Span) : List Nat := List.range' s.start s.size

/-- The entries of an array in the span. -/
def slice {α : Type} (s : Span) (a : Array α) : Array α := a.extract s.start s.stop

/-- An array with the entries of the span replaced, as far as values are given. -/
def overwrite {α : Type} (s : Span) (a values : Array α) : Array α :=
  a.mapIdx fun i old => if s.contains i then values.getD (i - s.start) old else old

@[simp] theorem size_overwrite {α : Type} (s : Span) (a values : Array α) :
    (s.overwrite a values).size = a.size := by
  simp [overwrite]

/-- Outside the span nothing changes. -/
theorem getElem?_overwrite_of_not_contains {α : Type} (s : Span) (a values : Array α) (i : Nat)
    (hs : s.contains i = false) : (s.overwrite a values)[i]? = a[i]? := by
  simp [overwrite, hs]

end Span

end Sensitivity
