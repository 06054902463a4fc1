import Mathlib
import Sensitivity.Approximation.Stencil
import Sensitivity.Step
import Sensitivity.Proofs.Scalar

/-!
# Exact arithmetic

Scalars without rounding are a field of characteristic zero, in which numbers are equal when they
are the same and decimal literals mean what they say (`ExactScalar`). Steps are never zero
(`Steps.ne_zero_of_step`), and every stencil differentiates what is proportional to the step
(`Stencil.Faithful`).
-/

namespace Sensitivity

/-- Scalars without rounding. -/
class ExactScalar (R : Type) extends Scalar R, Field R, CharZero R where
  beq_iff : ∀ {x y : R}, (x == y) = true ↔ x = y
  zero_le_zero : (0 : R) ≤ 0
  max_max : ∀ x y : R, Scalar.max (Scalar.max x y) y = Scalar.max x y
  scientific : ∀ (m : Nat) (down : Bool) (e : Nat),
    (OfScientific.ofScientific m down e : R) = if down then (m : R) / 10 ^ e else m * 10 ^ e

variable {R : Type} [ExactScalar R]

instance ExactScalar.strict : StrictScalar R where
  symm h := ExactScalar.beq_iff.2 (ExactScalar.beq_iff.1 h).symm
  trans h k := ExactScalar.beq_iff.2 ((ExactScalar.beq_iff.1 h).trans (ExactScalar.beq_iff.1 k))
  beq_self _ := ExactScalar.beq_iff.2 rfl
  max_max := ExactScalar.max_max
  eq_of_beq h _ := ExactScalar.beq_iff.1 h

namespace Settings

theorem ne_zero_of_usableStep {h : R} (hh : usableStep h = true) : h ≠ 0 := by
  rintro rfl
  have hle := (Bool.and_eq_true_iff.1 hh).2
  simp [ExactScalar.zero_le_zero] at hle

/-- What stands in for a smallest step is never zero. -/
theorem minimumStep_ne_zero {s : Settings R} (h : s.validate = .ok ()) : s.minimumStep ≠ 0 :=
  ne_zero_of_usableStep (usable_of_validate h).2

end Settings

namespace Steps

theorem raise_ne_zero {minimum : R} (hm : minimum ≠ 0) (h : R) : raise minimum h ≠ 0 := by
  unfold raise
  dsimp only
  split
  · exact hm
  · rename_i hraised
    exact fun hzero => hraised (ExactScalar.beq_iff.2 hzero)

/-- **No step is zero.** -/
theorem ne_zero_of_step {values : List R} {rule : StepRule} {base minimum : R} (hm : minimum ≠ 0)
    {j : Nat} {h : R} (hstep : (compute values rule base minimum).at? j = some h) : h ≠ 0 := by
  cases rule with
  | absolute =>
    cases hstep
    split
    · exact hm
    · rename_i hbase
      exact fun hzero => hbase (ExactScalar.beq_iff.2 hzero)
  | relative | relativeLegacy | relativeMean =>
    cases hstep
    exact raise_ne_zero hm _
  | relativeEntry =>
    obtain ⟨x, -, rfl⟩ := List.mem_map.1 (List.mem_of_getElem? hstep)
    exact raise_ne_zero hm _

end Steps

namespace Stencil

/-- The weighted sum of values that grow with the offset. -/
def total (st : Stencil R) (slope : R) (v : R) : R :=
  st.points.foldl (fun sum point => sum + point.2 * (v + point.1 * slope)) (st.baseline * v)

/-- A stencil that gives the slope of values that grow with the offset. -/
def Faithful (st : Stencil R) : Prop := ∀ slope v, st.total slope v / st.denominator = slope

/-- **Every stencil is faithful.** -/
theorem faithful_of_ofForm {form : Form} {order : Nat} {st : Stencil R}
    (h : ofForm? form order = some st) : st.Faithful := by
  intro slope v
  unfold ofForm? at h
  split at h <;> cases h <;>
    simp only [total, List.foldl_cons, List.foldl_nil, ExactScalar.scientific] <;>
    norm_num <;> ring

end Stencil

end Sensitivity
