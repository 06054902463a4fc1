import Mathlib.LinearAlgebra.Matrix.Block
import Mathlib.LinearAlgebra.Matrix.ToLinearEquiv

/-!
# Parts of a linear system

Unknowns whose equations name no other unknowns are a system of their own, with one solution if the
whole system has one (`Subsystem.eq_zero_of_closed`). So the unknowns that are asked for are settled
by less than all coefficients: beyond the unknowns that something is fed into, all are zero, and of
those that are, only the ones matter that the unknowns asked for depend on
(`Subsystem.eq_of_pruned`).
-/

namespace Sensitivity

namespace Subsystem

variable {ι K : Type} [Fintype ι] [DecidableEq ι] [Field K]

/-- **Unknowns whose equations name no others** are zero as soon as their equations say zero. -/
theorem eq_zero_of_closed {M : Matrix ι ι K} (hM : M.det ≠ 0) {p : ι → Prop}
    (hclosed : ∀ i, p i → ∀ j, ¬ p j → M i j = 0) {x : ι → K}
    (hx : ∀ i, p i → M.mulVec x i = 0) {i : ι} (hi : p i) : x i = 0 := by
  classical
  have hblock : (M.toSquareBlockProp p).det ≠ 0 := by
    rw [M.twoBlockTriangular_det' p hclosed] at hM
    exact left_ne_zero_of_mul hM
  have hinner (i : {i // p i}) :
      (M.toSquareBlockProp p).mulVec (fun j => x j) i = M.mulVec x i := by
    have houter : ∑ j : {j // ¬ p j}, M i j * x j = 0 :=
      Finset.sum_eq_zero fun j _ => by rw [hclosed i i.2 j j.2, zero_mul]
    simp only [Matrix.mulVec, dotProduct, Matrix.toSquareBlockProp_def, Matrix.of_apply]
    rw [← Fintype.sum_subtype_add_sum_subtype p, houter, add_zero]
  have hzero := Matrix.eq_zero_of_mulVec_eq_zero hblock
    (funext fun i => (hinner i).trans (hx i i.2))
  exact congrFun hzero ⟨i, hi⟩

/-- **Leaving coefficients out changes nothing that is asked for.** The unknowns of `P` are those that
something is fed into, the unknowns of `Q` those that the ones asked for depend on. The coefficients
between both are the same in two systems; nothing leads from `P` to elsewhere in the first one, and
from elsewhere to `Q` in the second one. -/
theorem eq_of_pruned {A A' : Matrix ι ι K} (hA : (1 - A).det ≠ 0) (hA' : (1 - A').det ≠ 0)
    {P Q : ι → Prop} (hleave : ∀ i, ¬ P i → ∀ j, P j → A i j = 0)
    (henter : ∀ i, Q i → ∀ j, ¬ Q j → A' i j = 0)
    (hsame : ∀ i, Q i → ∀ j, P j → A' i j = A i j) {b b' x x' : ι → K}
    (hb : ∀ i, ¬ P i → b i = 0) (hb' : ∀ i, Q i → b' i = b i) (hx : (1 - A).mulVec x = b)
    (hx' : (1 - A').mulVec x' = b') {i : ι} (hi : Q i) : x' i = x i := by
  have hrow (B : Matrix ι ι K) (y : ι → K) (i : ι) :
      (1 - B).mulVec y i = y i - ∑ j, B i j * y j := by
    rw [Matrix.sub_mulVec, Matrix.one_mulVec, Pi.sub_apply]
    rfl
  -- the unknowns beyond `P` are a system of their own, that nothing is fed into
  have hbeyond (j : ι) (hj : ¬ P j) : x j = 0 := by
    refine eq_zero_of_closed (p := fun j => ¬ P j) hA (fun i hi j hj => ?_) (fun i hi => ?_) hj
    · have hij : i ≠ j := by
        rintro rfl
        exact hj hi
      rw [Matrix.sub_apply, Matrix.one_apply_ne hij, hleave i hi j (not_not.1 hj), sub_zero]
    · rw [congrFun hx i, hb i hi]
  -- so are the unknowns of `Q` in the second system, which the first solution solves as well
  have hterms (i : ι) (hi : Q i) : ∑ j, A' i j * x j = ∑ j, A i j * x j := by
    refine Finset.sum_congr rfl fun j _ => ?_
    by_cases hj : P j
    · rw [hsame i hi j hj]
    · rw [hbeyond j hj, mul_zero, mul_zero]
  refine sub_eq_zero.1 (eq_zero_of_closed (x := x' - x) hA' (p := Q) (fun i hi j hj => ?_)
    (fun i hi => ?_) hi)
  · have hij : i ≠ j := by
      rintro rfl
      exact hj hi
    rw [Matrix.sub_apply, Matrix.one_apply_ne hij, henter i hi j hj, sub_zero]
  · rw [Matrix.mulVec_sub, Pi.sub_apply, congrFun hx' i, hb' i hi, hrow A' x, hterms i hi, ← hrow A x,
      congrFun hx i, sub_self]

end Subsystem

end Sensitivity
