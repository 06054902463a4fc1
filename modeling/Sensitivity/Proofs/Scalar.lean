import Mathlib
import Sensitivity.Scalar.Double
import Sensitivity.Settings

/-!
# Laws of scalars

What the algorithms rely on beyond the operations themselves: equality of numbers is
symmetric and transitive, and reflexive on finite numbers, and taking the larger of two
numbers once more changes nothing. Doubles obey these laws (`Double.lawful`); an
undefined double differs from itself, so full reflexivity is not among them.

Settings inherit equality from their numbers; settings that were validated equal
themselves (`Settings.beq_self_of_validate`). Two zeros may be equal without being the same, but a
number that is not at most zero equals no other one (`StrictScalar`), so settings that were
validated equal no others (`Settings.eq_of_beq_of_validate`).
-/

namespace Sensitivity

/-- Scalars with the laws of comparison that grouping and perturbing rely on. -/
class LawfulScalar (R : Type) [Scalar R] : Prop extends PartialEquivBEq R where
  beq_self : ∀ {x : R}, Scalar.isFinite x = true → (x == x) = true
  max_max : ∀ x y : R, Scalar.max (Scalar.max x y) y = Scalar.max x y

/-- Scalars in which a number that is not at most zero equals no other one. -/
class StrictScalar (R : Type) [Scalar R] : Prop extends LawfulScalar R where
  eq_of_beq : ∀ {x y : R}, (x == y) = true → ¬ x ≤ 0 → x = y

namespace Double

open Float.Model

theorem max_max (x y : Float) : max (max x y) y = max x y := by
  by_cases h : (x < y || x.isNaN) = true
  · have hxy : max x y = y := by simp only [max, h, if_true]
    rw [hxy]
    simp only [max, ite_self]
  · have hxy : max x y = x := by simp only [max, h, Bool.false_eq_true, if_false]
    rw [hxy, hxy]

/-- **Doubles obey the laws.** -/
instance lawful : LawfulScalar Float where
  symm {x y} h := by
    have h : x.toModel.unpack.beq y.toModel.unpack = true := h
    change y.toModel.unpack.beq x.toModel.unpack = true
    rw [UnpackedFloat.beq_iff_ne_notANumber_and_eq] at h ⊢
    obtain ⟨hx, hy, heq | ⟨hpos, hneg⟩ | ⟨hneg, hpos⟩⟩ := h
    · exact ⟨hy, hx, .inl heq.symm⟩
    · exact ⟨hy, hx, .inr (.inr ⟨hneg, hpos⟩)⟩
    · exact ⟨hy, hx, .inr (.inl ⟨hpos, hneg⟩)⟩
  trans {x y z} h k := by
    have h : x.toModel.unpack.beq y.toModel.unpack = true := h
    have k : y.toModel.unpack.beq z.toModel.unpack = true := k
    change x.toModel.unpack.beq z.toModel.unpack = true
    rw [UnpackedFloat.beq_iff_ne_notANumber_and_eq] at h k ⊢
    obtain ⟨hx, -, hxy⟩ := h
    obtain ⟨-, hz, hyz⟩ := k
    -- the zeros of both signs are equal to each other
    refine ⟨hx, hz, ?_⟩
    rcases hxy with hxy | ⟨hx, hy⟩ | ⟨hx, hy⟩
    · rwa [hxy]
    · rcases hyz with hyz | ⟨hy', hz⟩ | ⟨hy', hz⟩ <;> simp_all
    · rcases hyz with hyz | ⟨hy', hz⟩ | ⟨hy', hz⟩ <;> simp_all
  beq_self {x} h := by
    have h : x.toModel.unpack.isFinite = true := h
    change x.toModel.unpack.beq x.toModel.unpack = true
    have hx : x.toModel.unpack ≠ .notANumber := by
      intro hx
      rw [hx] at h
      simp [UnpackedFloat.isFinite] at h
    exact (UnpackedFloat.beq_iff_ne_notANumber_and_eq _ _).2 ⟨hx, hx, .inl rfl⟩
  max_max := max_max

/-- Only the two zeros are different doubles that are equal. -/
instance strict : StrictScalar Float where
  eq_of_beq {x y} h hx := by
    obtain ⟨-, -, rfl | ⟨rfl, -⟩ | ⟨rfl, -⟩⟩ := Float.beq_iff_ne_nan_and_eq.1 h
    · rfl
    · exact absurd (by decide) hx
    · exact absurd (by decide) hx

end Double

/-- Optional numbers are compared as the numbers are. -/
instance partialEquivBEqOption {α : Type} [BEq α] [PartialEquivBEq α] :
    PartialEquivBEq (Option α) where
  symm {x y} h := by
    cases x <;> cases y <;> simp_all [BEq.comm]
  trans {x y z} h k := by
    cases x <;> cases y <;> cases z <;> simp_all
    exact BEq.trans h k

namespace Settings

variable {R : Type} [Scalar R]

/-- What equality of settings says, choice by choice. -/
theorem beq_iff (a b : Settings R) : (a == b) = true ↔
    a.method = b.method ∧ (a.step == b.step) = true ∧ a.form = b.form ∧ a.order = b.order ∧
      a.stepRule = b.stepRule ∧ (a.minimumStep == b.minimumStep) = true ∧
      a.directional = b.directional := by
  change (decide (a.method = b.method) && (a.step == b.step) && decide (a.form = b.form) &&
    a.order == b.order && decide (a.stepRule = b.stepRule) &&
    (a.minimumStep == b.minimumStep) && a.directional == b.directional) = true ↔ _
  simp [and_assoc]

variable [LawfulScalar R]

/-- Equality of settings is symmetric and transitive, as equality of numbers is. -/
instance partialEquivBEq : PartialEquivBEq (Settings R) where
  symm {a b} h := by
    rw [beq_iff] at h ⊢
    obtain ⟨hm, hs, hf, ho, hr, hmin, hd⟩ := h
    exact ⟨hm.symm, PartialEquivBEq.symm hs, hf.symm, ho.symm, hr.symm,
      PartialEquivBEq.symm hmin, hd.symm⟩
  trans {a b c} h k := by
    rw [beq_iff] at h k ⊢
    obtain ⟨hm, hs, hf, ho, hr, hmin, hd⟩ := h
    obtain ⟨km, ks, kf, ko, kr, kmin, kd⟩ := k
    exact ⟨hm.trans km, PartialEquivBEq.trans hs ks, hf.trans kf, ho.trans ko, hr.trans kr,
      PartialEquivBEq.trans hmin kmin, hd.trans kd⟩

omit [LawfulScalar R] in
/-- Settings that were validated have steps that can be taken. -/
theorem usable_of_validate {s : Settings R} (h : s.validate = .ok ()) :
    (∀ x, s.step = some x → usableStep x = true) ∧ usableStep s.minimumStep = true := by
  unfold validate at h
  split at h
  · cases h
  · rename_i hstep
    split at h
    · cases h
    · rename_i hmin
      refine ⟨fun x hx => ?_, by simpa using hmin⟩
      rw [hx, Option.filter_some] at hstep
      cases hx : usableStep x
      · simp [hx] at hstep
      · rfl

/-- Settings that were validated equal themselves. -/
theorem beq_self_of_validate {s : Settings R} (h : s.validate = .ok ()) : (s == s) = true := by
  obtain ⟨hstep, hmin⟩ := usable_of_validate h
  have hfinite {x : R} (hx : usableStep x = true) : Scalar.isFinite x = true :=
    (Bool.and_eq_true_iff.1 hx).1
  have hs : (s.step == s.step) = true := by
    cases hx : s.step with
    | none => rfl
    | some x => exact LawfulScalar.beq_self (hfinite (hstep x hx))
  exact (beq_iff s s).2 ⟨rfl, hs, rfl, rfl, rfl, LawfulScalar.beq_self (hfinite hmin), rfl⟩

omit [LawfulScalar R] in
/-- Settings that were validated equal no others. -/
theorem eq_of_beq_of_validate [StrictScalar R] {s t : Settings R} (h : (s == t) = true)
    (hs : s.validate = .ok ()) : s = t := by
  obtain ⟨hmethod, hstep, hform, horder, hrule, hminimum, hdirectional⟩ := (beq_iff s t).1 h
  obtain ⟨hsteps, hmin⟩ := usable_of_validate hs
  have hpositive {x : R} (hx : usableStep x = true) : ¬ x ≤ 0 := by
    simpa using (Bool.and_eq_true_iff.1 hx).2
  obtain ⟨method, step, form, order, rule, minimum, directional⟩ := s
  obtain ⟨_, step', _, _, _, minimum', _⟩ := t
  obtain rfl : method = _ := hmethod
  obtain rfl : form = _ := hform
  obtain rfl : order = _ := horder
  obtain rfl : rule = _ := hrule
  obtain rfl : directional = _ := hdirectional
  obtain rfl : minimum = minimum' := StrictScalar.eq_of_beq hminimum (hpositive hmin)
  have hstep : step = step' := by
    cases step with
    | none => cases step' with
      | none => rfl
      | some y => cases hstep
    | some x => cases step' with
      | none => cases hstep
      | some y => rw [StrictScalar.eq_of_beq hstep (hpositive (hsteps x rfl))]
  rw [hstep]

end Settings

end Sensitivity
