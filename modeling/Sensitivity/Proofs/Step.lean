import Sensitivity.Step
import Sensitivity.Proofs.Order

/-!
# Steps that can be taken

A step is usable when it is positive and finite. Valid settings have a usable smallest step, and no
relative rule goes below it (`Steps.le_raise`); so under a relative rule the step of an entry is usable
unless scaling the base step overflows. The absolute rule takes the base step as it is, unless it is
zero. Base steps are usable when settings give them, and so are the standard ones
(`Double.usable_standard`); the defaults of a check may be anything (`Site.usable_baseStep`). Together
these are all the ways to a step that cannot be taken (`Steps.unusable_iff`).
-/

namespace Sensitivity

variable {R : Type} [Scalar R]

namespace Settings

theorem usableStep_iff {h : R} : usableStep h = true ↔ Scalar.isFinite h = true ∧ ¬ h ≤ 0 := by
  simp [usableStep]

/-- Settings whose steps can be taken, as far as they give any. -/
structure Usable (s : Settings R) : Prop where
  step : ∀ h, s.step = some h → usableStep h = true
  minimumStep : usableStep s.minimumStep = true

/-- A finite number that is at least a usable step is usable. -/
theorem usable_of_le [OrderedScalar R] {m h : R} (hm : usableStep m = true) (hle : m ≤ h)
    (hfinite : Scalar.isFinite h = true) : usableStep h = true :=
  usableStep_iff.2
    ⟨hfinite, fun hzero => (usableStep_iff.1 hm).2 (OrderedScalar.le_trans hle hzero)⟩

end Settings

/-- All base steps can be taken. -/
def BaseSteps.Usable (b : BaseSteps R) : Prop :=
  ∀ isGlobal s, Settings.usableStep (b.choose isGlobal s) = true

/-- **The standard base steps are usable doubles.** -/
theorem Double.usable_standard : (BaseSteps.standard : BaseSteps Float).Usable := by
  intro isGlobal s
  unfold BaseSteps.choose
  split
  · decide +kernel
  · decide +kernel
  · cases isGlobal <;> decide +kernel

namespace Site

/-- A check whose default base step is neither usable nor zero, and settings that give no other. -/
def Misleads (site : Site R) (s : Settings R) : Prop :=
  s.step = none ∧ (∃ defaults isGlobal, site = .check defaults isGlobal) ∧
    (site.baseStep s == 0) = false ∧ Settings.usableStep (site.baseStep s) = false

/-- **A base step is usable** unless it is a default of a check. -/
theorem usable_baseStep (hstandard : (BaseSteps.standard : BaseSteps R).Usable) (site : Site R)
    {s : Settings R} (hs : s.Usable) : Settings.usableStep (site.baseStep s) = true ∨
      s.step = none ∧ ∃ defaults isGlobal, site = .check defaults isGlobal := by
  unfold baseStep
  cases hstep : s.step with
  | some h => exact .inl (hs.step h hstep)
  | none =>
    cases site with
    | component => exact .inl (hstandard false s)
    | group => exact .inl (hstandard true s)
    | check defaults isGlobal => exact .inr ⟨rfl, defaults, isGlobal, rfl⟩

end Site

namespace Steps

/-- What a rule scales the base step with at an entry; the absolute rule scales nothing. -/
def scale? (values : List R) : StepRule → Nat → Option R
  | .absolute, _ => none
  | .relative, _ | .relativeLegacy, _ => some (norm values)
  | .relativeMean, _ => some (meanAbs values)
  | .relativeEntry, i => values[i]?.map Scalar.abs

/-- Scaling the base step leads above all finite numbers. -/
def Overflows (values : List R) (rule : StepRule) (base minimum : R) (i : Nat) : Prop :=
  ∃ x, scale? values rule i = some x ∧ Scalar.isFinite (base * x) = false ∧ minimum ≤ base * x

variable {values : List R} {rule : StepRule} {base minimum h : R} {i : Nat}

/-- The step of an entry: the base step, or what a relative rule makes of it. -/
theorem eq_of_at? (hstep : (compute values rule base minimum).at? i = some h) :
    (rule = .absolute ∧ h = if base == 0 then minimum else base) ∨
      rule ≠ .absolute ∧ ∃ x, scale? values rule i = some x ∧ h = raise minimum (base * x) := by
  cases rule with
  | absolute => exact .inl ⟨rfl, (Option.some.inj hstep).symm⟩
  | relative => exact .inr ⟨by simp, _, rfl, (Option.some.inj hstep).symm⟩
  | relativeLegacy => exact .inr ⟨by simp, _, rfl, (Option.some.inj hstep).symm⟩
  | relativeMean => exact .inr ⟨by simp, _, rfl, (Option.some.inj hstep).symm⟩
  | relativeEntry =>
    obtain ⟨x, hx, rfl⟩ := Option.map_eq_some_iff.1 ((List.getElem?_map ..).symm.trans hstep)
    exact .inr ⟨by simp, _, congrArg (Option.map Scalar.abs) hx, rfl⟩

section Raise

variable [OrderedScalar R] (hm : Settings.usableStep minimum = true)

include hm

/-- **No relative step is below the smallest one.** -/
theorem le_raise (p : R) : minimum ≤ raise minimum p := by
  have hdefined := OrderedScalar.defined_of_isFinite (Settings.usableStep_iff.1 hm).1
  unfold raise
  dsimp only
  split
  · exact OrderedScalar.le_refl hdefined
  · exact OrderedScalar.le_max_right hdefined p

/-- What is not at least the smallest step is raised to it. -/
theorem raise_of_not_le {p : R} (hp : ¬ minimum ≤ p) : raise minimum p = minimum := by
  have hdefined := OrderedScalar.defined_of_isFinite (Settings.usableStep_iff.1 hm).1
  have hmax : Scalar.max p minimum = minimum := by
    rw [OrderedScalar.max_eq]
    split
    · rfl
    · rename_i hnot
      rw [not_or, Bool.not_eq_true] at hnot
      exact absurd (OrderedScalar.le_of_not_lt hnot.2 hdefined hnot.1) hp
  unfold raise
  dsimp only
  rw [hmax, ite_self]

/-- What is at least the smallest step stays as it is. -/
theorem raise_of_le {p : R} (hp : minimum ≤ p) : raise minimum p = p := by
  have hmax : Scalar.max p minimum = p := by
    rw [OrderedScalar.max_eq, if_neg]
    rw [(OrderedScalar.defined_of_le hp).2, or_iff_left Bool.false_ne_true]
    exact fun hlt => (OrderedScalar.lt_iff.1 hlt).2 hp
  have hpositive : ¬ p ≤ 0 := fun hzero =>
    (Settings.usableStep_iff.1 hm).2 (OrderedScalar.le_trans hp hzero)
  have hne : ¬ (p == 0) = true := fun hzero => by
    obtain rfl := StrictScalar.eq_of_beq hzero hpositive
    exact hpositive (OrderedScalar.le_refl OrderedScalar.defined_zero)
  unfold raise
  dsimp only
  rw [hmax, if_neg hne]

/-- **A relative step is usable** unless it is beyond all finite numbers. -/
theorem usable_raise_iff {p : R} : Settings.usableStep (raise minimum p) = true ↔
    ¬ (Scalar.isFinite p = false ∧ minimum ≤ p) := by
  by_cases hp : minimum ≤ p
  · rw [raise_of_le hm hp, and_iff_left hp, Bool.not_eq_false]
    exact ⟨fun h => (Settings.usableStep_iff.1 h).1, Settings.usable_of_le hm hp⟩
  · rw [raise_of_not_le hm hp]
    exact ⟨fun _ h => hp h.2, fun _ => hm⟩

end Raise

variable [OrderedScalar R] {site : Site R} {s : Settings R}

/-- **What makes a step unusable**: scaling that overflows, or the defaults of a check, which the
absolute rule takes as they are. -/
theorem unusable_iff (hstandard : (BaseSteps.standard : BaseSteps R).Usable) (hs : s.Usable)
    (hstep : (compute values rule (site.baseStep s) s.minimumStep).at? i = some h) :
    Settings.usableStep h = false ↔
      Overflows values rule (site.baseStep s) s.minimumStep i ∨ rule = .absolute ∧ site.Misleads s := by
  rcases eq_of_at? hstep with ⟨rfl, rfl⟩ | ⟨hrule, x, hx, rfl⟩
  · have hscale : ¬ Overflows values .absolute (site.baseStep s) s.minimumStep i :=
      fun ⟨x, hx, _⟩ => nomatch hx
    rw [or_iff_right hscale, and_iff_right rfl]
    cases hzero : site.baseStep s == 0 with
    | true =>
      rw [if_pos rfl]
      exact ⟨fun h => absurd hs.minimumStep (by simp [h]),
        fun h => absurd h.2.2.1 (by simp [hzero])⟩
    | false =>
      rw [if_neg (by simp)]
      refine ⟨fun h => ?_, fun h => h.2.2.2⟩
      rcases Site.usable_baseStep hstandard site hs with husable | ⟨hnone, hcheck⟩
      · exact absurd husable (by simp [h])
      · exact ⟨hnone, hcheck, hzero, h⟩
  · rw [or_iff_left fun h => hrule h.1, ← Bool.not_eq_true, usable_raise_iff hs.minimumStep, not_not]
    refine ⟨fun h => ⟨x, hx, h⟩, fun ⟨y, hy, h⟩ => ?_⟩
    obtain rfl := Option.some.inj (hx.symm.trans hy)
    exact h

/-- **No step is below the smallest one** under a relative rule. -/
theorem le_of_at? (hs : s.Usable) (hrule : rule ≠ .absolute)
    (hstep : (compute values rule base s.minimumStep).at? i = some h) : s.minimumStep ≤ h := by
  rcases eq_of_at? hstep with ⟨habsolute, -⟩ | ⟨-, x, -, rfl⟩
  · exact absurd habsolute hrule
  · exact le_raise hs.minimumStep _

end Steps

end Sensitivity
