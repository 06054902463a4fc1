import Sensitivity.Check.Report
import Sensitivity.Proofs.Order

/-!
# What the summary errors of a report say

A threshold that is at least a summary error bounds the errors of all comparisons, except those that
are undefined: these are passed over, wherever they stand (`Report.summary_le_iff`). So a summary
error bounds every comparison exactly if no error is undefined (`OrderedScalar.bounds_iff`). The
relative error of a comparison with a fresh block of zeros is undefined on purpose; but so are the
errors of a comparison with an undefined derivative, and then a report passes at every threshold
(`Report.exists_passed_over`).
-/

namespace Sensitivity

namespace OrderedScalar

variable {R : Type} [Scalar R] [OrderedScalar R]

theorem defined_maximum (xs : List R) : Scalar.isUndefined (Scalar.maximum xs) = false := by
  have hfold (m : R) (hm : Scalar.isUndefined m = false) :
      Scalar.isUndefined (xs.foldl Scalar.max m) = false := by
    induction xs generalizing m with
    | nil => exact hm
    | cons x rest ih => exact ih _ (defined_max hm)
  exact hfold 0 defined_zero

/-- What bounds exactly the defined numbers bounds some exactly if all of these are defined. -/
theorem bounds_iff {α : Type} {m : R} {xs : List α} {e : α → R} (P : α → Prop)
    (hdefined : Scalar.isUndefined m = false)
    (hm : ∀ t : R, m ≤ t ↔ (0 : R) ≤ t ∧ ∀ x ∈ xs, Scalar.isUndefined (e x) = true ∨ e x ≤ t) :
    (∀ t, m ≤ t → ∀ x ∈ xs, P x → e x ≤ t) ↔
      ∀ x ∈ xs, P x → Scalar.isUndefined (e x) = false := by
  constructor
  · intro h x hx hP
    exact (defined_of_le (h m (le_refl hdefined) x hx hP)).1
  · intro h t ht x hx hP
    exact (((hm t).1 ht).2 x hx).resolve_left (by simp [h x hx hP])

end OrderedScalar

namespace Report

variable {R : Type} (r : Report R)

/-- What holds of all comparisons holds of all scopes, and conversely. -/
theorem forall_comparisons {P : Comparison R → Prop} :
    (∀ c ∈ r.comparisons, P c) ↔ ∀ s ∈ r.scopes, ∀ c ∈ s.comparisons, P c := by
  simp only [comparisons, List.mem_flatMap]
  exact ⟨fun h s hs c hc => h c ⟨s, hs, hc⟩, fun h c ⟨s, hs, hc⟩ => h s hs c hc⟩

variable [Scalar R] [OrderedScalar R]

/-- What bounds the largest absolute error bounds all that are defined. -/
theorem maxAbsoluteError_le_iff {t : R} : r.maxAbsoluteError ≤ t ↔
    (0 : R) ≤ t ∧ ∀ c ∈ r.comparisons,
      Scalar.isUndefined c.absoluteError = true ∨ c.absoluteError ≤ t := by
  rw [maxAbsoluteError, OrderedScalar.maximum_le_iff, List.forall_mem_map]

/-- What bounds the largest relative error bounds all that are defined. -/
theorem maxRelativeError_le_iff {t : R} : r.maxRelativeError ≤ t ↔
    (0 : R) ≤ t ∧ ∀ c ∈ r.comparisons,
      Scalar.isUndefined c.relativeError = true ∨ c.relativeError ≤ t := by
  rw [maxRelativeError, OrderedScalar.maximum_le_iff]
  refine and_congr_right fun _ => ?_
  simp only [List.mem_filter, List.mem_map, Bool.not_eq_true', and_imp, forall_exists_index,
    forall_apply_eq_imp_iff₂]
  refine forall₂_congr fun c _ => ?_
  cases Scalar.isUndefined c.relativeError <;> simp

/-- **A threshold that is at least a summary error** bounds exactly the errors that are defined, of
every comparison of every scope. It bounds all absolute errors whenever none is undefined, and only
then; and all relative errors but those against a fresh block of zeros, whenever none of these is
undefined, and only then. -/
theorem summary_le_iff :
    (∀ t : R, r.maxAbsoluteError ≤ t ↔ (0 : R) ≤ t ∧ ∀ s ∈ r.scopes, ∀ c ∈ s.comparisons,
      Scalar.isUndefined c.absoluteError = true ∨ c.absoluteError ≤ t) ∧
    (∀ t : R, r.maxRelativeError ≤ t ↔ (0 : R) ≤ t ∧ ∀ s ∈ r.scopes, ∀ c ∈ s.comparisons,
      Scalar.isUndefined c.relativeError = true ∨ c.relativeError ≤ t) ∧
    ((∀ t : R, r.maxAbsoluteError ≤ t → ∀ s ∈ r.scopes, ∀ c ∈ s.comparisons,
        c.absoluteError ≤ t) ↔
      ∀ s ∈ r.scopes, ∀ c ∈ s.comparisons, Scalar.isUndefined c.absoluteError = false) ∧
    ((∀ t : R, r.maxRelativeError ≤ t → ∀ s ∈ r.scopes, ∀ c ∈ s.comparisons,
        (c.freshNorm == 0) = false → c.relativeError ≤ t) ↔
      ∀ s ∈ r.scopes, ∀ c ∈ s.comparisons, (c.freshNorm == 0) = false →
        Scalar.isUndefined c.relativeError = false) := by
  simp only [← forall_comparisons]
  refine ⟨fun t => r.maxAbsoluteError_le_iff, fun t => r.maxRelativeError_le_iff, ?_, ?_⟩
  · have hbounds := OrderedScalar.bounds_iff (m := r.maxAbsoluteError) (fun _ => True)
      (OrderedScalar.defined_maximum _) fun t => r.maxAbsoluteError_le_iff
    simpa only [forall_const] using hbounds
  · exact OrderedScalar.bounds_iff (fun c => (c.freshNorm == 0) = false)
      (OrderedScalar.defined_maximum _) fun t => r.maxRelativeError_le_iff

/-- A report on two scopes: a block that is off by a half, and one that is compared with zeros. -/
def offByHalf : Report Float where
  scopes :=
    [⟨"a", .finiteDifference, 1e-6, [⟨"y", "x", 2.5, 2.0, 0.5, 0.25, none⟩]⟩,
      ⟨"b", .complexStep, 1e-40, [⟨"z", "y", 0.0, 0.0, 0.0, Scalar.undefined, none⟩]⟩]
  tolerance := 1e-16

/-- What the summary errors say about a block that is off by a half. -/
theorem summary_offByHalf :
    (∀ t : Float, offByHalf.maxAbsoluteError ≤ t → ∀ s ∈ offByHalf.scopes, ∀ c ∈ s.comparisons,
      c.absoluteError ≤ t) ∧
    (∀ t : Float, offByHalf.maxRelativeError ≤ t → ∀ s ∈ offByHalf.scopes, ∀ c ∈ s.comparisons,
      (c.freshNorm == 0) = false → c.relativeError ≤ t) := by
  obtain ⟨-, -, habsolute, hrelative⟩ := summary_le_iff offByHalf
  exact ⟨habsolute.2 (by decide +kernel), hrelative.2 (by decide +kernel)⟩

section Undefined

/-- A derivative that was found to be one, where a fresh approximation is undefined. -/
def undefinedFresh : Comparison Float :=
  (Comparison.ofBlocks? "y" "x" (.tabulate 1 1 fun _ _ => 1.0)
    (.tabulate 1 1 fun _ _ => Scalar.undefined) none).get (by decide +kernel)

/-- The report of this comparison alone. -/
def undefinedReport : Report Float :=
  ⟨[⟨"c", .finiteDifference, 1e-6, [undefinedFresh]⟩], 1e-16⟩

/-- **A report of an undefined derivative passes at every threshold** from zero on, though the fresh
block is not zero. -/
theorem exists_passed_over : ∃ r : Report Float, r.maxAbsoluteError ≤ 0 ∧ r.maxRelativeError ≤ 0 ∧
    ∃ s ∈ r.scopes, ∃ c ∈ s.comparisons, (c.freshNorm == 0) = false ∧
      ∀ t : Float, ¬ c.absoluteError ≤ t ∧ ¬ c.relativeError ≤ t := by
  have hundefined : Scalar.isUndefined undefinedFresh.absoluteError = true ∧
      Scalar.isUndefined undefinedFresh.relativeError = true := by decide +kernel
  refine ⟨undefinedReport, by decide +kernel, by decide +kernel, _, List.mem_cons_self, _,
    List.mem_cons_self, by decide +kernel, fun t => ⟨fun h => ?_, fun h => ?_⟩⟩
  · exact absurd hundefined.1 (by simp [(OrderedScalar.defined_of_le h).1])
  · exact absurd hundefined.2 (by simp [(OrderedScalar.defined_of_le h).1])

end Undefined

end Report

end Sensitivity
