import Sensitivity.Proofs.Scalar

/-!
# The order of scalars

What bounds and floors rely on: the order is transitive, total among numbers that are defined, and
never holds of one that is not; the larger of two numbers passes over an undefined one
(`OrderedScalar`). From these, a number is at least another's floor (`OrderedScalar.le_max_right`),
and what bounds the larger of two numbers bounds each of them that is defined
(`OrderedScalar.max_le_iff`).

Doubles obey the laws (`Double.ordered`): their order is the lexicographic one of a class (minus
infinity, negative, zero, positive, infinity), a signed exponent and a signed mantissa
(`Double.Rank`).
-/

namespace Sensitivity

/-- Scalars with the laws of order. An undefined number is not at most, nor at least, any other. -/
class OrderedScalar (R : Type) [Scalar R] : Prop extends StrictScalar R where
  defined_of_le : ∀ {x y : R}, x ≤ y → Scalar.isUndefined x = false ∧ Scalar.isUndefined y = false
  le_trans : ∀ {x y z : R}, x ≤ y → y ≤ z → x ≤ z
  le_total : ∀ {x y : R}, Scalar.isUndefined x = false → Scalar.isUndefined y = false →
    x ≤ y ∨ y ≤ x
  lt_iff : ∀ {x y : R}, x < y ↔ x ≤ y ∧ ¬ y ≤ x
  max_eq : ∀ x y : R, Scalar.max x y = if x < y ∨ Scalar.isUndefined x = true then y else x
  finite_zero : Scalar.isFinite (0 : R) = true

namespace OrderedScalar

variable {R : Type} [Scalar R] [OrderedScalar R] {x y t : R}

theorem defined_of_isFinite (h : Scalar.isFinite x = true) : Scalar.isUndefined x = false := by
  rw [Scalar.isUndefined, LawfulScalar.beq_self h, Bool.not_true]

theorem defined_zero : Scalar.isUndefined (0 : R) = false := defined_of_isFinite finite_zero

theorem le_refl (h : Scalar.isUndefined x = false) : x ≤ x := (le_total h h).elim id id

/-- A number that is not less than another one is at least that one, if both are defined. -/
theorem le_of_not_lt (hx : Scalar.isUndefined x = false) (hy : Scalar.isUndefined y = false)
    (h : ¬ x < y) : y ≤ x := by
  rcases le_total hx hy with hle | hle
  · by_contra hnot
    exact h (lt_iff.2 ⟨hle, hnot⟩)
  · exact hle

/-- The larger of two numbers is at least the second one. -/
theorem le_max_right (hy : Scalar.isUndefined y = false) (x : R) : y ≤ Scalar.max x y := by
  rw [max_eq]
  split
  · exact le_refl hy
  · rename_i h
    rw [not_or, Bool.not_eq_true] at h
    exact le_of_not_lt h.2 hy h.1

theorem defined_max (hx : Scalar.isUndefined x = false) :
    Scalar.isUndefined (Scalar.max x y) = false := by
  rw [max_eq]
  split
  · rename_i h
    rw [hx, or_iff_left Bool.false_ne_true] at h
    exact (defined_of_le (lt_iff.1 h).1).2
  · exact hx

/-- **What bounds the larger of two numbers bounds the first one, and the second if it is defined.** -/
theorem max_le_iff (hx : Scalar.isUndefined x = false) :
    Scalar.max x y ≤ t ↔ x ≤ t ∧ (Scalar.isUndefined y = true ∨ y ≤ t) := by
  simp only [max_eq, hx, Bool.false_eq_true, or_false]
  split
  · rename_i hlt
    obtain ⟨hle, -⟩ := lt_iff.1 hlt
    have hy := (defined_of_le hle).2
    rw [hy, or_iff_right Bool.false_ne_true]
    exact ⟨fun h => ⟨le_trans hle h, h⟩, And.right⟩
  · rename_i hlt
    refine ⟨fun h => ⟨h, ?_⟩, And.left⟩
    cases hy : Scalar.isUndefined y with
    | true => exact .inl rfl
    | false => exact .inr (le_trans (le_of_not_lt hx hy hlt) h)

/-- **What bounds the largest of a list** is at least zero, and bounds all that are defined. -/
theorem maximum_le_iff {xs : List R} :
    Scalar.maximum xs ≤ t ↔ (0 : R) ≤ t ∧ ∀ x ∈ xs, Scalar.isUndefined x = true ∨ x ≤ t := by
  have hfold (m : R) (hm : Scalar.isUndefined m = false) : xs.foldl Scalar.max m ≤ t ↔
      m ≤ t ∧ ∀ x ∈ xs, Scalar.isUndefined x = true ∨ x ≤ t := by
    induction xs generalizing m with
    | nil => simp
    | cons x rest ih =>
      rw [List.foldl_cons, ih _ (defined_max hm), max_le_iff hm, List.forall_mem_cons, and_assoc]
  exact hfold 0 defined_zero

end OrderedScalar

namespace Double

open Float.Model

/-- A double among the others: its class, then its signed exponent, then its signed mantissa. -/
abbrev Rank := Lex (Int × Lex (Int × Int))

/-- The rank of a double in which the order is read; an undefined one has none. -/
def rank? : UnpackedFloat → Option Rank
  | .infinity .negative => some (toLex (-2, toLex (0, 0)))
  | .infinity .positive => some (toLex (2, toLex (0, 0)))
  | .notANumber => none
  | .zero _ => some (toLex (0, toLex (0, 0)))
  | .finite .negative m e _ => some (toLex (-1, toLex (-e, -m)))
  | .finite .positive m e _ => some (toLex (1, toLex (e, m)))

theorem compare_neg (a b : Int) : compare (-a) (-b) = (compare a b).swap := by
  rcases lt_trichotomy a b with h | rfl | h
  · rw [compare_lt_iff_lt.2 h, compare_gt_iff_gt.2 (neg_lt_neg h)]
    rfl
  · rw [compare_eq_iff_eq.2 rfl, compare_eq_iff_eq.2 rfl]
    rfl
  · rw [compare_gt_iff_gt.2 h, compare_lt_iff_lt.2 (neg_lt_neg h)]
    rfl

theorem compare_cast (m n : Nat) : compare (m : Int) (n : Int) = compare m n := by
  rcases lt_trichotomy m n with h | rfl | h
  · rw [compare_lt_iff_lt.2 h, compare_lt_iff_lt.2 (Int.ofNat_lt.2 h)]
  · rw [compare_eq_iff_eq.2 rfl, compare_eq_iff_eq.2 rfl]
  · rw [compare_gt_iff_gt.2 h, compare_gt_iff_gt.2 (Int.ofNat_lt.2 h)]

/-- **Doubles are compared by their ranks.** -/
theorem compare_eq (a b : UnpackedFloat) :
    a.compare b = (rank? a).bind fun x => (rank? b).map fun y => compare x y := by
  rcases a with (_ | _) | _ | _ | ⟨_ | _, m, e, hm⟩ <;>
    rcases b with (_ | _) | _ | _ | ⟨_ | _, m', e', hm'⟩
  -- numbers of one class are told apart by exponents and mantissas
  case finite.negative.finite.negative =>
    simp [UnpackedFloat.compare, rank?, Prod.Lex.compare_def, compareLex, compareOn, compare_neg,
      compare_cast, Ordering.swap_then]
  case finite.positive.finite.positive =>
    simp [UnpackedFloat.compare, rank?, Prod.Lex.compare_def, compareLex, compareOn, compare_cast]
  all_goals rfl

/-- The rank of a double. -/
def rankOf? (x : Float) : Option Rank := rank? x.toModel.unpack

theorem le_iff {x y : Float} : x ≤ y ↔ ∃ a b, rankOf? x = some a ∧ rankOf? y = some b ∧ a ≤ b := by
  have hmodel : x ≤ y ↔ (x.toModel.unpack.compare y.toModel.unpack).any (·.isLE) = true :=
    decide_eq_true_iff
  rw [hmodel, compare_eq, ← rankOf?, ← rankOf?]
  have hcompare (a b : Rank) : (compare a b).isLE = true ↔ a ≤ b := by
    rw [← compare_le_iff_le, ← Ordering.ne_gt_iff_isLE]
  cases rankOf? x <;> cases rankOf? y <;> simp [hcompare]

theorem lt_iff {x y : Float} : x < y ↔ ∃ a b, rankOf? x = some a ∧ rankOf? y = some b ∧ a < b := by
  have hmodel : x < y ↔ (x.toModel.unpack.compare y.toModel.unpack == some .lt) = true :=
    decide_eq_true_iff
  rw [hmodel, compare_eq, ← rankOf?, ← rankOf?]
  have hcompare (a b : Rank) : compare a b = .lt ↔ a < b := compare_lt_iff_lt
  cases rankOf? x <;> cases rankOf? y <;> simp [hcompare]

theorem isUndefined_iff {x : Float} : Scalar.isUndefined x = true ↔ rankOf? x = none := by
  change (!(x.toModel.unpack.compare x.toModel.unpack == some .eq)) = true ↔ _
  rw [compare_eq, ← rankOf?]
  cases rankOf? x <;> simp

theorem isNaN_eq_isUndefined (x : Float) : x.isNaN = Scalar.isUndefined x := by
  rw [Bool.eq_iff_iff, isUndefined_iff]
  change x.toModel.unpack.isNaN = true ↔ rank? x.toModel.unpack = none
  rcases x.toModel.unpack with (_ | _) | _ | _ | ⟨_ | _, _, _, _⟩ <;>
    simp [UnpackedFloat.isNaN, rank?]

/-- **Doubles obey the laws of order.** -/
instance ordered : OrderedScalar Float where
  defined_of_le {x y} h := by
    obtain ⟨a, b, ha, hb, -⟩ := le_iff.1 h
    simp [← Bool.not_eq_true, isUndefined_iff, ha, hb]
  le_trans {x y z} h k := by
    obtain ⟨a, b, ha, hb, hab⟩ := le_iff.1 h
    obtain ⟨b', c, hb', hc, hbc⟩ := le_iff.1 k
    rw [hb] at hb'
    cases hb'
    exact le_iff.2 ⟨a, c, ha, hc, hab.trans hbc⟩
  le_total {x y} hx hy := by
    rw [← Bool.not_eq_true, isUndefined_iff, ← ne_eq, Option.ne_none_iff_exists'] at hx hy
    obtain ⟨a, ha⟩ := hx
    obtain ⟨b, hb⟩ := hy
    exact (LinearOrder.le_total a b).imp (fun h => le_iff.2 ⟨a, b, ha, hb, h⟩)
      fun h => le_iff.2 ⟨b, a, hb, ha, h⟩
  lt_iff {x y} := by
    rw [lt_iff, le_iff, le_iff]
    constructor
    · rintro ⟨a, b, ha, hb, hab⟩
      refine ⟨⟨a, b, ha, hb, hab.le⟩, ?_⟩
      rintro ⟨b', a', hb', ha', hba⟩
      rw [hb] at hb'
      rw [ha] at ha'
      cases hb'
      cases ha'
      exact hab.not_ge hba
    · rintro ⟨⟨a, b, ha, hb, -⟩, hnot⟩
      exact ⟨a, b, ha, hb, not_le.1 fun hba => hnot ⟨b, a, hb, ha, hba⟩⟩
  max_eq x y := by
    rw [← isNaN_eq_isUndefined]
    change (if (x < y || x.isNaN) = true then y else x) = _
    simp only [Bool.or_eq_true, decide_eq_true_eq]
  finite_zero := by decide

end Double

end Sensitivity
