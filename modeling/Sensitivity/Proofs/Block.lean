import Sensitivity.Block
import Sensitivity.Proofs.DenseMatrix

/-!
# Blocks and their patterns

Which values a block takes is settled by its form: its shape, and for a sparse block its pattern and
the number of its values. Adding the terms of a sparse block to a matrix adds to every entry what is
listed there, in order, and leaves the shape (`Block.get?_of_addTerms`, `Block.shape_of_addTerms`).
-/

namespace Sensitivity

/-- A pattern fits when it pairs rows with columns, all of them inside the shape. -/
theorem Pattern.fits_iff {p : Pattern} {rows cols : Nat} : p.fits rows cols = true ↔
    p.rows.length = p.cols.length ∧ (∀ k ∈ p.rows, k < rows) ∧ ∀ l ∈ p.cols, l < cols := by
  simp [fits, and_assoc]

namespace Block

variable {R : Type}

/-- The shape of a block, with the pattern and the number of values of a sparse one. -/
def form : Block R → Nat × Nat × Option (Pattern × Nat)
  | dense m => (m.rows, m.cols, none)
  | sparse p values rows cols => (rows, cols, some (p, values.length))

/-- The shape and the pattern of a block, and what holds of each value that it has: of the entries at
all coordinates of a dense block, and of those that the pattern lists of a sparse one. -/
def Holds (pattern : Option Pattern) (rows cols : Nat) (P : Nat → Nat → R → Prop) : Block R → Prop
  | dense m => pattern = none ∧ m.rows = rows ∧ m.cols = cols ∧
      ∀ k < rows, ∀ l < cols, ∃ v, m.get? k l = some v ∧ P k l v
  | sparse p values n m => pattern = some p ∧ n = rows ∧ m = cols ∧ values.length = p.count ∧
      ∀ x k l : Nat, p.rows[x]? = some k → p.cols[x]? = some l →
        k < rows ∧ l < cols ∧ ∃ v, values[x]? = some v ∧ P k l v

/-- What holds of the values of a block may be weakened, within the shape. -/
theorem Holds.imp {pattern : Option Pattern} {rows cols : Nat} {P Q : Nat → Nat → R → Prop}
    {b : Block R} (h : b.Holds pattern rows cols P)
    (hPQ : ∀ k < rows, ∀ l < cols, ∀ v, P k l v → Q k l v) : b.Holds pattern rows cols Q := by
  cases b with
  | dense m =>
    obtain ⟨hpattern, hrows, hcols, hall⟩ := h
    refine ⟨hpattern, hrows, hcols, fun k hk l hl => ?_⟩
    obtain ⟨v, hv, hP⟩ := hall k hk l hl
    exact ⟨v, hv, hPQ k hk l hl v hP⟩
  | sparse p values n m =>
    obtain ⟨hpattern, hrows, hcols, hlength, hall⟩ := h
    refine ⟨hpattern, hrows, hcols, hlength, fun x k l hrow hcol => ?_⟩
    obtain ⟨hk, hl, v, hv, hP⟩ := hall x k l hrow hcol
    exact ⟨hk, hl, v, hv, hPQ k hk l hl v hP⟩

theorem form_eq_dense_iff {b : Block R} {rows cols : Nat} :
    b.form = (rows, cols, none) ↔ ∃ m, b = .dense m ∧ m.rows = rows ∧ m.cols = cols := by
  cases b <;> simp [form]

theorem form_eq_sparse_iff {b : Block R} {rows cols count : Nat} {p : Pattern} :
    b.form = (rows, cols, some (p, count)) ↔
      ∃ values, b = .sparse p values rows cols ∧ values.length = count := by
  cases b <;> simp [form, and_assoc, and_comm, and_left_comm]

theorem rows_zeros [Scalar R] (rows cols : Nat) (pattern : Option Pattern) :
    (zeros rows cols pattern : Block R).rows = rows := by
  cases pattern <;> rfl

theorem cols_zeros [Scalar R] (rows cols : Nat) (pattern : Option Pattern) :
    (zeros rows cols pattern : Block R).cols = cols := by
  cases pattern <;> rfl

theorem form_zeros [Scalar R] (rows cols : Nat) (pattern : Option Pattern) :
    (zeros rows cols pattern : Block R).form = (rows, cols, pattern.map fun p => (p, p.count)) := by
  cases pattern with
  | none => rfl
  | some p => simp [zeros, form]

/-- The shape is part of the form. -/
theorem shape_eq_of_form {b b' : Block R} (h : b.form = b'.form) :
    b.rows = b'.rows ∧ b.cols = b'.cols := by
  have hrows (c : Block R) : c.form.1 = c.rows := by cases c <;> rfl
  have hcols (c : Block R) : c.form.2.1 = c.cols := by cases c <;> rfl
  exact ⟨by rw [← hrows, ← hrows, h], by rw [← hcols, ← hcols, h]⟩

/-- Blocks of one form take the same values. -/
theorem setValues_congr {b b' : Block R} (h : b.form = b'.form) (flat : Array R) :
    b.setValues flat = b'.setValues flat := by
  cases b' with
  | dense n =>
    obtain ⟨m, rfl, hrows, hcols⟩ := form_eq_dense_iff.1 h
    simp only [setValues, hrows, hcols]
  | sparse p others rows cols =>
    obtain ⟨values, rfl, hlength⟩ := form_eq_sparse_iff.1 h
    simp only [setValues, hlength]

/-- New values leave the form of a block as it is. -/
theorem form_of_setValues {b b' : Block R} {flat : Array R} (h : b.setValues flat = .ok b') :
    b'.form = b.form := by
  cases b with
  | dense m =>
    simp only [setValues] at h
    split at h
    · rename_i m' hm
      cases h
      unfold DenseMatrix.ofRows? at hm
      split at hm
      · cases hm
        rfl
      · cases hm
    · cases h
  | sparse p values rows cols =>
    simp only [setValues] at h
    split at h
    · rename_i hsize
      cases h
      simp only [form, Array.length_toList, hsize]
    · cases h

/-- What a sparse block lists lies where its pattern says. -/
theorem lt_of_mem_terms {p : Pattern} {values : List R} {rows cols : Nat}
    (hp : ∀ rc ∈ p.coordinates, rc.1 < rows ∧ rc.2 < cols) {t : (Nat × Nat) × R}
    (ht : t ∈ terms p values) : t.1.1 < rows ∧ t.1.2 < cols := hp t.1 (List.of_mem_zip ht).1

theorem terms_map (p : Pattern) (values : List R) (f : R → R) :
    terms p (values.map f) = (terms p values).map fun t => (t.1, f t.2) := by
  rw [terms, List.zip_map_right]
  rfl

section Terms

variable [Scalar R] {f : R → R} {row col : Nat} {terms : List ((Nat × Nat) × R)} {m d : DenseMatrix R}

/-- Terms that lie in a matrix can be added to it. -/
theorem exists_addTerms
    (h : ∀ t ∈ terms, row + t.1.1 < m.rows ∧ col + t.1.2 < m.cols) :
    ∃ d, addTerms? f row col terms m = some d := by
  induction terms generalizing m with
  | nil => exact ⟨m, rfl⟩
  | cons t rest ih =>
    obtain ⟨⟨r, c⟩, v⟩ := t
    obtain ⟨old, hold⟩ :=
      Option.isSome_iff_exists.1 ((m.isSome_get? _ _).2 (h _ List.mem_cons_self))
    rw [addTerms?, hold]
    refine ih fun t ht => ?_
    rw [DenseMatrix.rows_set, DenseMatrix.cols_set]
    exact h t (List.mem_cons_of_mem _ ht)

/-- Adding terms leaves the shape of a matrix. -/
theorem shape_of_addTerms (h : addTerms? f row col terms m = some d) :
    d.rows = m.rows ∧ d.cols = m.cols := by
  induction terms generalizing m with
  | nil =>
    cases h
    exact ⟨rfl, rfl⟩
  | cons t rest ih =>
    obtain ⟨⟨r, c⟩, v⟩ := t
    unfold addTerms? at h
    split at h
    · obtain ⟨hrows, hcols⟩ := ih h
      exact ⟨hrows.trans (DenseMatrix.rows_set ..), hcols.trans (DenseMatrix.cols_set ..)⟩
    · cases h

/-- **Adding terms** adds to every entry what is listed there, in order. -/
theorem get?_of_addTerms (h : addTerms? f row col terms m = some d) (r c : Nat) :
    d.get? r c = (m.get? r c).map fun x =>
      ((terms.filter fun t => (row + t.1.1, col + t.1.2) = (r, c)).map fun t => f t.2).foldl
        (· + ·) x := by
  induction terms generalizing m with
  | nil =>
    cases h
    simp
  | cons t rest ih =>
    obtain ⟨⟨r', c'⟩, v⟩ := t
    unfold addTerms? at h
    split at h
    · rename_i old hold
      obtain ⟨hr, hc⟩ := (m.isSome_get? _ _).1 (by rw [hold]; rfl)
      rw [ih h, DenseMatrix.get?_set m hr hc]
      by_cases hplace : (row + r', col + c') = (r, c)
      · obtain ⟨rfl, rfl⟩ := Prod.mk.inj hplace
        rw [if_pos ⟨rfl, rfl⟩, List.filter_cons_of_pos (by simp), hold]
        rfl
      · rw [if_neg fun heq => hplace (by rw [heq.1, heq.2]),
          List.filter_cons_of_neg (by simpa using hplace)]
    · cases h

/-- The matrix that a block means has its shape. -/
theorem shape_of_toDense {b : Block R} {d : DenseMatrix R} (h : b.toDense? = some d) :
    d.rows = b.rows ∧ d.cols = b.cols := by
  cases b with
  | dense m =>
    cases h
    exact ⟨rfl, rfl⟩
  | sparse p values rows cols => exact shape_of_addTerms (m := .zeros rows cols) h

end Terms

end Block

end Sensitivity
