import Mathlib.Data.Nat.Basic
import Sensitivity.DenseMatrix

/-!
# Reading matrices

A matrix is what is read at the coordinates of its shape (`DenseMatrix.ext_of_get?`). A tabulated
matrix reads as the function that made it, and a written entry is read back at its coordinate and
nowhere else.
-/

namespace Sensitivity

namespace DenseMatrix

variable {R : Type}

/-- Coordinates of a shape have places of their own. -/
theorem place_inj {cols r c r' c' : Nat} (hc : c < cols) (hc' : c' < cols) :
    r * cols + c = r' * cols + c' ↔ r = r' ∧ c = c' := by
  constructor
  · intro h
    have hdiv := congrArg (· / cols) h
    have hmod := congrArg (· % cols) h
    have hpos : 0 < cols := by omega
    simp only [Nat.mul_comm _ cols, Nat.mul_add_div hpos, Nat.mul_add_mod, Nat.div_eq_of_lt hc,
      Nat.div_eq_of_lt hc', Nat.mod_eq_of_lt hc, Nat.mod_eq_of_lt hc', Nat.add_zero] at hdiv hmod
    exact ⟨hdiv, hmod⟩
  · rintro ⟨rfl, rfl⟩
    rfl

/-- The place of a coordinate of a shape. -/
theorem place_lt {rows cols r c : Nat} (hr : r < rows) (hc : c < cols) :
    r * cols + c < rows * cols :=
  calc r * cols + c < r * cols + cols := Nat.add_lt_add_left hc _
    _ = (r + 1) * cols := by rw [Nat.add_mul, Nat.one_mul]
    _ ≤ rows * cols := Nat.mul_le_mul_right _ hr

/-- A coordinate has an entry when it lies in the shape. -/
theorem isSome_get? (m : DenseMatrix R) (r c : Nat) :
    (m.get? r c).isSome = true ↔ r < m.rows ∧ c < m.cols := by
  unfold get?
  split
  · rename_i h
    simpa [m.size_eq, h] using place_lt h.1 h.2
  · simpa only [Option.isSome_none, Bool.false_eq_true, false_iff] using ‹_›

theorem get?_tabulate (rows cols : Nat) (f : Nat → Nat → R) (r c : Nat) :
    (tabulate rows cols f).get? r c = if r < rows ∧ c < cols then some (f r c) else none := by
  unfold get? tabulate
  dsimp only
  split
  · rename_i h
    have hpos : 0 < cols := by omega
    simp only [Array.getElem?_ofFn, place_lt h.1 h.2, dif_pos]
    rw [Nat.mul_comm r, Nat.mul_add_div hpos, Nat.mul_add_mod, Nat.div_eq_of_lt h.2,
      Nat.mod_eq_of_lt h.2, Nat.add_zero]
  · rfl

/-- Matrices of one shape with the same entries are equal. -/
theorem ext_of_get? {m n : DenseMatrix R} (hrows : m.rows = n.rows) (hcols : m.cols = n.cols)
    (h : ∀ r < m.rows, ∀ c < m.cols, m.get? r c = n.get? r c) : m = n := by
  obtain ⟨rows, cols, entries, hsize⟩ := m
  obtain ⟨_, _, entries', hsize'⟩ := n
  obtain rfl : rows = _ := hrows
  obtain rfl : cols = _ := hcols
  have hentries : entries = entries' := by
    refine Array.ext_getElem? fun i => ?_
    by_cases hi : i < rows * cols
    · have hpos : 0 < cols := Nat.pos_of_ne_zero fun h => by simp [h] at hi
      have hr : i / cols < rows := Nat.div_lt_of_lt_mul (by rwa [Nat.mul_comm])
      have hc : i % cols < cols := Nat.mod_lt _ hpos
      have := h (i / cols) hr (i % cols) hc
      simpa [get?, hr, hc, Nat.div_add_mod'] using this
    · rw [Array.getElem?_eq_none (by omega), Array.getElem?_eq_none (by omega)]
  subst hentries
  rfl

/-- Only the entries inside the shape matter. -/
theorem tabulate_congr {rows cols : Nat} {f g : Nat → Nat → R}
    (h : ∀ r < rows, ∀ c < cols, f r c = g r c) : tabulate rows cols f = tabulate rows cols g :=
  ext_of_get? rfl rfl fun r hr c hc => by
    rw [get?_tabulate, get?_tabulate, h r hr c hc]

/-- A written entry is read back at its coordinate and nowhere else. -/
theorem get?_set (m : DenseMatrix R) {r c : Nat} (hr : r < m.rows) (hc : c < m.cols) (v : R)
    (r' c' : Nat) :
    (m.set r c v).get? r' c' = if r' = r ∧ c' = c then some v else m.get? r' c' := by
  have hplace := place_lt hr hc
  simp only [set, hr, hc, and_self, if_true, get?, Array.getElem?_setIfInBounds, m.size_eq, hplace]
  by_cases h : r' < m.rows ∧ c' < m.cols
  · rw [if_pos h, if_pos h]
    simp only [place_inj hc h.2, eq_comm]
  · rw [if_neg h, if_neg h, if_neg]
    rintro ⟨rfl, rfl⟩
    exact h ⟨hr, hc⟩

theorem rows_set (m : DenseMatrix R) (r c : Nat) (v : R) : (m.set r c v).rows = m.rows := by
  unfold set
  split <;> rfl

theorem cols_set (m : DenseMatrix R) (r c : Nat) (v : R) : (m.set r c v).cols = m.cols := by
  unfold set
  split <;> rfl

theorem get?_map [Scalar R] (f : R → R) (m : DenseMatrix R) (r c : Nat) :
    (m.map f).get? r c = (m.get? r c).map f := by
  simp only [get?, map, Array.getElem?_map]
  split <;> rfl

section Entry

variable [Scalar R]

/-- An entry that is there. -/
theorem entry_eq {m : DenseMatrix R} {r c : Nat} {v : R} (h : m.get? r c = some v) :
    m.entry r c = v := by
  rw [entry, h]
  rfl

theorem entry_tabulate {rows cols : Nat} (f : Nat → Nat → R) {r c : Nat} (hr : r < rows)
    (hc : c < cols) : (tabulate rows cols f).entry r c = f r c := by
  rw [entry, get?_tabulate, if_pos ⟨hr, hc⟩, Option.getD_some]

/-- Entries inside the window are combined with those of the smaller matrix. -/
theorem get?_combineAt (f : R → R → R) (m : DenseMatrix R) (row col : Nat) (n : DenseMatrix R)
    (r c : Nat) :
    (m.combineAt f row col n).get? r c = (m.get? r c).map fun x =>
      if row ≤ r ∧ r < row + n.rows ∧ col ≤ c ∧ c < col + n.cols then
        f x (n.entry (r - row) (c - col))
      else x := by
  rw [combineAt, get?_tabulate]
  cases hx : m.get? r c with
  | some x => rw [if_pos ((isSome_get? m r c).1 (by rw [hx]; rfl)), entry_eq hx, Option.map_some]
  | none =>
    have hnot : ¬ (r < m.rows ∧ c < m.cols) := by simp [← isSome_get?, hx]
    rw [if_neg hnot, Option.map_none]

/-- Inside its window a matrix is combined with the larger one, which stays the same elsewhere. -/
theorem entry_combineAt (f : R → R → R) {m : DenseMatrix R} (row col : Nat) (n : DenseMatrix R)
    {r c : Nat} (hr : r < m.rows) (hc : c < m.cols) :
    (m.combineAt f row col n).entry r c =
      if row ≤ r ∧ r < row + n.rows ∧ col ≤ c ∧ c < col + n.cols then
        f (m.entry r c) (n.entry (r - row) (c - col))
      else m.entry r c := entry_tabulate _ hr hc

end Entry

end DenseMatrix

end Sensitivity
