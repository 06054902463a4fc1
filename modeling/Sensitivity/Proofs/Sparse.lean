import Mathlib
import Sensitivity.Proofs.Approximation.Slopes
import Sensitivity.Proofs.Block

/-!
# Sparse blocks as matrices

In exact arithmetic the order of additions does not matter, so a list of terms has one total at each
coordinate (`Block.total`), whichever way it is read. What a sparse block is read to, the matrix that
it means, its scaled form and what it adds to a larger matrix are all these totals. So a sparse block
whose coordinates lie in its shape, repeated or not and in any order, acts as the dense block of the
matrix that it means (`Block.acts_of_sparse`).
-/

namespace Sensitivity

variable {R : Type} [ExactScalar R]

/-- A running sum is the sum added to its start. -/
theorem foldl_add_eq_add_sum (xs : List R) (x : R) : xs.foldl (· + ·) x = x + xs.sum := by
  induction xs generalizing x with
  | nil => exact (add_zero x).symm
  | cons y rest ih => rw [List.foldl_cons, ih, List.sum_cons, add_assoc]

namespace Block

/-- The sum of the terms at a coordinate. -/
def total (ts : List ((Nat × Nat) × R)) (r c : Nat) : R :=
  ((ts.filter fun t => t.1 = (r, c)).map Prod.snd).sum

section Totals

variable {ts : List ((Nat × Nat) × R)} {a : R} {row col rows cols : Nat} {m d : DenseMatrix R}

/-- Terms that are all multiplied have multiplied totals. -/
theorem total_map_mul (ts : List ((Nat × Nat) × R)) (a : R) (r c : Nat) :
    total (ts.map fun t => (t.1, t.2 * a)) r c = total ts r c * a := by
  rw [total, total, ← List.sum_map_mul_right, List.filter_map, List.map_map]
  rfl

/-- Terms added in their place add their totals. -/
theorem get?_of_addTerms_id (h : addTerms? id 0 0 ts m = some d) (r c : Nat) :
    d.get? r c = (m.get? r c).map (· + total ts r c) := by
  rw [get?_of_addTerms h]
  simp only [foldl_add_eq_add_sum, Nat.zero_add, id, total]

/-- **Terms added to a window** add multiples of their totals inside it. -/
theorem get?_of_addTerms_mul (h : addTerms? (fun v => a * v) row col ts m = some d)
    (hshape : ∀ t ∈ ts, t.1.1 < rows ∧ t.1.2 < cols) (r c : Nat) :
    d.get? r c = (m.get? r c).map fun x =>
      if row ≤ r ∧ r < row + rows ∧ col ≤ c ∧ c < col + cols then
        x + total ts (r - row) (c - col) * a
      else x := by
  rw [get?_of_addTerms h]
  refine Option.map_congr fun x _ => ?_
  rw [foldl_add_eq_add_sum, List.sum_map_mul_left, mul_comm]
  split
  · rename_i hinside
    have hplace (t : (Nat × Nat) × R) : (row + t.1.1, col + t.1.2) = (r, c) ↔
        t.1 = (r - row, c - col) := by
      rw [Prod.ext_iff, Prod.ext_iff]
      dsimp only
      omega
    simp only [hplace, total]
  · rename_i houtside
    have hnone : ts.filter (fun t => (row + t.1.1, col + t.1.2) = (r, c)) = [] := by
      refine List.filter_eq_nil_iff.2 fun t ht hat => houtside ?_
      obtain ⟨hr, hc⟩ := Prod.mk.inj (of_decide_eq_true hat)
      have := hshape t ht
      omega
    rw [hnone, List.map_nil, List.sum_nil, zero_mul, add_zero]

end Totals

/-- A block that acts as the dense block of a matrix: it is read as the matrix inside its shape, it is
scaled as the matrix is, and it is added as the matrix is to the window of a larger one, of which all
other entries stay. -/
structure ActsAs (b : Block R) (d : DenseMatrix R) : Prop where
  reads : ∀ r < d.rows, ∀ c < d.cols, b.get? r c = d.get? r c
  scales : ∀ refOf refWrt,
    (b.scaled refOf refWrt).toDense? = ((dense d).scaled refOf refWrt).toDense?
  adds : ∀ (target : DenseMatrix R) row col factor,
    target.holdsWindow row col d.rows d.cols = true → ∃ m,
      b.addInto? target row col factor = some m ∧
      (dense d).addInto? target row col factor = some m ∧
      m.rows = target.rows ∧ m.cols = target.cols ∧
      ∀ r c, ¬ (row ≤ r ∧ r < row + d.rows ∧ col ≤ c ∧ c < col + d.cols) →
        m.get? r c = target.get? r c

section Sparse

variable {p : Pattern} {values : List R} {rows cols : Nat} {d : DenseMatrix R}

/-- A sparse block is read to the totals of its terms. -/
theorem get?_sparse (p : Pattern) (values : List R) (rows cols r c : Nat) :
    (sparse p values rows cols).get? r c = some (total (terms p values) r c) := by
  simp only [get?, Scalar.sum, foldl_add_eq_add_sum, neg_zero, zero_add, total, Bool.beq_eq_decide_eq]

/-- A sparse block means the matrix of the totals of its terms. -/
theorem toDense_sparse (hp : ∀ rc ∈ p.coordinates, rc.1 < rows ∧ rc.2 < cols)
    (values : List R) : (sparse p values rows cols).toDense? =
      some (.tabulate rows cols (total (terms p values))) := by
  obtain ⟨d, hd⟩ : ∃ d, addTerms? id 0 0 (terms p values) (.zeros rows cols) = some d :=
    exists_addTerms fun t ht => by
      rw [Nat.zero_add, Nat.zero_add]
      exact lt_of_mem_terms hp ht
  obtain ⟨hrows, hcols⟩ := shape_of_addTerms hd
  refine hd.trans (congrArg some (DenseMatrix.ext_of_get? hrows hcols fun r hr c hc => ?_))
  have hinside : r < rows ∧ c < cols := ⟨hr.trans_eq hrows, hc.trans_eq hcols⟩
  rw [get?_of_addTerms_id hd, DenseMatrix.zeros, DenseMatrix.get?_tabulate,
    DenseMatrix.get?_tabulate, if_pos hinside, if_pos hinside, Option.map_some, zero_add]

/-- A sparse block is added to a window as the matrix of its totals is. -/
theorem exists_addInto (hp : ∀ rc ∈ p.coordinates, rc.1 < d.rows ∧ rc.2 < d.cols)
    (hd : ∀ r < d.rows, ∀ c < d.cols, d.entry r c = total (terms p values) r c)
    {target : DenseMatrix R} {row col : Nat} (factor : R)
    (hwindow : target.holdsWindow row col d.rows d.cols = true) : ∃ m,
      (sparse p values d.rows d.cols).addInto? target row col factor = some m ∧
      (dense d).addInto? target row col factor = some m ∧
      m.rows = target.rows ∧ m.cols = target.cols ∧
      ∀ r c, ¬ (row ≤ r ∧ r < row + d.rows ∧ col ≤ c ∧ c < col + d.cols) →
        m.get? r c = target.get? r c := by
  obtain ⟨hrows, hcols⟩ : row + d.rows ≤ target.rows ∧ col + d.cols ≤ target.cols := by
    simpa [DenseMatrix.holdsWindow] using hwindow
  obtain ⟨m, hm⟩ : ∃ m, addTerms? (fun v => factor * v) row col (terms p values) target = some m :=
    exists_addTerms fun t ht => by
      have := lt_of_mem_terms hp ht
      omega
  have hget := get?_of_addTerms_mul hm fun t ht => lt_of_mem_terms hp ht
  obtain ⟨hmrows, hmcols⟩ := shape_of_addTerms hm
  refine ⟨m, hm, ?_, hmrows, hmcols, fun r c houtside => ?_⟩
  · rw [addInto?, if_pos hwindow]
    refine congrArg some (DenseMatrix.ext_of_get? hmrows.symm hmcols.symm fun r _ c _ => ?_)
    rw [hget, DenseMatrix.get?_combineAt]
    refine Option.map_congr fun x _ => ?_
    split
    · rename_i hinside
      rw [hd _ (by omega) _ (by omega)]
    · rfl
  · rw [hget]
    simp only [if_neg houtside, Option.map_id']

/-- **A sparse block acts as the matrix that it means**, when its coordinates lie in its shape. -/
theorem acts_of_sparse (hp : ∀ rc ∈ p.coordinates, rc.1 < rows ∧ rc.2 < cols) (values : List R) :
    ∃ d, (sparse p values rows cols).toDense? = some d ∧ d.rows = rows ∧ d.cols = cols ∧
      (sparse p values rows cols).ActsAs d := by
  refine ⟨_, toDense_sparse hp values, rfl, rfl, ?_, ?_, ?_⟩
  · rintro r hr c hc
    rw [get?_sparse, DenseMatrix.get?_tabulate, if_pos ⟨hr, hc⟩]
  · rintro refOf refWrt
    show (sparse p (values.map fun v => v * (refWrt / refOf)) rows cols).toDense? = _
    rw [toDense_sparse hp, terms_map]
    refine congrArg some (DenseMatrix.ext_of_get? rfl rfl fun r hr c hc => ?_)
    have hinside : r < rows ∧ c < cols := ⟨hr, hc⟩
    rw [DenseMatrix.get?_map, DenseMatrix.get?_tabulate, DenseMatrix.get?_tabulate,
      if_pos hinside, if_pos hinside, Option.map_some, total_map_mul]
  · rintro target row col factor hwindow
    exact exists_addInto hp (fun r hr c hc => DenseMatrix.entry_tabulate _ hr hc) factor hwindow

/-- A coordinate listed twice adds up, whichever way the block is used. -/
theorem acts_of_doubled : ∃ d,
    (sparse ⟨[1, 0, 1], [0, 1, 0]⟩ [2, 3, 5] 2 3 : Block Rat).toDense? = some d ∧ d.rows = 2 ∧
      d.cols = 3 ∧ (sparse ⟨[1, 0, 1], [0, 1, 0]⟩ [2, 3, 5] 2 3 : Block Rat).ActsAs d :=
  acts_of_sparse (by decide) [2, 3, 5]

end Sparse

end Block

end Sensitivity
