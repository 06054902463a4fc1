import Sensitivity.Proofs.Approximation.Form
import Sensitivity.Proofs.Approximation.Grouping
import Sensitivity.Proofs.Success

/-!
# Deliveries that can be written

The slots of an assembler have the forms that their requests give them, whatever is in already
(`Assembler.Laid`). A column whose numerators reach all rows of its request (`Assembler.Reaches`) can
be written there, densely or at the coordinates of a pattern that fits
(`Assembler.exists_writeColumn`), so that a direction with such columns can be deposited
(`Assembler.Laid.yields_deposit`).
-/

namespace Sensitivity

variable {R : Type}

/-- A slot of the form that a request gives it. -/
structure AssemblySlot.Suits (sizes : Sizes) (q : Request R) (s : AssemblySlot R) : Prop where
  of_eq : s.of = q.of
  rows_eq : q.rows sizes = .ok s.rows
  block : ∃ cols, q.cols sizes = .ok cols ∧
    s.block.form = (s.rows.length, cols.length, q.pattern.map fun p => (p, p.count))

/-- A filled slot has the form that its request gives it. -/
theorem AssemblySlot.FilledBy.suits [Scalar R] {sizes : Sizes} {tolerance : R} {q : Request R}
    {f : Nat → Option (Source R)} {s : AssemblySlot R} (hs : s.FilledBy sizes tolerance q f) :
    s.Suits sizes q := by
  obtain ⟨cols, hcols, hblock⟩ := hs.block
  refine ⟨hs.of_eq, hs.rows_eq, cols, hcols, ?_⟩
  cases hp : q.pattern with
  | none =>
    rw [hp] at hblock
    obtain ⟨m, hm, hrows, hwidth, -⟩ := hblock
    exact Block.form_eq_dense_iff.2 ⟨m, hm, hrows, hwidth⟩
  | some p =>
    rw [hp] at hblock
    obtain ⟨values, hvalues, hlength, -⟩ := hblock
    exact Block.form_eq_sparse_iff.2 ⟨values, hvalues, hlength⟩

namespace Assembler

/-- A column as high as a dense block can be written to it. -/
theorem exists_writeDense {m : DenseMatrix R} {col : Nat} (hcol : col < m.cols) {values : List R}
    (hlength : values.length ≤ m.rows) : ∃ written, writeDense? m col values = some written := by
  have hfold (xs : List (R × Nat)) (a : DenseMatrix R) (hcol : col < a.cols)
      (hxs : ∀ x ∈ xs, x.2 < a.rows) :
      ∃ b, xs.foldlM (fun m x => (m.get? x.2 col).map fun _ => m.set x.2 col x.1) a = some b := by
    induction xs generalizing a with
    | nil => exact ⟨a, rfl⟩
    | cons x rest ih =>
      obtain ⟨old, hold⟩ := Option.isSome_iff_exists.1
        ((a.isSome_get? x.2 col).2 ⟨hxs x List.mem_cons_self, hcol⟩)
      rw [List.foldlM_cons, hold]
      refine ih _ (by rwa [DenseMatrix.cols_set]) fun y hy => ?_
      rw [DenseMatrix.rows_set]
      exact hxs y (List.mem_cons_of_mem x hy)
  refine hfold values.zipIdx m hcol fun x hx => ?_
  exact Nat.lt_of_lt_of_le (List.getElem?_eq_some_iff.1 (List.mem_zipIdx_iff_getElem?.1 hx)).1 hlength

/-- A column with a value in each row can be written at the coordinates of a pattern that fits. -/
theorem exists_writeSparse {p : Pattern} {rows cols : Nat} (hp : p.fits rows cols = true)
    {values : List R} (hlength : values.length = p.count) (col : Nat) {column : Nat → Option R}
    (hcolumn : ∀ k < rows, ∃ v, column k = some v) :
    ∃ written, writeSparse? p values col column = some written := by
  obtain ⟨hcount, hrows, -⟩ := Pattern.fits_iff.1 hp
  refine Option.exists_mapM fun (old, j) hx => ?_
  have hj : j < p.rows.length :=
    (List.getElem?_eq_some_iff.1 (List.mem_zipIdx_iff_getElem?.1 hx)).1.trans_eq hlength
  have hj' : j < p.cols.length := hcount ▸ hj
  obtain ⟨v, hv⟩ := hcolumn p.rows[j] (hrows _ (List.getElem_mem hj))
  simp only [List.getElem?_eq_getElem hj, List.getElem?_eq_getElem hj', Option.bind_eq_bind,
    Option.bind_some, hv]
  split
  · exact ⟨v, rfl⟩
  · exact ⟨old, rfl⟩

variable [Scalar R]

/-- An assembler can be started for requests that select entries. -/
theorem exists_start {requests : List (Request R)} {sizes : Sizes} (plan : Plan R)
    (h : ∀ q ∈ requests, ∃ rows cols, q.rows sizes = .ok rows ∧ q.cols sizes = .ok cols) :
    ∃ a, start requests sizes plan = .ok a := by
  obtain ⟨slots, hslots⟩ : ∃ slots, requests.mapM (fun q => q.shape sizes >>= fun shape =>
      q.rows sizes >>= fun rows => .ok
        (⟨q.of, q.wrt, rows, .zeros shape.1 shape.2 q.pattern, ∅⟩ : AssemblySlot R)) = .ok slots := by
    refine Except.exists_mapM fun q hq => ?_
    obtain ⟨rows, cols, hrows, hcols⟩ := h q hq
    have hshape : q.shape sizes = .ok (rows.length, cols.length) :=
      Except.bind_eq_ok.2 ⟨rows, hrows, Except.bind_eq_ok.2 ⟨cols, hcols, rfl⟩⟩
    exact ⟨_, Except.bind_eq_ok.2 ⟨_, hshape, Except.bind_eq_ok.2 ⟨rows, hrows, rfl⟩⟩⟩
  exact ⟨_, Except.bind_eq_ok.2 ⟨slots, hslots, rfl⟩⟩

/-- **A column that exists can be written** when the numerators reach all rows, and the slot keeps its
form. -/
theorem exists_writeColumn {sizes : Sizes} {q : Request R} {s : AssemblySlot R}
    (hs : s.Suits sizes q) (hvalid : q.validate sizes = .ok ()) {cols : List Nat}
    (hcols : q.cols sizes = .ok cols) {col : Nat} (hcol : col < cols.length) {numerator : List R}
    (hreach : ∀ i ∈ s.rows, i < numerator.length) (tolerance : R) (alone : Bool) (step : R) :
    ∃ t, writeColumn? s tolerance alone col numerator step = some t ∧ t.Suits sizes q := by
  obtain ⟨values, hvalues⟩ : ∃ values, columnValues? s numerator step = some values :=
    Option.exists_mapM fun i hi => ⟨_, by rw [List.getElem?_eq_getElem (hreach i hi)]; rfl⟩
  obtain ⟨cols', hcols', hblock⟩ := hs.block
  obtain rfl := Except.ok.inj (hcols.symm.trans hcols')
  cases hp : q.pattern with
  | none =>
    rw [hp] at hblock
    obtain ⟨m, hm, hheight, hwidth⟩ := Block.form_eq_dense_iff.1 hblock
    have hlength : values.length ≤ m.rows := by
      rw [(getElem?_of_columnValues hvalues).1, hheight]
    obtain ⟨written, hwritten⟩ := exists_writeDense (hwidth ▸ hcol) hlength
    obtain ⟨hrows, hcols', -⟩ := get?_of_writeDense hwritten
    refine ⟨{ s with block := .dense written }, ?_, hs.of_eq, hs.rows_eq, cols, hcols, ?_⟩
    · simp only [writeColumn?, hm]
      exact Option.bind_eq_some_iff.2 ⟨values, hvalues,
        Option.bind_eq_some_iff.2 ⟨written, hwritten, rfl⟩⟩
    · rw [hp]
      exact Block.form_eq_dense_iff.2 ⟨written, rfl, hrows.trans hheight, hcols'.trans hwidth⟩
  | some p =>
    rw [hp] at hblock
    obtain ⟨old, hold, hcount⟩ := Block.form_eq_sparse_iff.1 hblock
    obtain ⟨-, rows, cols', hrows, hcols', hfits⟩ := Request.of_validate hvalid
    obtain rfl := Except.ok.inj (hs.rows_eq.symm.trans hrows)
    obtain rfl := Except.ok.inj (hcols.symm.trans hcols')
    obtain ⟨written, hwritten⟩ : ∃ written, writeSparse? p old col
        (fun k => do return (← numerator[← s.rows[k]?]?) / step) = some written :=
      exists_writeSparse (hfits p hp) hcount col fun k hk => by
        have hi := hreach _ (List.getElem_mem hk)
        refine ⟨numerator[s.rows[k]] / step, ?_⟩
        rw [List.getElem?_eq_getElem hk, Option.bind_eq_bind, Option.bind_some,
          List.getElem?_eq_getElem hi]
        rfl
    have hkept : written.length = p.count := (getElem?_of_writeSparse hwritten).1.trans hcount
    have hform : (Block.sparse p written s.rows.length cols.length).form =
        (s.rows.length, cols.length, q.pattern.map fun p => (p, p.count)) := by
      rw [hp]
      exact Block.form_eq_sparse_iff.2 ⟨written, rfl, hkept⟩
    obtain ⟨outside, hwrite⟩ : ∃ outside, writeColumn? s tolerance alone col numerator step =
        some { s with block := .sparse p written s.rows.length cols.length, outside := outside } := by
      simp only [writeColumn?, hold]
      cases alone with
      | true =>
        exact ⟨_, Option.bind_eq_some_iff.2 ⟨written, hwritten, by rw [hvalues]; rfl⟩⟩
      | false => exact ⟨s.outside, Option.bind_eq_some_iff.2 ⟨written, hwritten, rfl⟩⟩
    exact ⟨_, hwrite, hs.of_eq, hs.rows_eq, cols, hcols, hform⟩

/-- An assembler with a slot for each request, and for so many directions. -/
structure Laid (requests : List (Request R)) (sizes : Sizes) (count : Nat) (a : Assembler R) :
    Prop where
  length_eq : a.deposited.length = count
  slot : ∀ (r : Nat) q, requests[r]? = some q → ∃ s, a.slots[r]? = some s ∧ s.Suits sizes q

/-- The numerators of a request reach all its rows, and a column is one of its own. -/
def Reaches (requests : List (Request R)) (sizes : Sizes) (numerators : Table String (List R))
    (c : Column) : Prop :=
  ∃ q rows cols vs, requests[c.request]? = some q ∧ q.rows sizes = .ok rows ∧
    q.cols sizes = .ok cols ∧ c.col < cols.length ∧ numerators.get? q.of = some vs ∧
    ∀ i ∈ rows, i < vs.length

variable {requests : List (Request R)} {sizes : Sizes} {count : Nat} {a : Assembler R}

/-- A new assembler has slots for its requests. -/
theorem laid_start {plan : Plan R} (h : start requests sizes plan = .ok a) (tolerance : R) :
    Laid requests sizes plan.directions.length { a with tolerance := tolerance } := by
  have hfilled := filledBy_start h tolerance
  refine ⟨by rw [hfilled.deposited_eq, List.length_replicate], fun r q hq => ?_⟩
  obtain ⟨s, hs, hslot⟩ := hfilled.slot r q hq
  exact ⟨s, hs, hslot.suits⟩

variable (hvalid : ∀ q ∈ requests, q.validate sizes = .ok ())

include hvalid

/-- **A column that the numerators reach can be deposited.** -/
theorem Laid.yields_depositColumn (ha : a.Laid requests sizes count)
    {numerators : Table String (List R)} {c : Column} (hc : Reaches requests sizes numerators c)
    (alone : Bool) (step : R) : Action.Yields (fun _ b => b.Laid requests sizes count)
      ((depositColumn alone numerators step c).perform a) := by
  obtain ⟨q, rows, cols, vs, hq, hrows, hcols, hcol, hvs, hreach⟩ := hc
  obtain ⟨s, hs, hsuits⟩ := ha.slot c.request q hq
  obtain rfl := Except.ok.inj (hrows.symm.trans hsuits.rows_eq)
  obtain ⟨t, hwrite, ht⟩ := exists_writeColumn hsuits (hvalid q (List.mem_of_getElem? hq)) hcols hcol
    hreach a.tolerance alone step
  refine Action.yields_get_bind (Action.yields_ofOutcome_bind (by rw [hs]; rfl)
    (Action.yields_ofOutcome_bind (by rw [hsuits.of_eq, hvs]; rfl)
      (Action.yields_ofOutcome_bind (by rw [hwrite]; rfl) ?_)))
  refine ⟨(), _, rfl, ha.length_eq, fun r q' hq' => ?_⟩
  by_cases hr : c.request = r
  · subst hr
    obtain rfl := Option.some.inj (hq.symm.trans hq')
    exact ⟨t, List.getElem?_set_self (List.getElem?_eq_some_iff.1 hs).1, ht⟩
  · obtain ⟨s', hs', hsuits'⟩ := ha.slot r q' hq'
    exact ⟨s', (List.getElem?_set_ne hr).trans hs', hsuits'⟩

/-- **A direction whose columns its numerators reach can be deposited.** -/
theorem Laid.yields_deposit (ha : a.Laid requests sizes count) {index : Nat}
    (hindex : index < count) {d : Direction} {numerators : Table String (List R)}
    (hd : ∀ seed ∈ d.seeds, ∀ c ∈ seed.columns, Reaches requests sizes numerators c)
    (steps : List R) : Action.Yields (fun _ b => b.Laid requests sizes count)
      ((deposit index d steps numerators).perform a) := by
  refine Action.yields_bind (Action.yields_forEach (fun x hx a ha => ?_) ha) fun _ b hb => ?_
  · exact Action.yields_forEach (fun c hc a ha =>
      Laid.yields_depositColumn hvalid ha (hd x.1 (List.of_mem_zip hx).1 c hc) _ _) ha
  · refine Action.yields_get_bind ?_
    rw [if_pos (hb.length_eq ▸ hindex)]
    exact ⟨(), _, rfl, by rw [List.length_set, hb.length_eq], hb.slot⟩

end Assembler

end Sensitivity
