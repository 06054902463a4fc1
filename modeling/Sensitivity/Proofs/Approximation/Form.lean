import Sensitivity.Proofs.Approximation.Filling
import Sensitivity.Proofs.Block

/-!
# Which deliveries an assembler takes

Whether a direction can be deposited depends on the form of the assembler alone: its variables, its
rows, the forms of its blocks and the number of its directions (`Assembler.form`,
`Assembler.respects_deposit`). Assemblers for the same requests have the same form
(`Assembler.Received.form_eq`), so a delivery that one of them takes is taken by every other one,
whatever is in already.
-/

namespace Sensitivity

variable {R : Type}

/-- What a column that is written has to match. -/
def AssemblySlot.form (s : AssemblySlot R) : String × List Nat × Nat × Nat × Option (Pattern × Nat) :=
  (s.of, s.rows, s.block.form)

/-- The form of a slot is settled by its request. -/
theorem AssemblySlot.FilledBy.form_eq [Scalar R] {sizes : Sizes} {tolerance : R} {q : Request R}
    {f g : Nat → Option (Source R)} {s t : AssemblySlot R} (hs : s.FilledBy sizes tolerance q f)
    (ht : t.FilledBy sizes tolerance q g) : s.form = t.form := by
  have hrows : s.rows = t.rows := Except.ok.inj (hs.rows_eq.symm.trans ht.rows_eq)
  obtain ⟨cols, hcols, hsb⟩ := hs.block
  obtain ⟨cols', hcols', htb⟩ := ht.block
  obtain rfl := Except.ok.inj (hcols.symm.trans hcols')
  refine Prod.ext (hs.of_eq.trans ht.of_eq.symm) (Prod.ext hrows ?_)
  cases hp : q.pattern with
  | none =>
    rw [hp] at hsb htb
    obtain ⟨m, hm, hmrows, hmcols, -⟩ := hsb
    obtain ⟨n, hn, hnrows, hncols, -⟩ := htb
    simp [AssemblySlot.form, hm, hn, Block.form, hmrows, hmcols, hnrows, hncols, hrows]
  | some p =>
    rw [hp] at hsb htb
    obtain ⟨values, hv, hlength, -⟩ := hsb
    obtain ⟨others, hw, hlength', -⟩ := htb
    simp [AssemblySlot.form, hv, hw, Block.form, hlength, hlength', hrows]

namespace Assembler

/-- What a delivery has to match. -/
def form (a : Assembler R) : List (String × List Nat × Nat × Nat × Option (Pattern × Nat)) × Nat :=
  (a.slots.map AssemblySlot.form, a.deposited.length)

/-- A column of a dense block can be written as far as the shape goes. -/
theorem shape_writeDense {m n : DenseMatrix R} (hrows : m.rows = n.rows) (hcols : m.cols = n.cols)
    (col : Nat) (values : List R) : (writeDense? m col values).map (fun m => (m.rows, m.cols)) =
      (writeDense? n col values).map fun m => (m.rows, m.cols) := by
  unfold writeDense?
  generalize 0 = first
  induction values generalizing m n first with
  | nil => simp [hrows, hcols]
  | cons v rest ih =>
    rw [List.zipIdx_cons, List.foldlM_cons, List.foldlM_cons]
    by_cases h : first < m.rows ∧ col < m.cols
    · obtain ⟨x, hx⟩ := Option.isSome_iff_exists.1 ((m.isSome_get? first col).2 h)
      obtain ⟨y, hy⟩ := Option.isSome_iff_exists.1
        ((n.isSome_get? first col).2 (hrows ▸ hcols ▸ h))
      simp only [hx, hy, Option.map_some, Option.bind_eq_bind, Option.bind_some]
      exact ih (by simpa only [DenseMatrix.rows_set]) (by simpa only [DenseMatrix.cols_set]) _
    · have hm : m.get? first col = none :=
        Option.eq_none_iff_forall_ne_some.2 fun x hx =>
          h ((m.isSome_get? first col).1 (by rw [hx]; rfl))
      have hn : n.get? first col = none :=
        Option.eq_none_iff_forall_ne_some.2 fun x hx =>
          h (hrows ▸ hcols ▸ (n.isSome_get? first col).1 (by rw [hx]; rfl))
      simp [hm, hn]

/-- Lists whose entries are accepted alike are accepted alike. -/
theorem length_mapM {α β : Type} {f g : α → Option β} {xs ys : List α}
    (h : List.Forall₂ (fun x y => (f x).isSome = (g y).isSome) xs ys) :
    (xs.mapM f).map List.length = (ys.mapM g).map List.length := by
  induction h with
  | nil => rfl
  | @cons x y xs ys hxy _ ih =>
    rw [List.mapM_cons, List.mapM_cons]
    generalize f x = u at hxy
    generalize g y = v at hxy
    generalize xs.mapM f = us at ih
    generalize ys.mapM g = vs at ih
    cases u <;> cases v <;> cases us <;> cases vs <;> simp_all

/-- A column of a sparse block can be written as far as the pattern goes. -/
theorem length_writeSparse {p : Pattern} {values others : List R}
    (h : values.length = others.length) (col : Nat) (column : Nat → Option R) :
    (writeSparse? p values col column).map List.length =
      (writeSparse? p others col column).map List.length := by
  refine length_mapM (List.forall₂_iff_get.2 ⟨by simpa using h, fun j hj hj' => ?_⟩)
  simp only [List.get_eq_getElem, List.getElem_zipIdx, Nat.zero_add]
  cases p.cols[j]? with
  | none => rfl
  | some c =>
    by_cases hc : c = col <;> simp [hc]

variable [Scalar R]

/-- Whether a column can be written depends on the form, and the form stays. -/
theorem form_writeColumn {s t : AssemblySlot R} (h : s.form = t.form) (tolerance tolerance' : R)
    (alone : Bool) (col : Nat) (numerator : List R) (step : R) :
    (writeColumn? s tolerance alone col numerator step).map AssemblySlot.form =
      (writeColumn? t tolerance' alone col numerator step).map AssemblySlot.form := by
  obtain ⟨of, wrt, rows, block, outside⟩ := s
  obtain ⟨of', wrt', rows', block', outside'⟩ := t
  simp only [AssemblySlot.form, Prod.mk.injEq] at h
  obtain ⟨rfl, rfl, hblock⟩ := h
  have hvalues : columnValues? ⟨of, wrt, rows, block, outside⟩ numerator step =
      columnValues? ⟨of, wrt', rows, block', outside'⟩ numerator step := rfl
  cases block with
  | dense m =>
    obtain ⟨n, rfl, hrows, hcols⟩ := Block.form_eq_dense_iff.1 hblock.symm
    simp only [writeColumn?, hvalues]
    cases columnValues? ⟨of, wrt', rows, .dense n, outside'⟩ numerator step with
    | none => rfl
    | some values =>
      have := shape_writeDense hrows.symm hcols.symm col values
      simp only [Option.bind_eq_bind, Option.bind_some]
      generalize writeDense? m col values = x at this
      generalize writeDense? n col values = y at this
      cases x <;> cases y <;> simp_all [AssemblySlot.form, Block.form]
  | sparse p values rows' cols' =>
    obtain ⟨others, rfl, hlength⟩ := Block.form_eq_sparse_iff.1 hblock.symm
    have := length_writeSparse (p := p) hlength.symm col fun k => do
      return (← numerator[← rows[k]?]?) / step
    simp only [writeColumn?, hvalues, Option.bind_eq_bind] at this ⊢
    generalize writeSparse? p values col _ = x at this ⊢
    generalize writeSparse? p others col _ = y at this ⊢
    cases x <;> cases y <;> cases alone <;>
      cases columnValues? ⟨of, wrt', rows, .sparse p others rows' cols', outside'⟩ numerator step <;>
      simp_all [AssemblySlot.form, Block.form]

/-- Whether a column can be deposited depends on the form, and the form stays. -/
theorem respects_depositColumn (alone : Bool) (numerators : Table String (List R)) (step : R)
    (c : Column) : (depositColumn alone numerators step c).Respects form := by
  intro a b hab
  obtain ⟨hslots, hdeposited⟩ := Prod.mk.inj hab
  have hslot : a.slots[c.request]?.map AssemblySlot.form =
      b.slots[c.request]?.map AssemblySlot.form := by
    rw [← List.getElem?_map, ← List.getElem?_map, hslots]
  unfold depositColumn
  rw [Action.perform_get_bind, Action.perform_get_bind]
  rcases hs : a.slots[c.request]? with _ | s <;> rcases ht : b.slots[c.request]? with _ | t <;>
    rw [hs, ht] at hslot
  · exact ⟨rfl, hab⟩
  · cases hslot
  · cases hslot
  have hform := Option.some.inj hslot
  have hof : s.of = t.of := congrArg Prod.fst hform
  have hwritten := form_writeColumn hform a.tolerance b.tolerance alone c.col
  simp only [Outcome.ofOption, Action.perform_bind, Action.perform_ofOutcome, hof]
  cases numerators.get? t.of with
  | none => exact ⟨rfl, hab⟩
  | some numerator =>
    have hwritten := hwritten numerator step
    simp only [Outcome.expect]
    generalize writeColumn? s a.tolerance alone c.col numerator step = x at hwritten ⊢
    generalize writeColumn? t b.tolerance alone c.col numerator step = y at hwritten ⊢
    rcases x with _ | x <;> rcases y with _ | y
    · exact ⟨rfl, hab⟩
    · cases hwritten
    · cases hwritten
    · refine ⟨rfl, Prod.ext ?_ hdeposited⟩
      simp only [Action.perform_set, form, List.map_set, hslots, Option.some.inj hwritten]

/-- Whether a delivery can be deposited depends on the form, and the form stays. -/
theorem respects_deposit (index : Nat) (d : Direction) (steps : List R)
    (numerators : Table String (List R)) : (deposit index d steps numerators).Respects form := by
  unfold deposit
  refine Action.respects_bind (Action.respects_forEach fun (seed, step) =>
    Action.respects_forEach fun c => respects_depositColumn _ _ step c) fun _ => ?_
  intro a b hab
  have hdeposited : a.deposited.length = b.deposited.length := congrArg Prod.snd hab
  rw [Action.perform_get_bind, Action.perform_get_bind, hdeposited]
  split
  · refine ⟨rfl, Prod.ext (Prod.mk.inj hab).1 ?_⟩
    simpa [form] using hdeposited
  · exact ⟨rfl, hab⟩

/-- Assemblers for the same requests have the same form, whatever is in. -/
theorem Received.form_eq {requests : List (Request R)} {sizes : Sizes} {tolerance : R} {count : Nat}
    {log log' : List (Delivery R)} {a b : Assembler R}
    (ha : a.Received requests sizes tolerance count log)
    (hb : b.Received requests sizes tolerance count log') : a.form = b.form := by
  refine Prod.ext (List.ext_getElem? fun r => ?_) ?_
  · simp only [form, List.getElem?_map]
    by_cases hr : r < requests.length
    · obtain ⟨s, hs, hsf⟩ := ha.slot r _ (List.getElem?_eq_getElem hr)
      obtain ⟨t, ht, htf⟩ := hb.slot r _ (List.getElem?_eq_getElem hr)
      rw [hs, ht, Option.map_some, Option.map_some, hsf.form_eq htf]
    · rw [List.getElem?_eq_none (by have := ha.length_eq; omega), List.getElem?_eq_none (by have := hb.length_eq; omega)]
  · simp only [form, ha.deposited_eq, hb.deposited_eq, List.length_map]

end Assembler

end Sensitivity
