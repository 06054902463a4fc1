import Mathlib.Data.List.Perm.Basic
import Sensitivity.Proofs.Approximation.Deposits
import Sensitivity.Proofs.DenseMatrix
import Sensitivity.Proofs.Table

/-!
# What fills an assembler

An assembler is filled from a log: for every column that was written the numerators of all variables,
the step that divides them, and whether nothing else was perturbed (`Source`). Every value of a block
is settled by the source of its column, and so is what was found outside its pattern
(`AssemblySlot.FilledBy`). An assembler that has received the deliveries of some directions
(`Assembler.Received`) receives one more by a deposit (`Assembler.Received.deposit`) and those of
another assembler by a merge (`Assembler.Received.merge`), as long as no column is written twice.
The deliveries settle the outcome, whatever their order (`Assembler.Received.finish_eq`).
-/

namespace Sensitivity

variable {R : Type} [Scalar R]

/-- What a column is written from: the numerators of all variables, the step that divides them, and
whether nothing else was perturbed. -/
structure Source (R : Type) where
  numerators : Table String (List R)
  step : R
  alone : Bool

/-- The value that a source gives an entry of a variable. -/
def Source.value? (w : Source R) (of : String) (i : Nat) : Option R := do
  return (← (← w.numerators.get? of)[i]?) / w.step

namespace AssemblySlot

/-- The value at a coordinate of a block of `of` with these rows, whose columns are written from
`f`: zero where nothing was written. -/
def cell (f : Nat → Option (Source R)) (of : String) (rows : List Nat) (k c : Nat) : Option R :=
  match f c with
  | some w => rows[k]?.bind (w.value? of)
  | none => some 0

/-- The magnitude at a coordinate outside the pattern, where only one entry was perturbed. -/
def beyond (f : Nat → Option (Source R)) (of : String) (rows : List Nat) (p : Pattern)
    (tolerance : R) (k c : Nat) : Option R :=
  (f c).bind fun w =>
    if w.alone then (rows[k]?.bind (w.value? of)).bind fun v =>
      let size := Scalar.abs v
      if tolerance < size ∧ !(p.rowsInCol c).contains k then some size else none
    else none

/-- A slot for a request whose columns are written from `f`. -/
structure FilledBy (sizes : Sizes) (tolerance : R) (q : Request R) (f : Nat → Option (Source R))
    (s : AssemblySlot R) : Prop where
  of_eq : s.of = q.of
  wrt_eq : s.wrt = q.wrt
  rows_eq : q.rows sizes = .ok s.rows
  block : ∃ cols, q.cols sizes = .ok cols ∧ match q.pattern with
    | none => ∃ m, s.block = .dense m ∧ m.rows = s.rows.length ∧ m.cols = cols.length ∧
        ∀ k < m.rows, ∀ c < m.cols, m.get? k c = cell f q.of s.rows k c
    | some p => ∃ values, s.block = .sparse p values s.rows.length cols.length ∧
        values.length = p.count ∧ ∀ l k c : Nat, p.rows[l]? = some k → p.cols[l]? = some c →
          values[l]? = cell f q.of s.rows k c
  outside : ∀ k c, s.outside.get? (k, c) =
    q.pattern.bind fun p => beyond f q.of s.rows p tolerance k c

omit [Scalar R] in
/-- Sorted column by column, tables that hold the same list the same. -/
theorem sort_eq_of_get?_eq {t u : Table (Nat × Nat) R} (h : ∀ kc, t.get? kc = u.get? kc) :
    t.entries.mergeSort Assembler.columnOrder = u.entries.mergeSort Assembler.columnOrder := by
  have htrans (a b c : (Nat × Nat) × R) (hab : Assembler.columnOrder a b = true)
      (hbc : Assembler.columnOrder b c = true) : Assembler.columnOrder a c = true := by
    simp only [Assembler.columnOrder, Bool.or_eq_true, decide_eq_true_eq, Bool.and_eq_true,
      beq_iff_eq] at hab hbc ⊢
    omega
  have htotal (a b : (Nat × Nat) × R) :
      (Assembler.columnOrder a b || Assembler.columnOrder b a) = true := by
    simp only [Assembler.columnOrder, Bool.or_eq_true, decide_eq_true_eq, Bool.and_eq_true,
      beq_iff_eq]
    omega
  have hmem (x : (Nat × Nat) × R) : x ∈ t.entries ↔ x ∈ u.entries := by
    rw [← Table.get?_eq_some_iff, ← Table.get?_eq_some_iff, h]
  have hperm : t.entries.Perm u.entries :=
    (List.perm_ext_iff_of_nodup (List.Nodup.of_map _ t.nodup) (List.Nodup.of_map _ u.nodup)).2 hmem
  have hsorted (l : List ((Nat × Nat) × R)) :
      (l.mergeSort Assembler.columnOrder).Pairwise fun a b => Assembler.columnOrder a b = true :=
    List.pairwise_mergeSort htrans htotal l
  refine List.Perm.eq_of_pairwise (fun a b ha hb hab hba => ?_) (hsorted _) (hsorted _)
    (((List.mergeSort_perm _ _).trans hperm).trans (List.mergeSort_perm _ _).symm)
  -- entries at one place are one entry, since the keys of a table are distinct
  have hkey : a.1 = b.1 := by
    simp only [Assembler.columnOrder, Bool.or_eq_true, decide_eq_true_eq, Bool.and_eq_true,
      beq_iff_eq] at hab hba
    exact Prod.ext (by omega) (by omega)
  rw [List.mem_mergeSort] at ha hb
  exact List.inj_on_of_nodup_map t.nodup ha ((hmem b).2 hb) hkey

section Unique

variable {sizes : Sizes} {tolerance : R} {q : Request R} {f : Nat → Option (Source R)}
  {s t : AssemblySlot R}

/-- Slots of one request that are filled from the same sources hold the same block. -/
theorem FilledBy.block_eq (hs : s.FilledBy sizes tolerance q f) (ht : t.FilledBy sizes tolerance q f)
    (hpattern : ∀ p, q.pattern = some p → p.rows.length = p.cols.length) : s.block = t.block := by
  have hrows : s.rows = t.rows := Except.ok.inj (hs.rows_eq.symm.trans ht.rows_eq)
  obtain ⟨cols, hcols, hsb⟩ := hs.block
  obtain ⟨cols', hcols', htb⟩ := ht.block
  obtain rfl := Except.ok.inj (hcols.symm.trans hcols')
  rw [← hrows] at htb
  cases hp : q.pattern with
  | none =>
    rw [hp] at hsb htb
    obtain ⟨m, hm, hmrows, hmcols, hmget⟩ := hsb
    obtain ⟨n, hn, hnrows, hncols, hnget⟩ := htb
    rw [hm, hn]
    refine congrArg _ (DenseMatrix.ext_of_get? (hmrows.trans hnrows.symm) (hmcols.trans hncols.symm)
      fun k hk c hc => (hmget k hk c hc).trans (hnget k ?_ c ?_).symm) <;> omega
  | some p =>
    rw [hp] at hsb htb
    obtain ⟨values, hv, hlength, hget⟩ := hsb
    obtain ⟨others, hw, hlength', hget'⟩ := htb
    rw [hv, hw]
    refine congrArg (Block.sparse p · _ _) (List.ext_getElem? fun l => ?_)
    by_cases hl : l < p.count
    · have hk := List.getElem?_eq_getElem (show l < p.rows.length from hl)
      have hc := List.getElem?_eq_getElem (show l < p.cols.length from hpattern p hp ▸ hl)
      rw [hget _ _ _ hk hc, hget' _ _ _ hk hc]
    · rw [List.getElem?_eq_none (by omega), List.getElem?_eq_none (by omega)]

/-- Slots of one request that are filled from the same sources report the same mismatch. -/
theorem FilledBy.mismatch_eq (hs : s.FilledBy sizes tolerance q f)
    (ht : t.FilledBy sizes tolerance q f) : Assembler.mismatch? s = Assembler.mismatch? t := by
  have hrows : s.rows = t.rows := Except.ok.inj (hs.rows_eq.symm.trans ht.rows_eq)
  have hget (kc : Nat × Nat) : s.outside.get? kc = t.outside.get? kc := by
    obtain ⟨k, c⟩ := kc
    rw [hs.outside, ht.outside, hrows]
  have hsorted : s.outside.entries.mergeSort Assembler.columnOrder =
      t.outside.entries.mergeSort Assembler.columnOrder :=
    sort_eq_of_get?_eq hget
  simp only [Assembler.mismatch?, hsorted, hs.of_eq, ht.of_eq, hs.wrt_eq, ht.wrt_eq]

end Unique

end AssemblySlot

namespace Assembler

open AssemblySlot

omit [Scalar R] in
/-- Writing the column of a dense block. -/
theorem get?_of_writeDense {m written : DenseMatrix R} {col : Nat} {values : List R}
    (h : writeDense? m col values = some written) :
    written.rows = m.rows ∧ written.cols = m.cols ∧ ∀ k c,
      written.get? k c = if c = col ∧ k < values.length then values[k]? else m.get? k c := by
  have hfold (xs : List R) (n : Nat) (a b : DenseMatrix R)
      (h : (xs.zipIdx n).foldlM (fun m x => (m.get? x.2 col).map fun _ => m.set x.2 col x.1) a =
        some b) :
      b.rows = a.rows ∧ b.cols = a.cols ∧ ∀ k c,
        b.get? k c = if c = col ∧ n ≤ k ∧ k < n + xs.length then xs[k - n]? else a.get? k c := by
    induction xs generalizing n a with
    | nil =>
      cases h
      refine ⟨rfl, rfl, fun k c => ?_⟩
      rw [if_neg]
      simp only [List.length_nil]
      omega
    | cons x rest ih =>
      rw [List.zipIdx_cons, List.foldlM_cons, Option.bind_eq_bind, Option.bind_eq_some_iff] at h
      obtain ⟨a', ha', h⟩ := h
      obtain ⟨old, hold, rfl⟩ := Option.map_eq_some_iff.1 ha'
      obtain ⟨hr, hc⟩ := (DenseMatrix.isSome_get? a n col).1 (by rw [hold]; rfl)
      obtain ⟨hrows, hcols, hget⟩ := ih (n + 1) _ h
      rw [DenseMatrix.rows_set] at hrows
      rw [DenseMatrix.cols_set] at hcols
      refine ⟨hrows, hcols, fun k c => ?_⟩
      rw [hget, DenseMatrix.get?_set a hr hc]
      by_cases hk : k = n
      · subst hk
        rw [if_neg (by omega)]
        simp [and_comm]
      · rw [if_neg (show ¬ (k = n ∧ c = col) from fun h => hk h.1), List.length_cons]
        by_cases hin : c = col ∧ n + 1 ≤ k ∧ k < n + 1 + rest.length
        · rw [if_pos hin, if_pos (by omega), show k - n = k - (n + 1) + 1 by omega,
            List.getElem?_cons_succ]
        · rw [if_neg hin, if_neg (by omega)]
  obtain ⟨hrows, hcols, hget⟩ := hfold values 0 m written h
  refine ⟨hrows, hcols, fun k c => ?_⟩
  simpa using hget k c

/-- The values of a column, entry by entry. -/
theorem getElem?_of_columnValues {s : AssemblySlot R} {numerator : List R} {h : R}
    {values : List R} (hvalues : columnValues? s numerator h = some values) :
    values.length = s.rows.length ∧
      ∀ k : Nat, values[k]? = s.rows[k]?.bind fun i => numerator[i]?.map (· / h) := by
  have hall := Option.mapM_eq_some.1 hvalues
  refine ⟨hall.length_eq.symm, fun k => ?_⟩
  by_cases hk : k < s.rows.length
  · have hk' : k < values.length := hall.length_eq ▸ hk
    have := hall.get hk hk'
    simp only [List.get_eq_getElem] at this
    rw [List.getElem?_eq_getElem hk, List.getElem?_eq_getElem hk', Option.bind_some, this]
  · have hk' : ¬ k < values.length := hall.length_eq ▸ hk
    rw [List.getElem?_eq_none (by omega), List.getElem?_eq_none (by omega)]
    rfl

/-- What is found outside a pattern, coordinate by coordinate. -/
theorem find_outsideOf (p : Pattern) (tolerance : R) (col : Nat) (values : List R) :
    ((outsideOf p tolerance col values).map Prod.fst).Nodup ∧ ∀ k c,
      Table.find (k, c) (outsideOf p tolerance col values) = if c = col then values[k]?.bind fun v =>
        if tolerance < Scalar.abs v ∧ !(p.rowsInCol col).contains k then some (Scalar.abs v)
        else none else none := by
  have hnodup : ((outsideOf p tolerance col values).map Prod.fst).Nodup := by
    have hplaces : (values.zipIdx.map Prod.snd).Nodup := by
      simp [List.zipIdx_map_snd, List.nodup_range']
    refine List.pairwise_map.2 (List.pairwise_filterMap.2 ?_)
    refine (List.pairwise_map.1 hplaces).imp fun {a b} hab x hx y hy hxy => hab ?_
    simp only [Option.ite_none_right_eq_some, Option.some.injEq] at hx hy
    rw [← hx.2, ← hy.2] at hxy
    exact (Prod.mk.inj hxy).1
  refine ⟨hnodup, fun k c => Option.ext fun v => ?_⟩
  have hmem : Table.find (k, c) (outsideOf p tolerance col values) = some v ↔
      ((k, c), v) ∈ outsideOf p tolerance col values :=
    ⟨Table.mem_of_find, Table.find_of_mem hnodup⟩
  rw [hmem]
  simp only [outsideOf, List.mem_filterMap, Option.ite_none_right_eq_some, Option.some.injEq,
    Prod.mk.injEq, Prod.exists, List.mem_zipIdx_iff_getElem?, Option.bind_eq_some_iff]
  constructor
  · rintro ⟨x, j, hx, hout, ⟨rfl, rfl⟩, rfl⟩
    exact ⟨rfl, x, hx, hout, rfl⟩
  · rintro ⟨rfl, x, hx, hout, rfl⟩
    exact ⟨x, k, hx, hout, ⟨rfl, rfl⟩, rfl⟩

/-- **A written column is filled from its source**, and the others stay as they are. -/
theorem filledBy_of_writeColumn {sizes : Sizes} {tolerance : R} {q : Request R}
    {f g : Nat → Option (Source R)} {s t : AssemblySlot R} (hs : s.FilledBy sizes tolerance q f)
    {alone : Bool} {col : Nat} {numerators : Table String (List R)} {numerator : List R} {step : R}
    (hcol : f col = none) (hnumerator : numerators.get? q.of = some numerator)
    (hg : ∀ c, g c = if c = col then some ⟨numerators, step, alone⟩ else f c)
    (h : writeColumn? s tolerance alone col numerator step = some t) :
    t.FilledBy sizes tolerance q g := by
  have hvalue (i : Nat) : (⟨numerators, step, alone⟩ : Source R).value? q.of i =
      numerator[i]?.map (· / step) := by
    cases hi : numerator[i]? <;> simp [Source.value?, hnumerator, hi]
  have hcell (k c : Nat) : cell g q.of s.rows k c =
      if c = col then s.rows[k]?.bind fun i => numerator[i]?.map (· / step)
      else cell f q.of s.rows k c := by
    by_cases hc : c = col
    · simp only [cell, hg, hc, if_true]
      exact congrArg _ (funext hvalue)
    · simp only [cell, hg, hc, if_false]
  obtain ⟨cols, hcols, hblock⟩ := hs.block
  cases hp : q.pattern with
  | none =>
    rw [hp] at hblock
    obtain ⟨m, hm, hrows, hmcols, hget⟩ := hblock
    simp only [writeColumn?, hm, Option.bind_eq_bind, Option.bind_eq_some_iff] at h
    obtain ⟨values, hvalues, written, hwritten, ht⟩ := h
    cases ht
    obtain ⟨hlength, hentries⟩ := getElem?_of_columnValues hvalues
    obtain ⟨hwrows, hwcols, hwget⟩ := get?_of_writeDense hwritten
    refine ⟨hs.of_eq, hs.wrt_eq, hs.rows_eq, ⟨cols, hcols, ?_⟩, fun k c => ?_⟩
    · rw [hp]
      refine ⟨written, rfl, hwrows.trans hrows, hwcols.trans hmcols, fun k hk c hc => ?_⟩
      rw [hwrows] at hk
      rw [hwcols] at hc
      have hk' : k < values.length := by omega
      simp only [hwget, hk', and_true, hcell, hentries, hget k hk c hc]
    · have := hs.outside k c
      rw [hp] at this ⊢
      exact this
  | some p =>
    rw [hp] at hblock
    obtain ⟨values, hv, hlength, hget⟩ := hblock
    simp only [writeColumn?, hv, Option.bind_eq_bind, Option.bind_eq_some_iff] at h
    obtain ⟨written, hwritten, h⟩ := h
    obtain ⟨hwlength, hwget⟩ := getElem?_of_writeSparse hwritten
    have hform : ∃ outside, t = { s with
        block := .sparse p written s.rows.length cols.length, outside := outside } ∧
        ∀ k c, outside.get? (k, c) = beyond g q.of s.rows p tolerance k c := by
      have hold (k c : Nat) : s.outside.get? (k, c) = beyond f q.of s.rows p tolerance k c := by
        have := hs.outside k c
        rwa [hp] at this
      cases alone with
      | true =>
        obtain ⟨outside, houtside, ht⟩ := Option.bind_eq_some_iff.1 h
        obtain ⟨all, hall, rfl⟩ := Option.map_eq_some_iff.1 houtside
        obtain ⟨hnodup, hfind⟩ := find_outsideOf p tolerance col all
        obtain ⟨-, hentries⟩ := getElem?_of_columnValues hall
        refine ⟨_, (Option.some.inj ht).symm, fun k c => ?_⟩
        rw [Table.get?_insertAll _ hnodup, hfind, hold]
        by_cases hc : c = col
        · subst hc
          simp only [beyond, hcol, hg, if_true, Option.bind_none, Option.bind_some, hentries,
            funext hvalue]
          split <;> rename_i hx <;> exact hx.symm
        · simp only [beyond, hg, hc, if_false]
      | false =>
        refine ⟨s.outside, (Option.some.inj h).symm, fun k c => ?_⟩
        rw [hold]
        by_cases hc : c = col
        · subst hc
          simp only [beyond, hcol, hg, if_true, Option.bind_none, Option.bind_some,
            Bool.false_eq_true, if_false]
        · simp only [beyond, hg, hc, if_false]
    obtain ⟨outside, rfl, houtside⟩ := hform
    refine ⟨hs.of_eq, hs.wrt_eq, hs.rows_eq, ⟨cols, hcols, ?_⟩, fun k c => ?_⟩
    · rw [hp]
      refine ⟨written, rfl, hwlength.trans hlength, fun l k c hk hc => ?_⟩
      have hl : l < values.length := by
        rw [hlength]
        exact (List.getElem?_eq_some_iff.1 hk).1
      rw [hwget l k c hk hc hl, hcell, hget l k c hk hc]
      split
      · cases s.rows[k]? with
        | none => rfl
        | some i => cases hi : numerator[i]? <;> simp [hi]
      · rfl
    · rw [hp]
      exact houtside k c

/-- The source of each column of the block of a request, from a log of written columns. -/
def sources (log : List (Column × Source R)) (r c : Nat) : Option (Source R) :=
  Table.find ⟨r, c⟩ log

/-- An assembler for some requests whose columns are written from a log. -/
structure FilledBy (requests : List (Request R)) (sizes : Sizes) (tolerance : R)
    (log : List (Column × Source R)) (deposited : List Bool) (a : Assembler R) : Prop where
  tolerance_eq : a.tolerance = tolerance
  deposited_eq : a.deposited = deposited
  length_eq : a.slots.length = requests.length
  slot : ∀ (r : Nat) (q : Request R), requests[r]? = some q →
    ∃ s, a.slots[r]? = some s ∧ s.FilledBy sizes tolerance q (sources log r)

variable {requests : List (Request R)} {sizes : Sizes} {tolerance : R}
  {log : List (Column × Source R)} {deposited : List Bool} {a b : Assembler R}

/-- A new assembler is filled by nothing. -/
theorem filledBy_start {plan : Plan R} (h : start requests sizes plan = .ok a) (tolerance : R) :
    FilledBy requests sizes tolerance [] (List.replicate plan.directions.length false)
      { a with tolerance := tolerance } := by
  obtain ⟨slots, hslots, ha⟩ := Except.bind_eq_ok.1 h
  cases ha
  have hall := Except.mapM_eq_ok.1 hslots
  refine ⟨rfl, rfl, hall.length_eq.symm, fun r q hq => ?_⟩
  obtain ⟨hr, rfl⟩ := List.getElem?_eq_some_iff.1 hq
  have hr' : r < slots.length := hall.length_eq ▸ hr
  have hslot := hall.get hr hr'
  simp only [List.get_eq_getElem, Except.bind_eq_ok] at hslot
  obtain ⟨⟨rows, cols⟩, hshape, is, his, hs⟩ := hslot
  refine ⟨slots[r], List.getElem?_eq_getElem hr', ?_⟩
  obtain ⟨rows', hrows, hshape⟩ := Except.bind_eq_ok.1 hshape
  obtain ⟨cols', hcols, hshape⟩ := Except.bind_eq_ok.1 hshape
  obtain ⟨rfl, rfl⟩ := Prod.mk.inj (Except.ok.inj hshape)
  obtain rfl := Except.ok.inj (hrows.symm.trans his)
  rw [← Except.ok.inj hs]
  refine ⟨rfl, rfl, his, ⟨cols', hcols, ?_⟩, fun k c => ?_⟩
  · cases hp : requests[r].pattern with
    | none =>
      refine ⟨_, rfl, rfl, rfl, fun k hk c hc => ?_⟩
      exact (DenseMatrix.get?_tabulate _ _ _ k c).trans (if_pos ⟨hk, hc⟩)
    | some p =>
      refine ⟨_, rfl, List.length_replicate, fun l k c hk _ => ?_⟩
      exact List.getElem?_replicate_of_lt (List.getElem?_eq_some_iff.1 hk).1
  · cases requests[r].pattern <;> rfl

/-- Depositing a new column adds it to the log. -/
theorem FilledBy.depositColumn (ha : a.FilledBy requests sizes tolerance log deposited)
    {c : Column} {w : Source R} (hc : c ∉ log.map Prod.fst)
    (h : (depositColumn w.alone w.numerators w.step c).perform a = (.ok (), b)) :
    b.FilledBy requests sizes tolerance (log ++ [(c, w)]) deposited := by
  obtain ⟨slot, hslot, h⟩ := Action.ofOutcome_bind_eq_ok.1 (Action.perform_get_bind ▸ h)
  obtain ⟨numerator, hnumerator, h⟩ := Action.ofOutcome_bind_eq_ok.1 h
  obtain ⟨written, hwritten, h⟩ := Action.ofOutcome_bind_eq_ok.1 h
  rw [Outcome.ofOption_eq_ok] at hslot hwritten
  rw [Outcome.expect_eq_ok] at hnumerator
  cases h
  refine ⟨ha.tolerance_eq, ha.deposited_eq, by simpa using ha.length_eq, fun r q hq => ?_⟩
  obtain ⟨s, hs, hfilled⟩ := ha.slot r q hq
  have hsources (k : Nat) : sources (log ++ [(c, w)]) r k =
      if c = ⟨r, k⟩ then some w else sources log r k := by
    rw [sources, Table.find_append]
    by_cases hk : c = ⟨r, k⟩
    · subst hk
      rw [if_pos rfl, Table.find_eq_none_iff.2 hc]
      simp [Table.find]
    · simp [Table.find, hk, sources]
  by_cases hr : r = c.request
  · subst hr
    obtain rfl := Option.some.inj (hslot.symm.trans hs)
    refine ⟨written, List.getElem?_set_self (List.getElem?_eq_some_iff.1 hs).1, ?_⟩
    rw [ha.tolerance_eq] at hwritten
    refine filledBy_of_writeColumn hfilled (Table.find_eq_none_iff.2 hc)
      (hfilled.of_eq ▸ hnumerator) (fun k => ?_) hwritten
    obtain ⟨r, col⟩ := c
    simp [hsources, eq_comm]
  · refine ⟨s, ?_, ?_⟩
    · rw [List.getElem?_set_ne (Ne.symm hr)]
      exact hs
    · have : sources (log ++ [(c, w)]) r = sources log r := by
        funext k
        rw [hsources, if_neg]
        exact fun h => hr (congrArg Column.request h).symm
      rwa [this]

/-- Depositing new columns adds them to the log, one after another. -/
theorem FilledBy.depositColumns (ha : a.FilledBy requests sizes tolerance log deposited)
    {entries : List (Column × Source R)} (hnodup : ((log ++ entries).map Prod.fst).Nodup)
    (h : (Action.forEach entries fun x =>
      Assembler.depositColumn x.2.alone x.2.numerators x.2.step x.1).perform a = (.ok (), b)) :
    b.FilledBy requests sizes tolerance (log ++ entries) deposited := by
  induction entries generalizing log a with
  | nil =>
    cases h
    simpa using ha
  | cons x rest ih =>
    obtain ⟨⟨⟩, d, hx, hrest⟩ := Action.bind_eq_ok.1 h
    rw [List.append_cons] at hnodup ⊢
    refine ih (ha.depositColumn (fun hmem => ?_) hx) hnodup hrest
    rw [List.map_append, List.map_append, List.nodup_append, List.nodup_append] at hnodup
    exact hnodup.1.2.2 _ hmem _ (by simp) rfl

end Assembler

/-- What a direction hands over: the step of each seed and the numerators of the variables. -/
structure Delivery (R : Type) where
  index : Nat
  direction : Direction
  steps : List R
  numerators : Table String (List R)

omit [Scalar R] in
/-- The columns of a delivery, each with its source. -/
def Delivery.columns (e : Delivery R) : List (Column × Source R) :=
  (e.direction.seeds.zip e.steps).flatMap fun (seed, step) =>
    seed.columns.map fun c => (c, ⟨e.numerators, step, !e.direction.isColored⟩)

omit [Scalar R] in
/-- A delivery writes the columns of its seeds. -/
theorem Delivery.map_fst_columns (e : Delivery R)
    (h : e.direction.seeds.length = e.steps.length) :
    e.columns.map Prod.fst = e.direction.seeds.flatMap Seed.columns := by
  rw [Delivery.columns, List.map_flatMap]
  conv_rhs => rw [← List.map_fst_zip (Nat.le_of_eq h), List.flatMap_map]
  simp [Function.comp_def]

namespace Assembler

open AssemblySlot

variable {requests : List (Request R)} {sizes : Sizes} {tolerance : R} {count : Nat}
  {log log' : List (Delivery R)} {a b : Assembler R}

/-- An assembler for a plan of `count` directions, of which those of a log are in. -/
def Received (requests : List (Request R)) (sizes : Sizes) (tolerance : R) (count : Nat)
    (log : List (Delivery R)) (a : Assembler R) : Prop :=
  a.FilledBy requests sizes tolerance (log.flatMap Delivery.columns)
    ((List.range count).map fun i => decide (i ∈ log.map Delivery.index))

/-- A new assembler has received nothing. -/
theorem received_start {plan : Plan R} (h : start requests sizes plan = .ok a) (tolerance : R) :
    Received requests sizes tolerance plan.directions.length [] { a with tolerance := tolerance } := by
  have hnone : (List.range plan.directions.length).map
      (fun i => decide (i ∈ ([] : List (Delivery R)).map Delivery.index)) =
        List.replicate plan.directions.length false := by
    simp [List.map_const']
  rw [Received, hnone]
  exact filledBy_start h tolerance

/-- **Depositing a direction adds its delivery.** -/
theorem Received.deposit (ha : a.Received requests sizes tolerance count log) {e : Delivery R}
    (hnodup : (((log ++ [e]).flatMap Delivery.columns).map Prod.fst).Nodup)
    (h : (deposit e.index e.direction e.steps e.numerators).perform a = (.ok (), b)) :
    b.Received requests sizes tolerance count (log ++ [e]) := by
  obtain ⟨⟨⟩, d, hcolumns, h⟩ := Action.bind_eq_ok.1 h
  rw [List.flatMap_append, List.flatMap_singleton] at hnodup
  have hd := ha.depositColumns hnodup (b := d) (by
    rw [Delivery.columns, Action.forEach_flatMap]
    simp only [Action.forEach_map]
    exact hcolumns)
  rw [Action.perform_get_bind] at h
  split at h
  · rename_i hlt
    cases h
    refine ⟨hd.tolerance_eq, ?_, hd.length_eq, ?_⟩
    · rw [hd.deposited_eq]
      refine List.ext_getElem (by simp) fun i hi _ => ?_
      by_cases hie : e.index = i
      · simp [hie]
      · simp [hie, Ne.symm hie]
    · rw [List.flatMap_append, List.flatMap_singleton]
      exact hd.slot
  · cases h

/-- The number of directions that are in. -/
theorem Received.completed_eq (ha : a.Received requests sizes tolerance count log) :
    a.completed = ((List.range count).filter fun i => i ∈ log.map Delivery.index).length := by
  rw [completed, ha.deposited_eq, List.count_eq_countP, List.countP_map, List.countP_eq_length_filter]
  simp [Function.comp_def]

/-- The slots stand for the requests, in order. -/
theorem Received.map_keys (ha : a.Received requests sizes tolerance count log) :
    (a.slots.map fun s => ((s.of, s.wrt), s.block)).map Prod.fst =
      requests.map fun q => (q.of, q.wrt) := by
  refine List.ext_getElem (by simpa using ha.length_eq) fun r hr hr' => ?_
  rw [List.length_map] at hr'
  obtain ⟨s, hs, hsf⟩ := ha.slot r _ (List.getElem?_eq_getElem hr')
  obtain ⟨_, rfl⟩ := List.getElem?_eq_some_iff.1 hs
  simp only [List.getElem_map, hsf.of_eq, hsf.wrt_eq]

/-- **The order of the deliveries does not matter.** -/
theorem Received.finish_eq (ha : a.Received requests sizes tolerance count log)
    (hb : b.Received requests sizes tolerance count log') (hperm : log.Perm log')
    (hnodup : ((log.flatMap Delivery.columns).map Prod.fst).Nodup)
    (hpattern : ∀ q ∈ requests, ∀ p, q.pattern = some p → p.rows.length = p.cols.length) :
    a.finish = b.finish := by
  have hdeposited : a.deposited = b.deposited := by
    rw [ha.deposited_eq, hb.deposited_eq]
    simp only [(hperm.map Delivery.index).mem_iff]
  have hsources (r : Nat) : sources (log.flatMap Delivery.columns) r =
      sources (log'.flatMap Delivery.columns) r :=
    funext fun c => Table.find_of_perm hnodup (hperm.flatMap_right _) _
  let outcome (s : AssemblySlot R) := (((s.of, s.wrt), s.block), mismatch? s)
  have houtcomes : a.slots.map outcome = b.slots.map outcome := by
    have hlength := ha.length_eq.trans hb.length_eq.symm
    refine List.ext_getElem (by simpa using hlength) fun r hr hr' => ?_
    rw [List.length_map] at hr hr'
    have hq := List.getElem?_eq_getElem (ha.length_eq ▸ hr)
    obtain ⟨s, hs, hsf⟩ := ha.slot r _ hq
    obtain ⟨t, ht, htf⟩ := hb.slot r _ hq
    obtain ⟨_, rfl⟩ := List.getElem?_eq_some_iff.1 hs
    obtain ⟨_, rfl⟩ := List.getElem?_eq_some_iff.1 ht
    rw [← hsources] at htf
    simp only [List.getElem_map, outcome, hsf.of_eq, htf.of_eq, hsf.wrt_eq, htf.wrt_eq,
      hsf.mismatch_eq htf, hsf.block_eq htf (hpattern _ (List.getElem_mem _))]
  have hblocks : a.slots.map (fun s => ((s.of, s.wrt), s.block)) =
      b.slots.map fun s => ((s.of, s.wrt), s.block) := by
    simpa [outcome, Function.comp_def] using congrArg (List.map Prod.fst) houtcomes
  have hmismatches : a.slots.filterMap mismatch? = b.slots.filterMap mismatch? := by
    simpa [outcome, Function.comp_def, List.filterMap_map] using
      congrArg (List.filterMap Prod.snd) houtcomes
  unfold finish completed
  rw [hdeposited, hblocks, hmismatches]

section Merge

/-- Where at most one of two fillings has a source for each column. -/
def Disjoint (f g : Nat → Option (Source R)) : Prop := ∀ c, f c = none ∨ g c = none

variable {q : Request R} {f g : Nat → Option (Source R)} {s t : AssemblySlot R}

/-- At a coordinate the values of two such fillings add up to that of both. -/
theorem cell_or (hzero : ∀ v : R, v + 0 = v ∧ 0 + v = v) (hfg : Disjoint f g) {of : String}
    {rows : List Nat} {k c : Nat} {v w : R} (hv : cell f of rows k c = some v)
    (hw : cell g of rows k c = some w) :
    cell (fun c => (f c).or (g c)) of rows k c = some (v + w) := by
  simp only [cell] at hv hw ⊢
  rcases hfg c with h | h
  · rw [h] at hv ⊢
    cases hv
    rw [(hzero w).2]
    simpa using hw
  · rw [h] at hw ⊢
    cases hw
    rw [(hzero v).1]
    simpa using hv

theorem beyond_or (hfg : Disjoint f g) (of : String) (rows : List Nat) (p : Pattern)
    (tolerance : R) (k c : Nat) : beyond (fun c => (f c).or (g c)) of rows p tolerance k c =
      (beyond g of rows p tolerance k c).or (beyond f of rows p tolerance k c) := by
  simp only [beyond]
  rcases hfg c with h | h <;> simp [h]

/-- Slots for one request with disjoint fillings add up. -/
theorem exists_addBlocks (hzero : ∀ v : R, v + 0 = v ∧ 0 + v = v) (hfg : Disjoint f g)
    (hs : s.FilledBy sizes tolerance q f) (ht : t.FilledBy sizes tolerance q g) :
    ∃ b, addBlocks s.block t.block = .ok b ∧
      AssemblySlot.FilledBy sizes tolerance q (fun c => (f c).or (g c))
        { s with block := b, outside := s.outside.insertAll t.outside.entries } := by
  have hrows : s.rows = t.rows := Except.ok.inj (hs.rows_eq.symm.trans ht.rows_eq)
  obtain ⟨cols, hcols, hsb⟩ := hs.block
  obtain ⟨cols', hcols', htb⟩ := ht.block
  obtain rfl := Except.ok.inj (hcols.symm.trans hcols')
  rw [← hrows] at htb
  have hout (k c : Nat) : (s.outside.insertAll t.outside.entries).get? (k, c) =
      (t.outside.get? (k, c)).or (s.outside.get? (k, c)) := by
    have ht : t.outside.get? (k, c) = Table.find (k, c) t.outside.entries := rfl
    rw [Table.get?_insertAll _ t.outside.nodup, ht]
    cases Table.find (k, c) t.outside.entries <;> rfl
  have houtside (k c : Nat) : (s.outside.insertAll t.outside.entries).get? (k, c) =
      q.pattern.bind fun p => beyond (fun c => (f c).or (g c)) q.of s.rows p tolerance k c := by
    rw [hout, hs.outside, ht.outside]
    cases q.pattern with
    | none => rfl
    | some p =>
      rw [Option.bind_some, Option.bind_some, Option.bind_some, beyond_or hfg, hrows]
  cases hp : q.pattern with
  | none =>
    rw [hp] at hsb htb
    obtain ⟨m, hm, hmrows, hmcols, hmget⟩ := hsb
    obtain ⟨n, hn, hnrows, hncols, hnget⟩ := htb
    have hshape : m.rows = n.rows ∧ m.cols = n.cols :=
      ⟨hmrows.trans hnrows.symm, hmcols.trans hncols.symm⟩
    refine ⟨.dense (.tabulate m.rows m.cols fun r c => m.entry r c + n.entry r c), ?_,
      hs.of_eq, hs.wrt_eq, hs.rows_eq, ⟨cols, hcols, ?_⟩, houtside⟩
    · simp only [addBlocks, hm, hn, DenseMatrix.combine?, hshape, and_self, if_true]
      rfl
    · rw [hp]
      refine ⟨_, rfl, hmrows, hmcols, fun k hk c hc => ?_⟩
      obtain ⟨v, hv⟩ := Option.isSome_iff_exists.1 ((m.isSome_get? k c).2 ⟨hk, hc⟩)
      obtain ⟨w, hw⟩ := Option.isSome_iff_exists.1
        ((n.isSome_get? k c).2 ⟨hshape.1 ▸ hk, hshape.2 ▸ hc⟩)
      rw [DenseMatrix.get?_tabulate, if_pos ⟨hk, hc⟩, DenseMatrix.entry_eq hv,
        DenseMatrix.entry_eq hw]
      rw [hmget k hk c hc] at hv
      rw [hnget k (hshape.1 ▸ hk) c (hshape.2 ▸ hc)] at hw
      exact (cell_or hzero hfg hv hw).symm
  | some p =>
    rw [hp] at hsb htb
    obtain ⟨values, hv, hlength, hget⟩ := hsb
    obtain ⟨others, hw, hlength', hget'⟩ := htb
    obtain ⟨sums, hadd, hsums, hgetSums⟩ : ∃ sums, addBlocks s.block t.block =
        .ok (.sparse p sums s.rows.length cols.length) ∧ sums.length = values.length ∧
        ∀ (l : Nat) v w, values[l]? = some v → others[l]? = some w → sums[l]? = some (v + w) := by
      rw [hv, hw]
      refine ⟨_, rfl, List.length_mapIdx, fun l v w hv hw => ?_⟩
      rw [List.getElem?_mapIdx, hw, hv]
      rfl
    refine ⟨.sparse p sums s.rows.length cols.length, hadd,
      hs.of_eq, hs.wrt_eq, hs.rows_eq, ⟨cols, hcols, ?_⟩, houtside⟩
    rw [hp]
    refine ⟨sums, rfl, hsums.trans hlength, fun l k c hk hc => ?_⟩
    have hl : l < p.count := (List.getElem?_eq_some_iff.1 hk).1
    have hv := List.getElem?_eq_getElem (hlength ▸ hl : l < values.length)
    have hw := List.getElem?_eq_getElem (hlength' ▸ hl : l < others.length)
    rw [hgetSums l _ _ hv hw]
    rw [hget l k c hk hc] at hv
    rw [hget' l k c hk hc] at hw
    exact (cell_or hzero hfg hv hw).symm

/-- Slots that add up pairwise are all added. -/
theorem addSlotBlocks_of_forall₂ {ss ts : List (AssemblySlot R)}
    (h : List.Forall₂ (fun s t => ∃ b, addBlocks s.block t.block = .ok b) ss ts) :
    ∃ us, addSlotBlocks ss ts = (.ok (), us) ∧ us.length = ss.length ∧
      ∀ (r : Nat) s t b, ss[r]? = some s → ts[r]? = some t → addBlocks s.block t.block = .ok b →
        us[r]? = some { s with block := b } := by
  induction h with
  | nil => exact ⟨[], rfl, rfl, by simp⟩
  | @cons s t ss ts hst _ ih =>
    obtain ⟨b, hb⟩ := hst
    obtain ⟨us, hus, hlength, hget⟩ := ih
    refine ⟨{ s with block := b } :: us, ?_, by simp [hlength], fun r => ?_⟩
    · simp only [addSlotBlocks, hb, hus]
    · cases r with
      | zero =>
        rintro s' t' b' ⟨⟩ ⟨⟩ hb'
        obtain rfl := Except.ok.inj (hb.symm.trans hb')
        rfl
      | succ r => exact hget r

/-- **Merging adds the deliveries of another assembler**, as long as no column is in both. -/
theorem Received.merge (hzero : ∀ v : R, v + 0 = v ∧ 0 + v = v)
    (ha : a.Received requests sizes tolerance count log)
    (hb : b.Received requests sizes tolerance count log')
    (hnodup : (((log ++ log').flatMap Delivery.columns).map Prod.fst).Nodup) :
    ∃ c, (merge b).perform a = (.ok (), c) ∧
      c.Received requests sizes tolerance count (log ++ log') := by
  have hsources (r : Nat) : sources ((log ++ log').flatMap Delivery.columns) r = fun c =>
      (sources (log.flatMap Delivery.columns) r c).or
        (sources (log'.flatMap Delivery.columns) r c) := by
    funext c
    rw [sources, List.flatMap_append, Table.find_append]
    rfl
  have hdisjoint (r : Nat) : Disjoint (sources (log.flatMap Delivery.columns) r)
      (sources (log'.flatMap Delivery.columns) r) := by
    intro c
    rw [List.flatMap_append, List.map_append, List.nodup_append] at hnodup
    simp only [sources, Table.find_eq_none_iff]
    by_contra! h
    exact hnodup.2.2 _ h.1 _ h.2 rfl
  have hslot {r : Nat} {q : Request R} (hq : requests[r]? = some q) :
      ∃ s t block, a.slots[r]? = some s ∧ b.slots[r]? = some t ∧
        addBlocks s.block t.block = .ok block ∧ AssemblySlot.FilledBy sizes tolerance q
          (sources ((log ++ log').flatMap Delivery.columns) r)
          { s with block := block, outside := s.outside.insertAll t.outside.entries } := by
    obtain ⟨s, hs, hsf⟩ := ha.slot r q hq
    obtain ⟨t, ht, htf⟩ := hb.slot r q hq
    obtain ⟨block, hblock, hfilled⟩ := exists_addBlocks hzero (hdisjoint r) hsf htf
    exact ⟨s, t, block, hs, ht, hblock, hsources r ▸ hfilled⟩
  have hlength : a.slots.length = b.slots.length := ha.length_eq.trans hb.length_eq.symm
  have hadd : List.Forall₂ (fun s t => ∃ block, addBlocks s.block t.block = .ok block)
      a.slots b.slots := by
    refine List.forall₂_iff_get.2 ⟨hlength, fun r hr _ => ?_⟩
    obtain ⟨s, t, block, hs, ht, hblock, -⟩ := hslot
      (List.getElem?_eq_getElem (ha.length_eq ▸ hr))
    obtain ⟨_, rfl⟩ := List.getElem?_eq_some_iff.1 hs
    obtain ⟨_, rfl⟩ := List.getElem?_eq_some_iff.1 ht
    exact ⟨block, hblock⟩
  obtain ⟨slots, hadded, hslength, hslots⟩ := addSlotBlocks_of_forall₂ hadd
  have hmerged : (Assembler.merge b).perform a = (.ok (), { a with
      deposited := List.zipWith (· || ·) a.deposited b.deposited,
      slots := List.zipWith (fun s t => { s with outside := s.outside.insertAll t.outside.entries })
        slots b.slots }) := by
    have hdirections : b.deposited.length = a.deposited.length := by
      rw [ha.deposited_eq, hb.deposited_eq, List.length_map, List.length_map]
    simp only [Assembler.merge, Action.perform_get_bind, hlength, hdirections, ne_eq, not_true_eq_false,
      or_self, if_false, hadded]
    rfl
  refine ⟨_, hmerged, ha.tolerance_eq, ?_, ?_, fun r q hq => ?_⟩
  · rw [ha.deposited_eq, hb.deposited_eq, List.zipWith_map, List.zipWith_self]
    simp
  · rw [List.length_zipWith, hslength, ← hlength, Nat.min_self]
    exact ha.length_eq
  · obtain ⟨s, t, block, hs, ht, hblock, hfilled⟩ := hslot hq
    exact ⟨_, List.getElem?_zipWith_eq_some.2 ⟨_, t, hslots r s t block hs ht hblock, ht, rfl⟩,
      hfilled⟩

end Merge

end Assembler

end Sensitivity
