import Sensitivity.Proofs.Approximation.Masking

/-!
# What lies outside a pattern

Entries outside a pattern are found in two ways. An assembler notes them column by column as the
columns of a block are written, and sorts them in the end. A finished matrix is looked through at once
(`Excess.ofMatrix?`), which finds them sorted (`Excess.pairwise_entriesOf`).

Both find the same. Where every direction has a single seed, every column of a block is written once,
and all that it exceeds the tolerance by is noted (`AssemblySlot.FilledBy.mismatch_eq_excess`). So what
a computation reports of a block is what stands outside its pattern in the block that it computes
without the pattern (`Scheme.excess_of_finish`).
-/

namespace Sensitivity

variable {R σ γ : Type}

/-- A row is listed with a column when the coordinate is listed. -/
theorem Pattern.contains_rowsInCol (p : Pattern) (row col : Nat) :
    (p.rowsInCol col).contains row = p.contains row col := by
  rw [Bool.eq_iff_iff, Pattern.contains, Pattern.rowsInCol, List.contains_iff_mem,
    List.contains_iff_mem, List.mem_map]
  constructor
  · rintro ⟨⟨k, c⟩, hmem, rfl⟩
    obtain ⟨hlisted, hc⟩ := List.mem_filter.1 hmem
    obtain rfl : c = col := beq_iff_eq.1 hc
    exact hlisted
  · exact fun hmem => ⟨(row, col), List.mem_filter.2 ⟨hmem, beq_self_eq_true _⟩, rfl⟩

/-- Of results that stand for distinct keys, those for one key are the result of its entry. -/
theorem List.filter_filterMap_of_nodup {α β κ : Type} [DecidableEq κ] {f : α → Option β}
    {key : α → κ} {label : β → κ} (hlabel : ∀ a b, f a = some b → label b = key a) {xs : List α}
    (hnodup : (xs.map key).Nodup) {a : α} (ha : a ∈ xs) :
    (xs.filterMap f).filter (fun b => label b = key a) = (f a).toList := by
  induction xs with
  | nil => cases ha
  | cons x rest ih =>
    rw [List.map_cons, List.nodup_cons] at hnodup
    have hhead : (x :: rest).filterMap f = (f x).toList ++ rest.filterMap f := by
      cases hx : f x <;> simp [hx]
    rw [hhead, List.filter_append]
    rcases List.mem_cons.1 ha with rfl | ha
    · have hown : (f a).toList.filter (fun b => label b = key a) = (f a).toList :=
        List.filter_eq_self.2 fun b hb => by
          simpa using hlabel a b (Option.mem_toList.1 hb)
      have hothers : (rest.filterMap f).filter (fun b => label b = key a) = [] :=
        List.filter_eq_nil_iff.2 fun b hb hkey => by
          obtain ⟨y, hy, hb⟩ := List.mem_filterMap.1 hb
          refine hnodup.1 (List.mem_map.2 ⟨y, hy, ?_⟩)
          rw [← hlabel y b hb, of_decide_eq_true hkey]
      rw [hown, hothers, List.append_nil]
    · have hnone : (f x).toList.filter (fun b => label b = key a) = [] :=
        List.filter_eq_nil_iff.2 fun b hb hkey => by
          refine hnodup.1 (List.mem_map.2 ⟨a, ha, ?_⟩)
          rw [← hlabel x b (Option.mem_toList.1 hb), of_decide_eq_true hkey]
      rw [hnone, List.nil_append, ih hnodup.2 ha]

namespace Excess

variable [Scalar R] {m : DenseMatrix R} {p : Pattern} {tolerance : R}

/-- The entries of a matrix outside a pattern that exceed a tolerance, in the order in which they are
found. -/
def entriesOf (m : DenseMatrix R) (p : Pattern) (tolerance : R) : List ((Nat × Nat) × R) :=
  (List.range m.cols).flatMap fun c => (List.range m.rows).filterMap fun r =>
    let v := Scalar.abs (m.entry r c)
    if tolerance < v ∧ !p.contains r c then some ((r, c), v) else none

theorem ofMatrix?_eq : ofMatrix? m p tolerance = ofEntries? (entriesOf m p tolerance) := rfl

theorem mem_entriesOf {k c : Nat} {v : R} : ((k, c), v) ∈ entriesOf m p tolerance ↔
    k < m.rows ∧ c < m.cols ∧ Scalar.abs (m.entry k c) = v ∧ tolerance < v ∧
      p.contains k c = false := by
  simp only [entriesOf, List.mem_flatMap, List.mem_range, List.mem_filterMap,
    Option.ite_none_right_eq_some, Option.some.injEq, Prod.mk.injEq, Bool.not_eq_true']
  constructor
  · rintro ⟨c', hc, k', hk, ⟨hv, hp⟩, ⟨rfl, rfl⟩, rfl⟩
    exact ⟨hk, hc, rfl, hv, hp⟩
  · rintro ⟨hk, hc, rfl, hv, hp⟩
    exact ⟨c, hc, k, hk, ⟨hv, hp⟩, ⟨rfl, rfl⟩, rfl⟩

/-- Entries are found column by column and row by row, none of them twice. -/
theorem pairwise_entriesOf : (entriesOf m p tolerance).Pairwise fun a b =>
    a.1.2 < b.1.2 ∨ a.1.2 = b.1.2 ∧ a.1.1 < b.1.1 := by
  have hplace {c k : Nat} {x : (Nat × Nat) × R}
      (h : (if tolerance < Scalar.abs (m.entry k c) ∧ (!p.contains k c) = true then
        some ((k, c), Scalar.abs (m.entry k c)) else none) = some x) : x.1 = (k, c) := by
    split at h
    · cases h
      rfl
    · cases h
  refine List.pairwise_flatMap.2 ⟨fun c _ => ?_, ?_⟩
  · refine List.pairwise_filterMap.2 (List.pairwise_lt_range.imp fun {k l} hkl x hx y hy => ?_)
    rw [hplace hx, hplace hy]
    exact .inr ⟨rfl, hkl⟩
  · refine List.pairwise_lt_range.imp fun {c d} hcd x hx y hy => ?_
    obtain ⟨k, -, hx⟩ := List.mem_filterMap.1 hx
    obtain ⟨l, -, hy⟩ := List.mem_filterMap.1 hy
    rw [hplace hx, hplace hy]
    exact .inl hcd

/-- A table with these entries is sorted into them. -/
theorem mergeSort_eq_entriesOf {t : Table (Nat × Nat) R}
    (h : ∀ k c v, t.get? (k, c) = some v ↔ ((k, c), v) ∈ entriesOf m p tolerance) :
    t.entries.mergeSort Assembler.columnOrder = entriesOf m p tolerance := by
  have hnodup : ((entriesOf m p tolerance).map Prod.fst).Nodup :=
    List.pairwise_map.2 (pairwise_entriesOf.imp fun {a b} hab heq => by
      rw [heq] at hab
      omega)
  have hsorted : (entriesOf m p tolerance).mergeSort Assembler.columnOrder =
      entriesOf m p tolerance :=
    List.mergeSort_of_pairwise (pairwise_entriesOf.imp fun {a b} hab => by
      simp only [Assembler.columnOrder, Bool.or_eq_true, decide_eq_true_eq, Bool.and_eq_true,
        beq_iff_eq]
      omega)
  rw [← hsorted]
  refine AssemblySlot.sort_eq_of_get?_eq (u := ⟨_, hnodup⟩) fun pair => Option.ext fun v => ?_
  obtain ⟨k, c⟩ := pair
  rw [h, Table.get?_eq_some_iff]

end Excess

section Slot

variable [Scalar R] {sizes : Sizes} {tolerance : R} {q : Request R} {f : Nat → Option (Source R)}
  {s : AssemblySlot R}

/-- **A slot reports what stands outside its pattern**, when each of its columns was written with
nothing else perturbed: in the matrix of what was written, the entries outside the pattern that exceed
the tolerance. -/
theorem AssemblySlot.FilledBy.mismatch_eq_excess (hs : s.FilledBy sizes tolerance q f) {p : Pattern}
    (hp : q.pattern = some p) {m : DenseMatrix R} (hrows : m.rows = s.rows.length)
    (hentries : ∀ k < m.rows, ∀ c < m.cols, m.get? k c = cell f q.of s.rows k c)
    (hwritten : ∀ c < m.cols, ∃ w, f c = some w)
    (halone : ∀ c w, f c = some w → c < m.cols ∧ w.alone = true) :
    Assembler.mismatch? s = (Excess.ofMatrix? m p tolerance).map fun e => ⟨q.of, q.wrt, e⟩ := by
  rw [Assembler.mismatch?, Excess.ofMatrix?_eq, hs.of_eq, hs.wrt_eq]
  refine congrArg _ (congrArg _ (Excess.mergeSort_eq_entriesOf fun k c v => ?_))
  rw [hs.outside, hp, Option.bind_some, Excess.mem_entriesOf, ← p.contains_rowsInCol]
  have hvalue {w : Source R} (hw : f c = some w) (hc : c < m.cols) (hk : k < m.rows) {x : R}
      (hx : s.rows[k]?.bind (w.value? q.of) = some x) : m.entry k c = x := by
    refine DenseMatrix.entry_eq ((hentries k hk c hc).trans ?_)
    rw [cell, hw]
    exact hx
  simp only [beyond, Option.bind_eq_some_iff, Option.ite_none_right_eq_some, Option.some.injEq,
    Bool.not_eq_true']
  constructor
  · rintro ⟨w, hw, -, x, ⟨i, hi, hx⟩, ⟨hv, hout⟩, rfl⟩
    have hk : k < m.rows := hrows ▸ (List.getElem?_eq_some_iff.1 hi).1
    obtain ⟨hc, -⟩ := halone c w hw
    refine ⟨hk, hc, ?_, hv, hout⟩
    rw [hvalue hw hc hk (Option.bind_eq_some_iff.2 ⟨i, hi, hx⟩)]
  · rintro ⟨hk, hc, rfl, hv, hout⟩
    obtain ⟨w, hw⟩ := hwritten c hc
    obtain ⟨x, hx⟩ := Option.isSome_iff_exists.1 ((m.isSome_get? k c).2 ⟨hk, hc⟩)
    rw [hentries k hk c hc, cell, hw] at hx
    rw [hvalue hw hc hk hx] at hv ⊢
    exact ⟨w, hw, (halone c w hw).2, x, Option.bind_eq_some_iff.1 hx, ⟨hv, hout⟩, rfl⟩

end Slot

/-- A mismatch is reported for the pair of its slot. -/
theorem Assembler.label_of_mismatch [Scalar R] {s : AssemblySlot R} {m : Mismatch R}
    (h : mismatch? s = some m) : (m.of, m.wrt) = (s.of, s.wrt) := by
  obtain ⟨e, -, rfl⟩ := Option.map_eq_some_iff.1 h
  rfl

namespace Scheme

variable [Scalar R] {T : Target R σ} {view : σ → γ}

section Sources

variable [LawfulScalar R] {c : CachedPlan R} {frame : Frame R} {w : Session R σ}

/-- **Every column of a request is written**, each with nothing else perturbed, and no other column
is: where no request asks for shared directions. -/
theorem sources_of_delivered (hbuild : Plan.build w.scheme.requests c.sizes = .ok c.plan)
    (hdelivers : ∀ d ∈ c.plan.directions.zipIdx, ∃ e, delivery T frame w d = .ok e)
    (hplain : ∀ q ∈ w.scheme.requests, q.settings.directional = false) {r : Nat} {q : Request R}
    (hq : w.scheme.requests[r]? = some q) {cols : List Nat} (hcols : q.cols c.sizes = .ok cols) :
    let f := Assembler.sources ((deliveries T frame w c.plan.directions.zipIdx).flatMap
      Delivery.columns) r
    (∀ k < cols.length, ∃ u, f k = some u) ∧
      ∀ k u, f k = some u → k < cols.length ∧ u.alone = true := by
  intro f
  refine ⟨fun k hk => ?_, fun k u hu => ?_⟩
  · obtain ⟨_, _, _, _, _, _, _, _, hsource⟩ :=
      source_of_delivered (fun _ _ => map_fst_columns_of_delivery) hbuild
        (forall₂_deliveries hdelivers) hq hcols (List.getElem?_eq_getElem hk)
    exact ⟨_, hsource⟩
  · obtain ⟨e, he, hu⟩ := List.mem_flatMap.1 (Table.mem_of_find hu)
    obtain ⟨d, hd, hopt⟩ := List.mem_filterMap.1 he
    have he := Except.eq_ok_of_toOption hopt
    obtain ⟨-, -, perturbations, -, numerators, -, -, -, -, -, rfl⟩ := measured_of_delivery he
    obtain ⟨⟨seed, step⟩, hzip, hu⟩ := List.mem_flatMap.1 hu
    obtain ⟨column, hcolumn, heq⟩ := List.mem_map.1 hu
    obtain ⟨rfl, rfl⟩ := Prod.mk.inj heq
    have hseed := (List.of_mem_zip hzip).1
    have hmem : d.1 ∈ c.plan.directions :=
      List.mem_of_getElem? (List.mem_zipIdx_iff_getElem?.1 hd)
    obtain ⟨q', cols', -, hq', hcols', hindex, -⟩ :=
      Plan.exists_request_of_column hbuild hmem hseed hcolumn
    obtain rfl := Option.some.inj (hq.symm.trans hq')
    obtain rfl := Except.ok.inj (hcols.symm.trans hcols')
    refine ⟨(List.getElem?_eq_some_iff.1 hindex).1, ?_⟩
    have hsingle := Plan.seeds_eq_singleton hbuild hmem hseed hcolumn hq
      (.inl (hplain q (List.mem_of_getElem? hq)))
    dsimp only
    rw [Direction.isColored, hsingle]
    rfl

end Sources

section Reported

omit [Scalar R] in
/-- In schemes that ask for the same blocks, the requests for one of them have one number. -/
theorem SameBlocks.getElem?_unmasked {a b : Scheme R} (hab : SameBlocks a b)
    (hdistinct : (a.requests.map fun q => (q.of, q.wrt)).Nodup) {q : Request R}
    (hq : q ∈ a.requests) (hfull : q.unmasked ∈ b.requests) :
    ∃ r : Nat, a.requests[r]? = some q ∧ b.requests[r]? = some q.unmasked ∧
      (b.requests.map fun q => (q.of, q.wrt)).Nodup := by
  have hkeys (s : Scheme R) : (s.requests.map fun q => (q.of, q.wrt)) =
      (s.requests.map Request.unmasked).map fun q => (q.of, q.wrt) := by
    rw [List.map_map]
    rfl
  have hdistinct' : (b.requests.map fun q => (q.of, q.wrt)).Nodup := by
    rw [hkeys, hab.requests_eq, ← hkeys]
    exact hdistinct
  obtain ⟨r, hr⟩ := List.mem_iff_getElem?.1 hq
  obtain ⟨q', hr', hqq'⟩ : ∃ q', b.requests[r]? = some q' ∧ q'.unmasked = q.unmasked := by
    have hat := congrArg (·[r]?) hab.requests_eq
    simp only [List.getElem?_map, hr, Option.map_some] at hat
    exact Option.map_eq_some_iff.1 hat
  obtain rfl : q' = q.unmasked := by
    refine List.inj_on_of_nodup_map hdistinct' (List.mem_of_getElem? hr') hfull ?_
    exact (congrArg (fun q => (q.of, q.wrt)) hqq' :)
  exact ⟨r, hr, hr', hdistinct'⟩

/-- **A whole partition can be finished.** -/
theorem finish_of_received {c : CachedPlan R} {frame : Frame R} {w : Session R σ} {a : Assembler R}
    (hdelivers : ∀ d ∈ c.plan.directions.zipIdx, ∃ e, delivery T frame w d = .ok e)
    (hreceived : a.Received w.scheme.requests c.sizes w.scheme.tolerance c.plan.directions.length
      (deliveries T frame w c.plan.directions.zipIdx)) :
    a.finish = .ok (.ofList (a.slots.map fun s => ((s.of, s.wrt), s.block)),
      a.slots.filterMap Assembler.mismatch?) := by
  obtain ⟨hcompleted, hcount⟩ :=
    completed_of_received (List.Subperm.refl _) hdelivers hreceived
  rw [Assembler.finish, if_pos]
  rw [hcompleted, hcount, List.length_zipIdx]

/-- **The two ways of looking for entries outside a pattern agree.** What finishing a computation
reports of a request with a pattern is what stands outside the pattern in the block that the
computation without the pattern yields: the same entries in the same order, with the same largest
magnitude, and nothing where there are none. -/
theorem excess_of_finish [LawfulScalar R] (hT : T.Exact view)
    (hgraph : ∀ t u, T.graph t = T.graph u) {a b : Scheme R} (hab : SameBlocks a b)
    (ha : a.Current T) (hb : b.Current T)
    (hdistinct : (a.requests.map fun q => (q.of, q.wrt)).Nodup)
    (hplain : ∀ q ∈ a.requests, q.settings.directional = false) {t : σ} {d d' : Diagnostics}
    {x x' : Assembler R} {w w' : Session R σ}
    (h : (computePartition T 0 1).perform ⟨a, d, t⟩ = (.ok x, w))
    (h' : (computePartition T 0 1).perform ⟨b, d', t⟩ = (.ok x', w')) {q : Request R} {p : Pattern}
    (hq : q ∈ a.requests) (hp : q.pattern = some p) (hfull : q.unmasked ∈ b.requests) :
    ∃ masked mismatches full others dense, x.finish = .ok (masked, mismatches) ∧
      x'.finish = .ok (full, others) ∧ full.get? (q.of, q.wrt) = some (.dense dense) ∧
      (mismatches.filter fun m => (m.of, m.wrt) = (q.of, q.wrt)) =
        ((Excess.ofMatrix? dense p a.tolerance).map fun e => ⟨q.of, q.wrt, e⟩).toList := by
  obtain ⟨c, frame, hc, hframe, hdelivers, hx⟩ := received_of_serial hT
    (fun {u v} _ => hgraph u v) ha h
  obtain ⟨c', frame', hc', hframe', hdelivers', hx'⟩ := received_of_serial hT
    (fun {u v} _ => hgraph u v) hb h'
  have hfinish := finish_of_received hdelivers hx
  have hfinish' := finish_of_received hdelivers' hx'
  have hsame := hab.plan_eq hgraph hplain hc hc'
  obtain ⟨r, hr, hr', hdistinct'⟩ := hab.getElem?_unmasked hdistinct hq hfull
  obtain ⟨slot, hslot, hfilled⟩ := hx.slot r q hr
  obtain ⟨slot', hslot', hfilled'⟩ := hx'.slot r q.unmasked hr'
  rw [hsame.plan] at hdelivers' hfilled'
  rw [hab.deliveries_eq hsame hframe hframe' hdelivers hdelivers'] at hfilled'
  obtain ⟨cols, hcols, -⟩ := hfilled.block
  obtain ⟨cols', hcols', dense, hdense, hdrows, hdcols, hentries⟩ := hfilled'.block
  have hrows' := hfilled'.rows_eq
  rw [Request.rows_congr hsame.sizes] at hrows'
  rw [Request.cols_congr hsame.sizes] at hcols'
  obtain hslots : slot'.rows = slot.rows := Except.ok.inj (hrows'.symm.trans hfilled.rows_eq)
  obtain rfl : cols' = cols := Except.ok.inj (hcols'.symm.trans hcols)
  rw [hslots] at hdrows hentries
  obtain ⟨hwritten, halone⟩ := sources_of_delivered hc.build hdelivers hplain hr hcols
  rw [← hdcols] at hwritten halone
  refine ⟨_, _, _, _, dense, hfinish, hfinish', ?_, ?_⟩
  · exact (get?_of_slots hx' hdistinct' hslot' hfilled').trans (congrArg some hdense)
  · rw [← hfilled.mismatch_eq_excess hp hdrows hentries hwritten halone]
    have hkeys : (x.slots.map fun s => (s.of, s.wrt)).Nodup := by
      have := hx.map_keys ▸ hdistinct
      rwa [List.map_map] at this
    rw [← hfilled.of_eq, ← hfilled.wrt_eq]
    exact List.filter_filterMap_of_nodup (fun s m hm => Assembler.label_of_mismatch hm) hkeys
      (List.mem_of_getElem? hslot)

end Reported

section Overlooked

/-- A request whose pattern lists the first entry of the diagonal twice, and overlooks the second
one. -/
def overlookedRequest : Request Float :=
  { listedRequest with pattern := some ⟨[0, 0], [0, 0]⟩ }

/-- The scheme of the request. -/
def overlooked : Scheme Float := { listed with requests := [overlookedRequest] }

theorem sameBlocks_overlooked : SameBlocks overlooked unlisted := ⟨rfl, rfl, rfl⟩

theorem exists_computePartition {a : Scheme Float} (h : ((computePartition squares 0 1).perform
    ⟨a, default, [3.0, 5.0]⟩).1.toOption.isSome = true) :
    ∃ x w, (computePartition squares 0 1).perform ⟨a, default, [3.0, 5.0]⟩ = (.ok x, w) := by
  obtain ⟨x, hx⟩ := Option.isSome_iff_exists.1 h
  have hperform := Action.perform_eq_ok (Except.eq_ok_of_toOption hx)
  exact ⟨x, _, hperform⟩

/-- What is reported of the squares is the entry that the pattern overlooks. -/
theorem excess_squares : ∃ x x' w w',
    (computePartition squares 0 1).perform ⟨overlooked, default, [3.0, 5.0]⟩ = (.ok x, w) ∧
    (computePartition squares 0 1).perform ⟨unlisted, default, [3.0, 5.0]⟩ = (.ok x', w') ∧
    ∃ masked mismatches full others dense, x.finish = .ok (masked, mismatches) ∧
      x'.finish = .ok (full, others) ∧ full.get? ("y", "x") = some (.dense dense) ∧
      (mismatches.filter fun m => (m.of, m.wrt) = ("y", "x")) =
        ((Excess.ofMatrix? dense ⟨[0, 0], [0, 0]⟩ overlooked.tolerance).map
          fun e => ⟨"y", "x", e⟩).toList := by
  obtain ⟨x, w, h⟩ := exists_computePartition (a := overlooked) (by decide +kernel)
  obtain ⟨x', w', h'⟩ := exists_computePartition (a := unlisted) (by decide +kernel)
  exact ⟨x, x', w, w', h, h', excess_of_finish squares_exact (fun _ _ => rfl)
    sameBlocks_overlooked (fun _ hc => nomatch hc) (fun _ hc => nomatch hc) (by decide)
    (by decide) h h' (List.mem_singleton_self overlookedRequest) rfl (List.mem_singleton_self _)⟩

end Overlooked

end Scheme

end Sensitivity
