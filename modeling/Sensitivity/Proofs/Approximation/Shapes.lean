import Sensitivity.Proofs.Approximation.Delivering

/-!
# The shapes of approximated blocks

The block of a request has a row for each selected entry of `of` and a column for each selected entry
of `wrt`, whatever the target answers: an assembler starts with blocks of these shapes, and a deposit
writes columns without changing a shape (`Assembler.keeps_labels_deposit`). So the blocks that a
computation stores, one for each request in order, have the shapes of their requests at the current
sizes (`Scheme.shapes_of_computeJacobian`). Of several requests for one pair only the last one keeps
its block (`Table.get?_ofList_eq_getLast`).
-/

namespace Sensitivity

/-- **The last entry of a key is the one that stays.** -/
theorem Table.get?_ofList_eq_getLast {κ α : Type} [DecidableEq κ] (es : List (κ × α)) (k : κ) :
    (ofList es).get? k = ((es.filter fun e => e.1 = k).getLast?).map Prod.snd := by
  induction es using List.reverseRecOn with
  | nil => rfl
  | append_singleton es e ih =>
    have hinsert : ofList (es ++ [e]) = (ofList es).insert e.1 e.2 := by
      simp only [ofList, insertAll, List.foldl_append, List.foldl_cons, List.foldl_nil]
    rw [hinsert, get?_insert, List.filter_append]
    by_cases h : e.1 = k
    · rw [if_pos h.symm, List.filter_cons_of_pos (by simpa using h), List.filter_nil,
        List.getLast?_concat]
      rfl
    · rw [if_neg (Ne.symm h), List.filter_cons_of_neg (by simpa using h), List.filter_nil,
        List.append_nil, ih]

variable {R : Type} [Scalar R]

namespace AssemblySlot

omit [Scalar R]

/-- The pair of a slot and the shape of its block. -/
def label (s : AssemblySlot R) : (String × String) × Nat × Nat :=
  ((s.of, s.wrt), s.block.rows, s.block.cols)

end AssemblySlot

namespace Assembler

/-- The pairs of all slots and the shapes of their blocks. -/
def labels (a : Assembler R) : List ((String × String) × Nat × Nat) :=
  a.slots.map AssemblySlot.label

/-- Writing a column leaves the shape of a block. -/
theorem label_of_writeColumn {s t : AssemblySlot R} {tolerance : R} {alone : Bool} {col : Nat}
    {numerator : List R} {h : R} (hw : writeColumn? s tolerance alone col numerator h = some t) :
    t.label = s.label := by
  obtain ⟨of, wrt, rows, block, outside⟩ := s
  cases block with
  | dense m =>
    simp only [writeColumn?, Option.bind_eq_bind, Option.bind_eq_some_iff] at hw
    obtain ⟨values, -, written, hwritten, ht⟩ := hw
    obtain ⟨hrows, hcols, -⟩ := get?_of_writeDense hwritten
    cases ht
    simp only [AssemblySlot.label, Block.rows, Block.cols, hrows, hcols]
  | sparse p values rows cols =>
    simp only [writeColumn?, Option.bind_eq_bind] at hw
    obtain ⟨written, -, hw⟩ := Option.bind_eq_some_iff.1 hw
    split at hw
    all_goals
      obtain ⟨outside, -, ht⟩ := Option.bind_eq_some_iff.1 hw
      cases ht
      rfl

theorem keeps_labels_depositColumn (alone : Bool) (numerators : Table String (List R)) (h : R)
    (c : Column) : (depositColumn alone numerators h c).Keeps labels := by
  intro v
  refine Action.preserves_get_bind fun a ha => ?_
  suffices hset : Action.Preserves (fun b : Assembler R => b.labels = v) _ from hset a ha
  refine Action.preserves_ofOutcome_bind fun slot hslot => ?_
  refine Action.preserves_ofOutcome_bind fun numerator hnumerator => ?_
  refine Action.preserves_ofOutcome_bind fun written hwritten => Action.preserves_set ?_
  have hlabel := label_of_writeColumn ((Outcome.ofOption_eq_ok _ _).1 hwritten)
  have hslot : a.labels[c.request]? = some slot.label := by
    rw [labels, List.getElem?_map, (Outcome.ofOption_eq_ok _ _).1 hslot]
    rfl
  obtain ⟨hlt, hget⟩ := List.getElem?_eq_some_iff.1 hslot
  rw [← ha, labels, List.map_set, hlabel, ← hget]
  exact List.set_getElem_self hlt

/-- **A deposit leaves the shapes of all blocks.** -/
theorem keeps_labels_deposit (index : Nat) (d : Direction) (steps : List R)
    (numerators : Table String (List R)) : (deposit index d steps numerators).Keeps labels := by
  intro v
  refine Action.preserves_bind (Action.preserves_forEach fun x => Action.preserves_forEach fun c =>
    keeps_labels_depositColumn _ numerators x.2 c v) fun _ => ?_
  refine Action.preserves_get_bind fun a ha => ?_
  split
  · exact fun _ => ha
  · exact fun _ => ha

/-- An assembler starts with the shapes of its requests. -/
theorem labels_start {requests : List (Request R)} {sizes : Sizes} {plan : Plan R}
    {a : Assembler R} (h : start requests sizes plan = .ok a) :
    List.Forall₂ (fun q (l : (String × String) × Nat × Nat) =>
      l.1 = (q.of, q.wrt) ∧ q.shape sizes = .ok l.2) requests a.labels := by
  obtain ⟨slots, hslots, ha⟩ := Except.bind_eq_ok.1 h
  cases ha
  rw [labels, List.forall₂_map_right_iff]
  refine (Except.mapM_eq_ok.1 hslots).imp fun q s hs => ?_
  obtain ⟨⟨rows, cols⟩, hshape, hs⟩ := Except.bind_eq_ok.1 hs
  obtain ⟨selected, -, hs⟩ := Except.bind_eq_ok.1 hs
  cases hs
  simp only [AssemblySlot.label, Block.rows_zeros, Block.cols_zeros, hshape, true_and]

end Assembler

namespace Scheme

variable {σ : Type} {T : Target R σ}

/-- Running through directions leaves the shapes of all blocks. -/
theorem labels_of_runDirections {frame : Frame R} {ds : List (Direction × Nat)} {a b : Assembler R}
    {w v : Session R σ} (h : (runDirections T frame ds a).perform w = (.ok b, v)) :
    b.labels = a.labels := by
  induction ds generalizing a w with
  | nil =>
    cases h
    rfl
  | cons d rest ih =>
    obtain ⟨c, u, hd, hrest⟩ := Action.bind_eq_ok.1 h
    obtain ⟨e, -, -, hc⟩ := runDirection_eq_ok.1 hd
    have hkept := Assembler.keeps_labels_deposit e.index e.direction e.steps e.numerators _ a rfl
    rw [deposited] at hc
    rw [hc] at hkept
    exact (ih hrest).trans (hkept (Outcome.answers_ok _))

/-- **The blocks that a computation stores have the shapes of their requests**, whatever the target
answers. -/
theorem shapes_of_computeJacobian {w v : Session R σ} {j : Jacobian R} (hw : w.scheme.Current T)
    (h : (computeJacobian T).perform w = (.ok j, v)) :
    ∃ sizes blocks, w.scheme.sizes T w.target = .ok sizes ∧ j = .ofList blocks ∧
      List.Forall₂ (fun q (e : (String × String) × Block R) =>
        e.1 = (q.of, q.wrt) ∧ q.shape sizes = .ok (e.2.rows, e.2.cols)) w.scheme.requests blocks := by
  obtain ⟨a, w₁, hpartition, hfinish⟩ := Action.bind_eq_ok.1 h
  obtain ⟨c, w₂, w₃, htake, hrank, -⟩ := computePartition_eq_ok.1 hpartition
  obtain ⟨-, -, sizes, hsizes, hget⟩ := planned_of_takePlan hw htake
  obtain ⟨a₀, frame, u, hstart, -, -, hrun⟩ := evaluateRank_eq_ok.1 hrank
  have hrequests : w₂.scheme.requests = w.scheme.requests := by
    have hkeeps : Action.Keeps (onSession fun _ : σ => ()) (takePlan T) := keeps_takePlan
    have := congrArg Prod.fst (onSession_eq hkeeps htake)
    simp only [onSession, identity, Prod.mk.injEq] at this
    exact this.2.2.1
  have hlabels : a.labels = a₀.labels :=
    labels_of_runDirections (a := { a₀ with tolerance := w₂.scheme.tolerance }) hrun
  refine ⟨sizes, _, hsizes, eq_of_finish hfinish, ?_⟩
  rw [List.forall₂_map_right_iff, ← hrequests]
  have hall := Assembler.labels_start hstart
  rw [← hlabels, Assembler.labels, List.forall₂_map_right_iff] at hall
  refine hall.imp fun q s hs => ⟨hs.1, ?_⟩
  rw [← Request.shape_congr hget]
  exact hs.2

end Scheme

end Sensitivity
