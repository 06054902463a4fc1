import Mathlib
import Sensitivity.Proofs.Model.Influence
import Sensitivity.Proofs.Model.Sweeping

/-!
# The matrix of a Newton step

In an affine model an output entry depends on another one along the inputs that read it (`Flow.gain`).
The matrix of a Newton step on some components is put together block by block: a block whose input
reads one of the unknowns is subtracted where its two variables stand among them
(`NewtonFrame.Over.exists_couple`). Each of these inputs belongs to one variable, and each pair of
variables with a slope has a block, so what the blocks of a component subtract adds up to what its
outputs gain (`Model.Laid.sum_linked`). All members together give the matrix `1 - gain`, and linearizing them
leaves the point as it is (`NewtonFrame.Over.yields_jacobian`).
-/

namespace Sensitivity

variable {R M : Type}

/-- How an entry of the outputs depends on another one directly: along the input entries that read
it. -/
def Flow.gain [CommRing R] (F : Flow R) (r q : Nat) : R :=
  ∑ p ∈ Finset.range F.inputs, if F.wire p = some q then F.slope r p else 0

/-- A dense block that fits is subtracted inside its window. -/
theorem Block.exists_addInto? [ExactScalar R] {A b : DenseMatrix R} (row col : Nat)
    (hrows : row + b.rows ≤ A.rows) (hcols : col + b.cols ≤ A.cols) :
    ∃ B, (Block.dense b).addInto? A row col (-1) = some B ∧ B.rows = A.rows ∧ B.cols = A.cols ∧
      ∀ i < A.rows, ∀ j < A.cols, B.entry i j = A.entry i j -
        if row ≤ i ∧ i < row + b.rows ∧ col ≤ j ∧ j < col + b.cols then b.entry (i - row) (j - col)
        else 0 := by
  have hwindow : A.holdsWindow row col b.rows b.cols = true := by
    rw [DenseMatrix.holdsWindow, Bool.and_eq_true]
    exact ⟨decide_eq_true hrows, decide_eq_true hcols⟩
  refine ⟨_, if_pos hwindow, rfl, rfl, fun i hi j hj => ?_⟩
  rw [DenseMatrix.entry_combineAt _ _ _ _ hi hj]
  split
  · rw [mul_neg_one, ← sub_eq_add_neg]
  · rw [sub_zero]

namespace ModelComponent

/-- A component begins with a block for each of its partials. -/
theorem Arranged.keys_initial [Scalar R] {c : ModelComponent R M} (hc : c.Arranged) :
    c.initial.blocks.keys = c.partials.map fun p => (p.of, p.wrt) := by
  have hentries : c.initial.blocks.entries = c.partials.map fun p => ((p.of, p.wrt),
      (Block.zeros (((c.layout.outputs.get? p.of).map Span.size).getD 0)
        (((c.layout.inputs.get? p.wrt).map Span.size).getD 0) p.provision.pattern : Block R)) := by
    refine Table.entries_ofList ?_
    rw [List.map_map]
    exact hc.distinct
  rw [Table.keys, hentries, List.map_map]
  rfl

/-- A component holds slopes in all its blocks, one for each of its partials at least. -/
structure Sloped [ExactScalar R] (c : ModelComponent R M) (law : AffineLaw R) (blocks : Jacobian R) :
    Prop where
  keys : ∀ p ∈ c.partials, (p.of, p.wrt) ∈ blocks.keys
  entries : ∀ e ∈ blocks.entries, ∃ own other b, c.layout.outputs.get? e.1.1 = some own ∧
    c.layout.inputs.get? e.1.2 = some other ∧ e.2 = .dense b ∧ law.Fills own other b

end ModelComponent

namespace Model

section Arranged

variable [Scalar R] {m : Model R M} {g : Group R M} {settings : SetupSettings}
  {c : ModelComponent R M} {d : Declarations R} {k : Nat} {kind : VariableKind}

omit [Scalar R] in
/-- What a component declares is a variable under the full name. -/
theorem Filled.exists_named (h : m.Filled k c d kind) {name : String} {own : Span}
    (hname : (c.layout.spansOf kind).get? name = some own) :
    ∃ id v, m.variableAt? id = some v ∧ v.name = joinPath c.path name ∧ v.kind = kind := by
  have hkey : name ∈ (d.variablesOf kind).keys :=
    h.keys_eq ▸ List.mem_map_of_mem ((Table.get?_eq_some_iff _ _ _).1 hname)
  obtain ⟨e, he, rfl⟩ := List.mem_map.1 hkey
  obtain ⟨j, hj, rfl⟩ := List.getElem_of_mem he
  obtain ⟨v, hv, hfull, -, hkind, -⟩ := h.declared.get (h.declared.length_eq.symm ▸ hj) hj
  exact ⟨_, v, hv, hfull, hkind⟩

omit [Scalar R] in
/-- A full name belongs to one variable. -/
theorem Consistent.eq_of_name (hm : m.Consistent g) {id id' : Nat} {v v' : ModelVariable R}
    (hv : m.variableAt? id = some v) (hv' : m.variableAt? id' = some v') (hname : v.name = v'.name) :
    v = v' := by
  have hkey {id : Nat} {v : ModelVariable R} (hv : m.variableAt? id = some v) :
      (v.name, v) ∈ m.variableTable.entries := by
    obtain ⟨e, he, rfl⟩ := List.mem_map.1 (List.mem_of_getElem? hv)
    rw [← hm.named e he]
    exact he
  have hfound := (Table.get?_eq_some_iff _ _ _).2 (hkey hv)
  rw [hname, (Table.get?_eq_some_iff _ _ _).2 (hkey hv')] at hfound
  exact (Option.some.inj hfound).symm

/-- **Components of a model declare their partials** as linearizing takes it. -/
theorem arranged_of_ofGroup (h : ofGroup g settings = .ok m) (hc : m.components[k]? = some c) :
    c.Arranged := by
  have hlaid := laid_of_ofGroup h
  have hm := consistent_of_ofGroup h
  obtain ⟨n, d, -, hcomponent⟩ := hlaid.exists_laid hc
  obtain ⟨d', -, -, hfilled⟩ := hlaid.exists_filled hc
  have hbounded (kind : VariableKind) {name : String} {own : Span}
      (hname : (c.layout.spansOf kind).get? name = some own) :
      own.stop ≤ (Flattening.spanOf c kind).size := by
    obtain ⟨j, hj⟩ := List.mem_iff_getElem?.1 ((Table.get?_eq_some_iff _ _ _).1 hname)
    cases kind with
    | input =>
      rw [Layout.spansOf, hcomponent.layout] at hj
      obtain ⟨-, -, -, -, -, -, -, hstop⟩ := hcomponent.inputs.getElem? hj
      exact hstop
    | output =>
      rw [Layout.spansOf, hcomponent.layout] at hj
      obtain ⟨-, -, -, -, -, -, -, hstop⟩ := hcomponent.outputs.getElem? hj
      exact hstop
  refine ⟨fun name kind own hown => ?_, fun name own hown => ?_,
    nodup_partials_of_ofGroup h c (List.mem_of_getElem? hc), fun p hp => ?_,
    fun e he => hcomponent.nodup_places he, fun p hp own hown => hcomponent.approximates hp hown⟩
  · unfold Layout.locate? at hown
    split at hown <;> cases hown
    · exact hbounded .input ‹_›
    · exact hbounded .output ‹_›
  · by_contra hsome
    obtain ⟨other, hother⟩ := Option.ne_none_iff_exists'.1 hsome
    obtain ⟨_, v, hv, hname, hkind⟩ := (hfilled .output).exists_named hown
    obtain ⟨_, w, hw, hname', hkind'⟩ := (hfilled .input).exists_named hother
    have hsame := hm.eq_of_name hv hw (hname.trans hname'.symm)
    rw [hsame, hkind'] at hkind
    cases hkind
  · obtain ⟨hof, hwrt⟩ := hcomponent.mem_keys hp
    obtain ⟨e, he, hname⟩ := List.mem_map.1 hof
    obtain ⟨e', he', hname'⟩ := List.mem_map.1 hwrt
    exact ⟨e.2, e'.2, (Table.get?_eq_some_iff _ _ _).2 (hname ▸ he),
      (Table.get?_eq_some_iff _ _ _).2 (hname' ▸ he')⟩

end Arranged

section Linked

variable [ExactScalar R] {m : Model R M} {laws : Nat → AffineLaw R} {c : ModelComponent R M}
  {pair : String × String} {own other : Span} {b : DenseMatrix R} {k r q o id : Nat}
  {v w x : ModelVariable R}

/-- The part of a gain that comes along the input and the output of a pair of a component. -/
def linked (m : Model R M) (laws : Nat → AffineLaw R) (c : ModelComponent R M)
    (pair : String × String) (r q : Nat) : R :=
  ∑ p ∈ Finset.range m.inputLength,
    if m.wire p = some q ∧ m.holder? .output r = c.idOf? .output pair.1 ∧
      m.holder? .input p = c.idOf? .input pair.2 then (m.flow laws).slope r p else 0

variable (hm : m.Laid)

include hm

omit [ExactScalar R] in
/-- What a component has in its layout is one of its variables. -/
theorem Laid.exists_of_get? (hc : m.components[k]? = some c) (kind : VariableKind) {name : String}
    {own : Span} (hown : (c.layout.spansOf kind).get? name = some own) :
    ∃ id v, c.idOf? kind name = some id ∧ m.variableAt? id = some v ∧ v.kind = kind ∧ v.owner = k ∧
      v.span = ⟨(Flattening.spanOf c kind).start + own.start, own.size⟩ := by
  obtain ⟨j, hj⟩ := List.mem_iff_getElem?.1 ((Table.get?_eq_some_iff _ _ _).1 hown)
  have hindex := Table.indexOf?_eq_some_iff.2 ⟨own, hj⟩
  obtain ⟨d, -, -, hfilled⟩ := hm.exists_filled hc
  have hlength : j < (Flattening.idsOf c kind).length := by
    rw [(hfilled kind).declared.length_eq]
    have hlt := (List.getElem?_eq_some_iff.1 hj).1
    have hkeys := congrArg List.length (hfilled kind).keys_eq
    simp only [Table.keys, List.length_map] at hkeys
    omega
  have hid : c.idOf? kind name = some (Flattening.idsOf c kind)[j] := by
    cases kind with
    | input => exact Option.bind_eq_some_iff.2 ⟨j, hindex, List.getElem?_eq_getElem hlength⟩
    | output => exact Option.bind_eq_some_iff.2 ⟨j, hindex, List.getElem?_eq_getElem hlength⟩
  obtain ⟨v, own', hv, hkind, howner, -, hown', hspan⟩ := hm.exists_of_idOf? hc hid
  obtain rfl := Option.some.inj (hown.symm.trans hown')
  exact ⟨_, v, hid, hv, hkind, howner, hspan⟩

omit [ExactScalar R] in
/-- The entries of a connected input read the entries of its source, each its own. -/
theorem Laid.reads_iff (hw : m.variableAt? id = some w) (hkind : w.kind = .input) {source : Nat}
    (hsource : m.source? id = some source) (hx : m.variableAt? source = some x) {p : Nat} :
    m.wire p = some q ∧ m.holder? .input p = some id ↔
      x.span.contains q = true ∧ p = w.start + (q - x.start) := by
  constructor
  · rintro ⟨hwire, hholder⟩
    obtain ⟨id', source', w', x', hid, hw', hp, hsource', hx', -, hq, hplace⟩ := hm.of_wire hwire
    obtain rfl := Option.some.inj (hholder.symm.trans hid)
    obtain rfl := Option.some.inj (hw.symm.trans hw')
    obtain rfl := Option.some.inj (hsource.symm.trans hsource')
    obtain rfl := Option.some.inj (hx.symm.trans hx')
    rw [Span.contains_iff] at hp
    simp only [ModelVariable.span] at hp
    exact ⟨hq, by omega⟩
  · rintro ⟨hq, rfl⟩
    obtain ⟨x', w', hx', -, hw', -, hsize⟩ := hm.matching _ _ hsource
    obtain rfl := Option.some.inj (hw.symm.trans hw')
    obtain rfl := Option.some.inj (hx.symm.trans hx')
    simp only [Span.contains_iff, ModelVariable.span, Span.stop] at hq
    have hp : w.span.contains (w.start + (q - x.start)) = true := by
      simp only [Span.contains_iff, ModelVariable.span, Span.stop]
      omega
    obtain ⟨hwire, -, -⟩ := hm.wire_of_source hw hp hsource hx
    refine ⟨by rw [hwire]; congr 1; omega, hkind ▸ hm.holder?_eq hw hp⟩

/-- What an entry of an output gains from another one along the entries of one input: one of these
reads the other one, at most. -/
theorem Laid.sum_reads (hv : m.variableAt? o = some v) (hvkind : v.kind = .output)
    (hw : m.variableAt? id = some w) (hwkind : w.kind = .input) (f : Nat → Nat → R) (r q : Nat) :
    (∑ p ∈ Finset.range m.inputLength, if m.wire p = some q ∧ m.holder? .output r = some o ∧
        m.holder? .input p = some id then f r p else 0) =
      match (m.source? id).bind m.variableAt? with
      | some x => if v.span.contains r ∧ x.span.contains q then f r (w.start + (q - x.start)) else 0
      | none => 0 := by
  have hout : m.holder? .output r = some o ↔ v.span.contains r = true := by
    refine ⟨fun h => ?_, fun h => hvkind ▸ hm.holder?_eq hv h⟩
    obtain ⟨v', hv', -, hcontains⟩ := exists_of_holder? h
    exact Option.some.inj (hv'.symm.trans hv) ▸ hcontains
  cases hsource : m.source? id with
  | none =>
    refine Finset.sum_eq_zero fun p _ => if_neg fun hp => ?_
    obtain ⟨id', source', w', x', hid', -, -, hsource', -⟩ := hm.of_wire hp.1
    obtain rfl := Option.some.inj (hp.2.2.symm.trans hid')
    rw [hsource] at hsource'
    cases hsource'
  | some source =>
    obtain ⟨x, -, hx, -⟩ := hm.matching _ _ hsource
    have hreads (p : Nat) := hm.reads_iff (q := q) (p := p) hw hwkind hsource hx
    simp only [Option.bind_some, hx]
    split
    · rename_i hboth
      obtain ⟨hwire, hread⟩ := (hreads _).2 ⟨hboth.2, rfl⟩
      rw [Finset.sum_eq_single (w.start + (q - x.start)),
        if_pos ⟨hwire, hout.2 hboth.1, hread⟩]
      · exact fun p _ hne => if_neg fun hp => hne ((hreads p).1 ⟨hp.1, hp.2.2⟩).2
      · exact fun hnot => absurd (Finset.mem_range.2 (hm.lt_of_holder? hread)) hnot
    · rename_i hnot
      refine Finset.sum_eq_zero fun p _ => if_neg fun hp => hnot ⟨hout.1 hp.2.1, ?_⟩
      exact ((hreads p).1 ⟨hp.1, hp.2.2⟩).1

/-- A block of slopes holds those between the entries of its variables. -/
theorem Laid.slope_of_fills (pair : String × String) (hc : m.components[k]? = some c)
    (ho : c.idOf? .output pair.1 = some o)
    (hv : m.variableAt? o = some v) (hid : c.idOf? .input pair.2 = some id)
    (hw : m.variableAt? id = some w) (hof : c.layout.outputs.get? pair.1 = some own)
    (hwrt : c.layout.inputs.get? pair.2 = some other) (hfills : (laws k).Fills own other b) :
    b.rows = v.size ∧ b.cols = w.size ∧ ∀ i < v.size, ∀ j < w.size,
      b.entry i j = (m.flow laws).slope (v.start + i) (w.start + j) := by
  obtain ⟨v', own', hv', hvkind, hvowner, -, hown, hvspan⟩ := hm.exists_of_idOf? hc ho
  obtain rfl := Option.some.inj (hv.symm.trans hv')
  obtain rfl := Option.some.inj (hof.symm.trans hown)
  obtain ⟨w', other', hw', hwkind, hwowner, -, hother, hwspan⟩ := hm.exists_of_idOf? hc hid
  obtain rfl := Option.some.inj (hw.symm.trans hw')
  obtain rfl := Option.some.inj (hwrt.symm.trans hother)
  have hcontains {x : ModelVariable R} {i : Nat} (hi : i < x.size) :
      x.span.contains (x.start + i) = true :=
    Span.contains_iff.2 ⟨Nat.le_add_right _ _, Nat.add_lt_add_left hi _⟩
  simp only [ModelVariable.span, Span.mk.injEq, Flattening.spanOf] at hvspan hwspan
  obtain ⟨hrows, hcols, hentries⟩ := hfills
  refine ⟨hrows.trans hvspan.2.symm, hcols.trans hwspan.2.symm, fun i hi j hj => ?_⟩
  have hout := hm.ownerOf?_eq hv (hcontains hi)
  have hin := hm.ownerOf?_eq hw (hcontains hj)
  rw [hvkind, hvowner, hm.owner_output_iff hc] at hout
  rw [hwkind, hwowner, hm.owner_input_iff hc] at hin
  rw [hm.slope_flow hc hout, if_pos hin,
    DenseMatrix.entry_eq (hentries i (hvspan.2 ▸ hi) j (hwspan.2 ▸ hj))]
  congr 1 <;> omega

/-- **What a pair contributes to a gain** is an entry of its block, where its output has the one entry
and the source of its input the other one. -/
theorem Laid.linked_eq (hc : m.components[k]? = some c) (ho : c.idOf? .output pair.1 = some o)
    (hv : m.variableAt? o = some v) (hid : c.idOf? .input pair.2 = some id)
    (hw : m.variableAt? id = some w) (hof : c.layout.outputs.get? pair.1 = some own)
    (hwrt : c.layout.inputs.get? pair.2 = some other) (hfills : (laws k).Fills own other b) :
    m.linked laws c pair r q = match (m.source? id).bind m.variableAt? with
      | some x => if v.span.contains r ∧ x.span.contains q then
          b.entry (r - v.start) (q - x.start) else 0
      | none => 0 := by
  obtain ⟨v', -, hv', hvkind, -⟩ := hm.exists_of_idOf? hc ho
  obtain rfl := Option.some.inj (hv.symm.trans hv')
  obtain ⟨w', -, hw', hwkind, -⟩ := hm.exists_of_idOf? hc hid
  obtain rfl := Option.some.inj (hw.symm.trans hw')
  obtain ⟨-, -, hslope⟩ := hm.slope_of_fills _ hc ho hv hid hw hof hwrt hfills
  unfold linked
  rw [ho, hid, hm.sum_reads hv hvkind hw hwkind]
  cases hsource : m.source? id with
  | none => rfl
  | some source =>
    obtain ⟨x, w', hx, -, hw', -, hsize⟩ := hm.matching _ _ hsource
    obtain rfl := Option.some.inj (hw.symm.trans hw')
    simp only [Option.bind_some, hx]
    split
    · rename_i hboth
      simp only [Span.contains_iff, ModelVariable.span, Span.stop] at hboth
      rw [hslope _ (by omega) _ (by omega)]
      congr 1
      omega
    · rfl

/-- A pair with a slope is that of the two variables that have the entries. -/
theorem Laid.exists_pair (hc : m.components[k]? = some c) (hlaw : c.Affine (laws k))
    (hr : c.outputs.contains r = true) {p : Nat} (hslope : (m.flow laws).slope r p ≠ 0) :
    ∃ d ∈ c.partials, ∀ pair : String × String, (m.holder? .output r = c.idOf? .output pair.1 ∧
      m.holder? .input p = c.idOf? .input pair.2) ↔ pair = (d.of, d.wrt) := by
  rw [hm.slope_flow hc hr, ite_ne_right_iff] at hslope
  obtain ⟨hp, hslope⟩ := hslope
  have hr : (Flattening.spanOf c .output).contains r = true := hr
  have hp : (Flattening.spanOf c .input).contains p = true := hp
  obtain ⟨o, v, ho, -, hv, hvkind, hvowner, hvr⟩ := hm.exists_holder hc hr
  obtain ⟨i, w, hi, -, hw, hwkind, hwowner, hwp⟩ := hm.exists_holder hc hp
  obtain ⟨own, hown, hvid, hvspan⟩ := hm.exists_own hc hv hvowner
  obtain ⟨other, hother, hwid, hwspan⟩ := hm.exists_own hc hw hwowner
  rw [hvkind] at hown hvid hvspan
  rw [hwkind] at hother hwid hwspan
  obtain ⟨d, hd, hpair⟩ : ∃ d ∈ c.partials, (d.of, d.wrt) = (v.localName, w.localName) := by
    by_contra hnone
    rw [hvspan, Span.contains_iff] at hvr
    rw [hwspan, Span.contains_iff] at hwp
    simp only [Flattening.spanOf, Span.stop] at hvr hwp
    have hzero := hlaw.declared _ own _ other hown hother
      (fun hmem => hnone (List.mem_map.1 hmem)) (r - (c.outputs.start + own.start)) (by omega)
      (p - (c.inputs.start + other.start)) (by omega)
    refine hslope (Eq.trans ?_ hzero)
    congr 1 <;> omega
  refine ⟨d, hd, fun pair => ?_⟩
  rw [ho, hi, hpair]
  constructor
  · rintro ⟨hfirst, hsecond⟩
    exact Prod.ext (hm.eq_of_idOf? hc hfirst.symm hvid) (hm.eq_of_idOf? hc hsecond.symm hwid)
  · rintro rfl
    exact ⟨hvid.symm, hwid.symm⟩

/-- **The pairs of an affine component make up the gains of its outputs**, and no others. -/
theorem Laid.sum_linked (hc : m.components[k]? = some c) (hlaw : c.Affine (laws k))
    {keys : List (String × String)} (hnodup : keys.Nodup)
    (hkeys : ∀ d ∈ c.partials, (d.of, d.wrt) ∈ keys) (r q : Nat) :
    (keys.map fun pair => m.linked laws c pair r q).sum =
      if c.outputs.contains r then (m.flow laws).gain r q else 0 := by
  by_cases hr : c.outputs.contains r = true
  swap
  · rw [if_neg hr]
    refine List.sum_eq_zero fun y hy => ?_
    obtain ⟨pair, -, rfl⟩ := List.mem_map.1 hy
    refine Finset.sum_eq_zero fun p _ => ?_
    rw [ite_eq_right_iff]
    rintro ⟨-, hholder, -⟩
    by_contra hslope
    -- the output of the pair would have the entry
    obtain ⟨_, e, he, hin, -⟩ := hm.of_slope_flow_ne_zero hslope
    have hin : (Flattening.spanOf e .output).contains r = true := hin
    obtain ⟨o, v, ho, -, hv, hkind, -, hcontains⟩ := hm.exists_holder he hin
    obtain ⟨v', -, hv', -, howner, -⟩ := hm.exists_of_idOf? hc (hholder.symm.trans ho)
    obtain rfl := Option.some.inj (hv.symm.trans hv')
    have howner' := hm.ownerOf?_eq hv hcontains
    rw [hkind, howner, hm.owner_output_iff hc] at howner'
    exact hr howner'
  rw [if_pos hr, ← List.sum_toFinset _ hnodup]
  unfold linked Flow.gain
  rw [Finset.sum_comm]
  refine Finset.sum_congr rfl fun p _ => ?_
  by_cases hslope : (m.flow laws).slope r p = 0
  · simp only [hslope, ite_self, Finset.sum_const_zero]
  obtain ⟨d, hd, hiff⟩ := hm.exists_pair hc hlaw hr hslope
  obtain ⟨hout, hin⟩ := (hiff _).2 rfl
  rw [Finset.sum_eq_single (d.of, d.wrt), hout, hin]
  · simp only [and_true]
    rfl
  · exact fun pair _ hne => if_neg fun h => hne ((hiff pair).1 h.2)
  · exact fun hnot => absurd (List.mem_toFinset.2 (hkeys d hd)) hnot

end Linked

section Linearized

variable [ExactScalar R] {m : Model R M} {laws : Nat → AffineLaw R} {c : ModelComponent R M}
  {k : Nat} {s : ModelState R M} {members : List Nat} {complex : Bool} {y : Array R}

/-- **A member is linearized** at its inputs, from the outputs that its law says. It holds slopes
afterwards; the point and what the other members keep are as good as before. -/
theorem yields_linearized (hc : m.components[k]? = some c)
    (hsolvable : c.Solvable (laws k) m.complex complex) (harranged : c.Arranged) (hm : m.Laid)
    (hs : m.Formed s) (hk : k ∈ members) (hkept : m.MaintainedAt members s)
    (hy : y.size = c.outputs.size) (hlaw : c.Follows (laws k) (s.inputs.readReal c.inputs) y) :
    Action.Yields (fun _ t => t.inputs = s.inputs ∧ t.outputs = s.outputs ∧ m.Formed t ∧
        m.MaintainedAt members t ∧
          ∃ l, t.components[k]? = some l ∧ c.Sloped (laws k) l.partials.blocks)
      ((m.linearizeAt k none (some y)).perform s) := by
  obtain ⟨l, hl, hsound⟩ := hkept k hk c hc
  have hx := (hs.inputs.covers (hm.stop_inputs_le hc)).size_readReal
  have hlinearized := yields_linearizeAt hc hsolvable.affine harranged hsolvable.unfailing hl
    hsound none (Option.getD_some ..) hx hy hlaw
  -- what the other components keep is not seen from outside
  have houtside (t : ModelState R M) (ht : (m.linearizeAt k none (some y)).perform s = (.ok (), t)) :
      t.point = s.point ∧ t.components.length = s.components.length ∧
        ∀ j, j ≠ k → t.components[j]? = s.components[j]? := by
    have hlength : Outside k fun s : ModelState R M => s.components.length :=
      ⟨fun s f => List.length_modify .., fun _ _ => rfl⟩
    refine ⟨(m.keeps_linearizeAt k none (some y) _).of_ok rfl ht,
      (hlength.linearizeAt m none (some y) _).of_ok rfl ht, fun j hj => ?_⟩
    have hother : Outside k fun s : ModelState R M => s.components[j]? :=
      ⟨fun s f => List.getElem?_modify_ne f s.components hj.symm, fun _ _ => rfl⟩
    exact (hother.linearizeAt m none (some y) _).of_ok rfl ht
  refine (hlinearized.and fun _ t ht => houtside t ht).mono fun _ t ht => ?_
  obtain ⟨⟨l, hl, hsound, htabulates⟩, hpoint, hlength, hothers⟩ := ht
  simp only [ModelState.point, Prod.mk.injEq] at hpoint
  obtain ⟨hinputs, houtputs, -⟩ := hpoint
  have hkeys : l.partials.blocks.keys = c.partials.map fun p => (p.of, p.wrt) :=
    (hsolvable.unfailing.congruent hsound.holds).keys.trans harranged.keys_initial
  refine ⟨hinputs, houtputs,
    ⟨hinputs ▸ hs.inputs, houtputs ▸ hs.outputs, hlength.trans hs.components⟩,
    fun j hj d hd => ?_, l, hl, fun p hp => hkeys ▸ List.mem_map_of_mem hp, fun e he => ?_⟩
  · by_cases hjk : j = k
    · subst hjk
      obtain rfl := Option.some.inj (hc.symm.trans hd)
      exact ⟨l, hl, hsound⟩
    · rw [hothers j hjk]
      exact hkept j hj d hd
  · have hmem : e.1 ∈ l.partials.blocks.keys := List.mem_map_of_mem he
    rw [hkeys] at hmem
    obtain ⟨p, hp, hpair⟩ := List.mem_map.1 hmem
    obtain ⟨own, other, b, hof, hwrt, hb, hfills⟩ := htabulates e.1
      ⟨fun _ h => (by cases h), p, hp, hpair⟩
    have hfound := (Table.get?_eq_some_iff _ _ _).2 he
    exact ⟨own, other, b, hof, hwrt, Option.some.inj (hfound.symm.trans hb), hfills⟩

end Linearized

end Model

namespace NewtonFrame

/-- An iteration on some components whose outputs are the unknowns. It pulls the outputs of all of
them. -/
structure Over (m : Model R M) (frame : NewtonFrame R) : Prop where
  nodup : frame.components.Nodup
  there : ∀ k ∈ frame.components, ∃ c, m.components[k]? = some c
  within : ∀ k ∈ frame.components, ∀ c, m.components[k]? = some c → c.outputs.Within frame.unknowns
  owned : ∀ r, frame.unknowns.contains r = true →
    ∃ k ∈ frame.components, m.ownerOf? .output r = some k
  scope : ∀ k ∈ frame.components, frame.scope.contains k = true
  inside : frame.unknowns.stop ≤ m.outputLength

section Matrix

variable {m : Model R M} {frame : NewtonFrame R}

/-- The unknowns are the outputs of the components. -/
theorem Over.unknown_iff (hframe : frame.Over m) (hm : m.Laid) {r : Nat} :
    frame.unknowns.contains r = true ↔ ∃ k ∈ frame.components, m.ownerOf? .output r = some k := by
  refine ⟨hframe.owned r, ?_⟩
  rintro ⟨k, hk, howner⟩
  obtain ⟨c, hc⟩ := hframe.there k hk
  have hin := (hm.owner_output_iff hc).1 howner
  obtain ⟨hstart, hstop⟩ := hframe.within k hk c hc
  rw [Span.contains_iff] at hin ⊢
  exact ⟨hstart.trans hin.1, hin.2.trans_le hstop⟩

/-- A variable that has an unknown is among the unknowns altogether. -/
theorem Over.within_of_contains (hframe : frame.Over m) (hm : m.Laid) {id : Nat} {x : ModelVariable R}
    (hx : m.variableAt? id = some x) (hkind : x.kind = .output) {q : Nat}
    (hq : x.span.contains q = true) (hunknown : frame.unknowns.contains q = true) : x.span.Within frame.unknowns := by
  obtain ⟨k, hk, howner⟩ := hframe.owned q hunknown
  obtain ⟨c, hc⟩ := hframe.there k hk
  have howner' := hm.ownerOf?_eq hx hq
  rw [hkind, howner] at howner'
  obtain ⟨hstart, hstop⟩ := hm.within_spanOf hc hx (Option.some.inj howner').symm
  rw [hkind] at hstart hstop
  obtain ⟨hstart', hstop'⟩ := hframe.within k hk c hc
  exact ⟨hstart'.trans hstart, hstop.trans hstop'⟩

/-- A source that begins at an unknown ends among them. -/
theorem Over.stop_le_of_contains (hframe : frame.Over m) (hm : m.Laid) {id : Nat}
    {x : ModelVariable R} (hx : m.variableAt? id = some x) (hkind : x.kind = .output)
    (hstart : frame.unknowns.contains x.start = true) : x.start + x.size ≤ frame.unknowns.stop := by
  rcases Nat.eq_zero_or_pos x.size with hzero | hpos
  · rw [hzero]
    exact (Span.contains_iff.1 hstart).2.le
  · have hfirst : x.span.contains x.start = true :=
      Span.contains_iff.2 ⟨Nat.le_refl _, Nat.lt_add_of_pos_right hpos⟩
    exact (hframe.within_of_contains hm hx hkind hfirst hstart).2

variable [ExactScalar R] {laws : Nat → AffineLaw R} {c : ModelComponent R M} {k : Nat}
  {own other : Span} {b A : DenseMatrix R} {pair : String × String} {f : Nat → Nat → R}

/-- A square matrix over the unknowns, with its entries by the places that these have. -/
structure Square (frame : NewtonFrame R) (A : DenseMatrix R) (f : Nat → Nat → R) : Prop where
  rows : A.rows = frame.unknowns.size
  cols : A.cols = frame.unknowns.size
  entry : ∀ i < frame.unknowns.size, ∀ j < frame.unknowns.size,
    A.entry i j = f (frame.unknowns.start + i) (frame.unknowns.start + j)

theorem Square.congr (hA : frame.Square A f) {g : Nat → Nat → R}
    (h : ∀ r, frame.unknowns.contains r = true → ∀ q, f r q = g r q) : frame.Square A g where
  rows := hA.rows
  cols := hA.cols
  entry i hi j hj := (hA.entry i hi j hj).trans
    (h _ (Span.contains_iff.2 ⟨Nat.le_add_right _ _, Nat.add_lt_add_left hi _⟩) _)

/-- A block is subtracted where its variables stand, if its input reads unknowns. -/
theorem couple_eq {o id : Nat} {v : ModelVariable R} (ho : c.idOf? .output pair.1 = some o)
    (hv : m.variableAt? o = some v) (hid : c.idOf? .input pair.2 = some id) (block : Block R) :
    frame.couple m c A (pair, block) = match (m.source? id).bind m.variableAt? with
      | some x => if frame.unknowns.contains x.start then
          block.addInto? A (v.start - frame.unknowns.start) (x.start - frame.unknowns.start) (-1)
        else some A
      | none => some A := by
  have houtput : (c.outputId? pair.1).bind m.variableAt? = some v :=
    Option.bind_eq_some_iff.2 ⟨o, ho, hv⟩
  have hinput : (c.inputId? pair.2).bind m.source? = m.source? id := by
    rw [show c.inputId? pair.2 = some id from hid, Option.bind_some]
  simp only [couple, houtput, hinput]
  cases (m.source? id).bind m.variableAt? <;> rfl

/-- **A block of slopes is subtracted at the place of its variables**, if its input reads unknowns. -/
theorem Over.exists_couple (hframe : frame.Over m) (hm : m.Laid) (hk : k ∈ frame.components)
    (hc : m.components[k]? = some c) (hof : c.layout.outputs.get? pair.1 = some own)
    (hwrt : c.layout.inputs.get? pair.2 = some other) (hfills : (laws k).Fills own other b)
    (hA : frame.Square A f) : ∃ B, frame.couple m c A (pair, .dense b) = some B ∧
      frame.Square B fun r q => f r q - m.linked laws c pair r q := by
  obtain ⟨o, v, ho, hv, hvkind, hvowner, hvspan⟩ := hm.exists_of_get? hc .output hof
  obtain ⟨id, w, hid, hw, -, -, hwspan⟩ := hm.exists_of_get? hc .input hwrt
  have hlinked (r q : Nat) := hm.linked_eq (r := r) (q := q) hc ho hv hid hw hof hwrt hfills
  obtain ⟨hrows, hcols, -⟩ := hfills
  rw [couple_eq ho hv hid]
  -- where the input reads no unknown the matrix stays, and there is nothing to subtract
  have hkeep (h : ∀ r q, frame.unknowns.contains q = true → m.linked laws c pair r q = 0) :
      frame.Square A fun r q => f r q - m.linked laws c pair r q :=
    ⟨hA.rows, hA.cols, fun i hi j hj => by
      rw [h _ _ (Span.contains_iff.2 ⟨Nat.le_add_right _ _, Nat.add_lt_add_left hj _⟩), sub_zero,
        hA.entry i hi j hj]⟩
  cases hread : (m.source? id).bind m.variableAt? with
  | none => exact ⟨A, rfl, hkeep fun r q _ => by rw [hlinked, hread]⟩
  | some x =>
    obtain ⟨source, hsource, hx⟩ := Option.bind_eq_some_iff.1 hread
    obtain ⟨x', w', hx', hxkind, hw', -, hsize⟩ := hm.matching _ _ hsource
    obtain rfl := Option.some.inj (hx.symm.trans hx')
    obtain rfl := Option.some.inj (hw.symm.trans hw')
    dsimp only
    by_cases hreads : frame.unknowns.contains x.start = true
    swap
    · refine ⟨A, if_neg hreads, hkeep fun r q hunknown => ?_⟩
      rw [hlinked, hread]
      refine if_neg fun h => hreads ?_
      obtain ⟨hstart, -⟩ := hframe.within_of_contains hm hx hxkind h.2 hunknown
      have hq := Span.contains_iff.1 h.2
      rw [Span.contains_iff] at hunknown ⊢
      simp only [ModelVariable.span] at hstart hq
      omega
    obtain ⟨hstart, hstop⟩ := hframe.within k hk c hc
    obtain ⟨hvstart, hvstop⟩ := hm.within_spanOf hc hv hvowner
    rw [hvkind] at hvstart hvstop
    have hxstop := hframe.stop_le_of_contains hm hx hxkind hreads
    have hxstart := (Span.contains_iff.1 hreads).1
    simp only [ModelVariable.span, Span.mk.injEq, Flattening.spanOf] at hvspan hwspan
    simp only [ModelVariable.span, Flattening.spanOf, Span.stop] at hvstart hvstop hstop hxstop
    have hrowfits : v.start - frame.unknowns.start + b.rows ≤ A.rows := by
      rw [hA.rows]
      omega
    have hcolfits : x.start - frame.unknowns.start + b.cols ≤ A.cols := by
      rw [hA.cols]
      omega
    obtain ⟨B, hB, hBrows, hBcols, hentries⟩ := Block.exists_addInto? _ _ hrowfits hcolfits
    refine ⟨B, (if_pos hreads).trans hB, hBrows.trans hA.rows, hBcols.trans hA.cols,
      fun i hi j hj => ?_⟩
    rw [hentries i (hA.rows.symm ▸ hi) j (hA.cols.symm ▸ hj), hA.entry i hi j hj, hlinked, hread]
    dsimp only
    have hplace : frame.unknowns.start + i - v.start = i - (v.start - frame.unknowns.start) := by
      omega
    have hplace' : frame.unknowns.start + j - x.start = j - (x.start - frame.unknowns.start) := by
      omega
    rw [hplace, hplace']
    refine congrArg (_ - ·) (if_congr ?_ rfl rfl)
    simp only [Span.contains_iff, ModelVariable.span, Span.stop]
    omega

/-- **All blocks of a component** are subtracted one after another. -/
theorem Over.exists_foldlM_couple (hframe : frame.Over m) (hm : m.Laid) (hk : k ∈ frame.components)
    (hc : m.components[k]? = some c) {entries : List ((String × String) × Block R)}
    (hentries : ∀ e ∈ entries, ∃ own other b, c.layout.outputs.get? e.1.1 = some own ∧
      c.layout.inputs.get? e.1.2 = some other ∧ e.2 = .dense b ∧ (laws k).Fills own other b)
    (hA : frame.Square A f) : ∃ B, entries.foldlM (frame.couple m c) A = some B ∧
      frame.Square B fun r q => f r q - (entries.map fun e => m.linked laws c e.1 r q).sum := by
  induction entries generalizing A f with
  | nil => exact ⟨A, rfl, hA.congr fun r _ q => (sub_zero _).symm⟩
  | cons e rest ih =>
    obtain ⟨⟨own, other, b, hof, hwrt, hb, hfills⟩, hrest⟩ := List.forall_mem_cons.1 hentries
    obtain ⟨B, hB, hsquare⟩ := hframe.exists_couple hm hk hc hof hwrt hfills hA
    obtain ⟨C, hC, hsquare'⟩ := ih hrest hsquare
    refine ⟨C, ?_, hsquare'.congr fun r _ q => ?_⟩
    · rw [List.foldlM_cons, show e = (e.1, .dense b) from Prod.ext rfl hb, hB]
      exact hC
    · rw [List.map_cons, List.sum_cons, sub_sub]

/-- **All blocks of a member** make up the gains of its outputs. -/
theorem Over.exists_coupled (hframe : frame.Over m) (hm : m.Laid) (hk : k ∈ frame.components)
    (hc : m.components[k]? = some c) (hlaw : c.Affine (laws k)) {blocks : Jacobian R}
    (hblocks : c.Sloped (laws k) blocks) (hA : frame.Square A f) :
    ∃ B, blocks.entries.foldlM (frame.couple m c) A = some B ∧ frame.Square B fun r q =>
      f r q - if m.ownerOf? .output r = some k then (m.flow laws).gain r q else 0 := by
  obtain ⟨B, hB, hsquare⟩ := hframe.exists_foldlM_couple hm hk hc hblocks.entries hA
  refine ⟨B, hB, hsquare.congr fun r _ q => congrArg (_ - ·) ?_⟩
  have hsum := hm.sum_linked hc hlaw blocks.nodup hblocks.keys r q
  rw [List.map_map] at hsum
  exact hsum.trans (if_congr (hm.owner_output_iff hc).symm rfl rfl)

/-- **Members are linearized and their blocks subtracted**, one after another. -/
theorem Over.yields_addPartials (hframe : frame.Over m) (hm : m.Laid) {complex : Bool} {ks : List Nat}
    (hks : ∀ k ∈ ks, k ∈ frame.components) (hnodup : ks.Nodup)
    (hmembers : ∀ k ∈ ks, ∀ c, m.components[k]? = some c →
      c.Solvable (laws k) m.complex complex ∧ c.Arranged) {s : ModelState R M} (hs : m.Formed s)
    (hkept : m.MaintainedAt frame.components s) {computed : Array R}
    (hsize : computed.size = frame.unknowns.size)
    (hlaw : ∀ k ∈ ks, ∀ c, m.components[k]? = some c →
      c.Follows (laws k) (s.inputs.readReal c.inputs)
        ((⟨c.outputs.start - frame.unknowns.start, c.outputs.size⟩ : Span).slice computed))
    (hA : frame.Square A f) :
    Action.Yields (fun B t => t.inputs = s.inputs ∧ t.outputs = s.outputs ∧ m.Formed t ∧
        m.MaintainedAt frame.components t ∧ frame.Square B fun r q => f r q -
          if ∃ k ∈ ks, m.ownerOf? .output r = some k then (m.flow laws).gain r q else 0)
      ((frame.addPartials m computed ks A).perform s) := by
  induction ks generalizing s A f with
  | nil =>
    refine Action.yields_pure ⟨rfl, rfl, hs, hkept, hA.congr fun r _ q => ?_⟩
    rw [if_neg (by simp), sub_zero]
  | cons k rest ih =>
    obtain ⟨hk, hrest⟩ := List.forall_mem_cons.1 hks
    obtain ⟨hfresh, hnodup⟩ := List.nodup_cons.1 hnodup
    obtain ⟨hown, hothers⟩ := List.forall_mem_cons.1 hmembers
    obtain ⟨hlawown, hlawothers⟩ := List.forall_mem_cons.1 hlaw
    obtain ⟨c, hc⟩ := hframe.there k hk
    obtain ⟨hsolvable, harranged⟩ := hown c hc
    obtain ⟨hstart, hstop⟩ := hframe.within k hk c hc
    have hy : ((⟨c.outputs.start - frame.unknowns.start, c.outputs.size⟩ : Span).slice
        computed).size = c.outputs.size := by
      refine Span.size_slice ?_
      simp only [Span.stop] at hstop ⊢
      omega
    refine Model.yields_component_bind hc (Action.yields_bind (Model.yields_linearized hc hsolvable
      harranged hm hs hk hkept hy (hlawown c hc)) fun _ t ht => ?_)
    obtain ⟨hinputs, houtputs, hformed, hmaintained, l, hl, hsloped⟩ := ht
    obtain ⟨B, hB, hsquare⟩ := hframe.exists_coupled hm hk hc hsolvable.affine hsloped hA
    refine Model.yields_kept_bind hl (Action.yields_ofOutcome_bind
      ((Outcome.ofOption_eq_ok _ _).2 hB) ?_)
    refine (ih hrest hnodup hothers hformed hmaintained (hinputs ▸ hlawothers) hsquare).mono
      fun C u hu => ?_
    obtain ⟨hinputs', houtputs', hformed, hmaintained, hsquare⟩ := hu
    refine ⟨hinputs'.trans hinputs, houtputs'.trans houtputs, hformed, hmaintained,
      hsquare.congr fun r _ q => ?_⟩
    by_cases hr : m.ownerOf? .output r = some k
    · have hnot : ¬ ∃ j ∈ rest, m.ownerOf? .output r = some j := by
        rintro ⟨j, hj, howner⟩
        exact hfresh (Option.some.inj (hr.symm.trans howner) ▸ hj)
      rw [if_pos hr, if_neg hnot, if_pos ⟨k, List.mem_cons_self, hr⟩, sub_zero]
    · simp only [hr, if_false, sub_zero, List.mem_cons, exists_eq_or_imp, false_or]

/-- **The matrix of a Newton step** is `1 - gain`. -/
theorem Over.yields_jacobian (hframe : frame.Over m) (hm : m.Laid) {complex : Bool}
    (hmembers : ∀ k ∈ frame.components, ∀ c, m.components[k]? = some c →
      c.Solvable (laws k) m.complex complex ∧ c.Arranged) {s : ModelState R M} (hs : m.Formed s)
    (hkept : m.MaintainedAt frame.components s) {computed : Array R}
    (hsize : computed.size = frame.unknowns.size)
    (hlaw : ∀ k ∈ frame.components, ∀ c, m.components[k]? = some c →
      c.Follows (laws k) (s.inputs.readReal c.inputs)
        ((⟨c.outputs.start - frame.unknowns.start, c.outputs.size⟩ : Span).slice computed)) :
    Action.Yields (fun B t => t.inputs = s.inputs ∧ t.outputs = s.outputs ∧ m.Formed t ∧
        m.MaintainedAt frame.components t ∧
          frame.Square B fun r q => (if r = q then 1 else 0) - (m.flow laws).gain r q)
      ((frame.jacobian m computed).perform s) := by
  have hidentity : frame.Square (.identity frame.unknowns.size) fun r q =>
      if r = q then (1 : R) else 0 := by
    refine ⟨rfl, rfl, fun i hi j hj => ?_⟩
    rw [DenseMatrix.identity, DenseMatrix.entry_tabulate _ hi hj]
    exact if_congr (Nat.add_left_cancel_iff).symm rfl rfl
  refine (hframe.yields_addPartials hm (fun k hk => hk) hframe.nodup hmembers hs hkept hsize hlaw
    hidentity).mono fun B t ht => ?_
  obtain ⟨hinputs, houtputs, hformed, hmaintained, hsquare⟩ := ht
  refine ⟨hinputs, houtputs, hformed, hmaintained, hsquare.congr fun r hr q => ?_⟩
  rw [if_pos (hframe.owned r hr)]

end Matrix

end NewtonFrame

end Sensitivity
