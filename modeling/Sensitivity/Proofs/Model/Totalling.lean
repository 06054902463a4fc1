import Sensitivity.Proofs.Model.Gathering

/-!
# Total derivatives of affine models

At a settled state of an affine model whose components never fail, total derivatives can be had in
both ways. What the root approximates are the derivatives of the model
(`Model.Affine.yields_approximatedTotals`). So is what the chain rule gives, in whichever groups
approximate their derivatives, except by design variables that such a group reads itself
(`Model.Affine.yields_chainRuleTotals`).
-/

namespace Sensitivity

variable {R M : Type} [ExactScalar R]

namespace Model

variable {m : Model R M} {laws : Nat → AffineLaw R} {g : Group R M}
  {of wrt : List (DriverVariable R)} {p : DriverVariable R × DriverVariable R}

section Derives

variable (m) in
/-- A block holds the derivatives of a response by a design variable, for their selected entries. -/
def Derives (laws : Nat → AffineLaw R) (p : DriverVariable R × DriverVariable R) (b : DenseMatrix R) :
    Prop :=
  ∃ v u, m.effectiveVariable p.1.name = .ok v ∧ m.effectiveVariable p.2.name = .ok u ∧
    b = .tabulate (selected v p.1.entries).length (selected u p.2.entries).length fun r k =>
      m.derivative laws ⟨0, m.components.length⟩ v u ((selected v p.1.entries).getD r 0)
        ((selected u p.2.entries).getD k 0)

theorem Derives.unique {b b' : DenseMatrix R} (h : m.Derives laws p b) (h' : m.Derives laws p b') :
    b = b' := by
  obtain ⟨v, u, hv, hu, rfl⟩ := h
  obtain ⟨v', u', hv', hu', rfl⟩ := h'
  obtain rfl := Except.ok.inj (hv.symm.trans hv')
  obtain rfl := Except.ok.inj (hu.symm.trans hu')
  rfl

variable (m) in
/-- A design variable that no input reads inside the outermost group around it that approximates its
derivatives. -/
def Unsealed (w : DriverVariable R) : Prop :=
  ∀ id, m.variableId w.name = .ok id → m.Unread (m.effective id)

/-- Totals with a block for each pair in turn, under the names of the pair. -/
def Lists (P : DriverVariable R × DriverVariable R → DenseMatrix R → Prop)
    (of wrt : List (DriverVariable R)) (totals : Totals R) : Prop :=
  ∃ es, totals = .ofList es ∧
    List.Forall₂ (fun p e => e.1 = (p.1.name, p.2.name) ∧ P p e.2) (pairs of wrt) es

omit [ExactScalar R] in
/-- The block that totals have for a pair is that of the last pair with its names. -/
theorem Lists.exists_get? {P : DriverVariable R × DriverVariable R → DenseMatrix R → Prop}
    {totals : Totals R} (h : Lists P of wrt totals) {o w : DriverVariable R} (ho : o ∈ of)
    (hw : w ∈ wrt) : ∃ p b, lastNamed of wrt (o.name, w.name) = some p ∧ p.2.name = w.name ∧
      totals.get? (o.name, w.name) = some b ∧ P p b := by
  obtain ⟨es, rfl, hes⟩ := h
  have hfiltered : List.Forall₂ (fun p e => e.1 = (p.1.name, p.2.name) ∧ P p e.2)
      ((pairs of wrt).filter fun p => (p.1.name, p.2.name) = (o.name, w.name))
      (es.filter fun e => e.1 = (o.name, w.name)) :=
    List.rel_filter (fun p e hp => by simp [hp.1]) hes
  have hmem : (o, w) ∈ (pairs of wrt).filter
      fun p => (p.1.name, p.2.name) = (o.name, w.name) :=
    List.mem_filter.2 ⟨mem_pairs.2 ⟨ho, hw⟩, decide_eq_true rfl⟩
  obtain ⟨p, hp⟩ := Option.isSome_iff_exists.1
    (List.getLast?_isSome.2 (List.ne_nil_of_mem hmem))
  obtain ⟨e, he, hpe⟩ := getLast?_of_forall₂ hfiltered.flip hp
  have hnames := of_decide_eq_true (List.mem_filter.1 (List.mem_of_getLast? hp)).2
  refine ⟨p, e.2, hp, (Prod.mk.inj hnames).2, ?_, hpe.2⟩
  rw [Table.get?_ofList_eq_getLast, he]
  rfl

end Derives

section Identified

omit [ExactScalar R]

/-- The variables that stand for others read nothing. -/
theorem Laid.source?_effective (hm : m.Laid) (id : Nat) : m.source? (m.effective id) = none := by
  unfold effective
  cases hsource : m.source? id with
  | none => exact hsource
  | some source =>
    rw [Option.getD_some]
    refine Option.eq_none_iff_forall_not_mem.2 fun other hother => ?_
    obtain ⟨v, -, hv, hkind, -⟩ := hm.matching _ _ hsource
    obtain ⟨-, w, -, -, hw, hwkind, -⟩ := hm.matching _ _ hother
    obtain rfl := Option.some.inj (hv.symm.trans hw)
    rw [hkind] at hwkind
    cases hwkind

/-- A variable whose entries can be selected has a variable that stands for it. -/
theorem Consistent.exists_identified (hm : m.Consistent g) {v : DriverVariable R} {entries : List Nat}
    (h : m.selection v = .ok entries) : ∃ id x, m.variableId v.name = .ok id ∧
      m.effectiveVariable v.name = .ok x ∧ m.Identified v (m.effective id, x, entries) := by
  obtain ⟨u, hu, -⟩ := Except.bind_eq_ok.1 h
  obtain ⟨id, hid, hat⟩ := Table.get?_eq_some_iff_indexOf?.1 (lookup_eq_ok.1 hu)
  have hnumber : m.variableId v.name = .ok id := by rw [variableId, hid]
  obtain ⟨x, hx⟩ : ∃ x, m.variableAt? (m.effective id) = some x := by
    unfold effective
    cases hsource : m.source? id with
    | none => exact ⟨u, hat⟩
    | some source =>
      obtain ⟨x, -, hx, -⟩ := hm.matching _ _ hsource
      exact ⟨x, hx⟩
  have heffective := effectiveVariable_eq_ok.2 ⟨id, hid, hx⟩
  exact ⟨id, x, hnumber, heffective, id, hnumber, rfl, heffective, h⟩

/-- The selected entries of a driver variable are entries of the variable that stands for it. -/
theorem Consistent.eq_selected (hm : m.Consistent g) {v : DriverVariable R} {x : ModelVariable R}
    {entries : List Nat} (hx : m.effectiveVariable v.name = .ok x)
    (h : m.selection v = .ok entries) : entries = selected x v.entries := by
  obtain ⟨u, hu, h⟩ := Except.bind_eq_ok.1 h
  rw [selected, hm.size_effective hx hu]
  cases hentries : v.entries with
  | none =>
    rw [hentries] at h
    exact (Except.ok.inj h).symm
  | some listed =>
    simp only [hentries] at h
    split at h
    · cases h
    · exact (Except.ok.inj h).symm

/-- The variables of a model are nodes of its graph. -/
theorem Laid.lt_size (hm : m.Laid) {id : Nat} {v : ModelVariable R}
    (hv : m.variableAt? id = some v) : id < m.graph.size := by
  have hlength := congrArg List.length hm.nodes_eq
  rw [List.length_map] at hlength
  obtain ⟨hlt, -⟩ := List.getElem?_eq_some_iff.1 hv
  rw [Table.values, List.length_map, ← hlength] at hlt
  exact hlt

/-- What comes after some variables of a model can be searched for, and what comes before others. -/
theorem Laid.exists_marks (hm : m.Laid) {starts ends : List Nat}
    (hstarts : ∀ id ∈ starts, ∃ v, m.variableAt? id = some v)
    (hends : ∀ id ∈ ends, ∃ v, m.variableAt? id = some v) :
    ∃ reached reaching, m.graph.reachableFrom? starts = some reached ∧
      m.graph.reaching? ends = some reaching := by
  obtain ⟨reached, hreached, -⟩ := DependencyGraph.reachableFrom?_spec hm.complete.bounded
    fun id hid => let ⟨_, hv⟩ := hstarts id hid; hm.lt_size hv
  obtain ⟨reaching, hreaching, -⟩ := DependencyGraph.reaching?_spec hm.complete.bounded
    fun id hid => let ⟨_, hv⟩ := hends id hid; hm.lt_size hv
  exact ⟨reached, reaching, hreached, hreaching⟩

end Identified

section Chain

variable [DirectSolver R]

/-- The derivatives of all entries of the outputs by those of all variables. -/
def tangents (m : Model R M) (laws : Nat → AffineLaw R) :
    Matrix (Fin m.outputLength) (Nat × Nat) R :=
  .of fun r d => match m.variableAt? d.1 with
    | some u => (m.flow laws).tangent (u.seed d.2 .input) (u.seed d.2 .output) r
    | none => 0

omit [DirectSolver R] in
/-- What is read off the tangents of a model are its derivatives. -/
theorem Laid.sensitivity_tangents (hm : m.Laid) {o d i j : Nat} {v u : ModelVariable R}
    (hv : m.variableAt? o = some v) (hi : i < v.size) (hu : m.variableAt? d = some u) (hj : j < u.size) :
    m.sensitivity (m.tangents laws) (o, i) (d, j) =
      m.derivative laws ⟨0, m.components.length⟩ v u i j := by
  unfold sensitivity derivative
  simp only [hv]
  cases hkind : v.kind with
  | output =>
    have hstop := hm.stop_le hv
    rw [hkind] at hstop
    have hlt : v.start + i < m.outputLength := (Nat.add_lt_add_left hi _).trans_le hstop
    simp only [dif_pos hlt, tangents, Matrix.of_apply, hu, hm.flowIn_all]
  | input =>
    have hplace {w : ModelVariable R} {k : Nat} (hk : k < w.size) :
        w.span.contains (w.start + k) = true :=
      Span.contains_iff.2 ⟨Nat.le_add_right _ _, Nat.add_lt_add_left hk _⟩
    refine if_congr (Iff.intro (fun h => ?_) fun h => ?_) rfl rfl
    · obtain ⟨rfl, rfl⟩ := Prod.mk.inj h
      obtain rfl := Option.some.inj (hv.symm.trans hu)
      exact ⟨hkind, rfl⟩
    · obtain ⟨hukind, hsame⟩ := h
      have hholder := hm.holder?_eq hu (hplace hj)
      rw [hukind, ← hsame, ← hkind, hm.holder?_eq hv (hplace hi)] at hholder
      obtain rfl := Option.some.inj hholder
      obtain rfl := Option.some.inj (hv.symm.trans hu)
      exact Prod.ext rfl (Nat.add_left_cancel hsame)

/-- **The chain rule gives totals** where its blocks can be collected and its system is solved. -/
theorem yields_of_collectBlocks {s : ModelState R M}
    {responses designs : List (Nat × ModelVariable R × List Nat)}
    (hresponses : List.Forall₂ m.Identified of responses)
    (hdesigns : List.Forall₂ m.Identified wrt designs) {reached reaching : List Bool}
    (hreached : m.graph.reachableFrom? (designs.map (·.1)) = some reached)
    (hreaching : m.graph.reaching? (responses.map (·.1)) = some reaching)
    {Q : Totals R → ModelState R M → Prop}
    (hblocks : Action.Yields (fun blocks t => ∃ x,
        solveSystem (m.chainMatrix blocks) (m.seeds blocks designs) = .ok x ∧
          Q (.ofList (readBlocks of wrt responses designs x)) t)
      ((m.collectBlocks reached reaching m.schedule).perform s)) :
    Action.Yields Q ((m.chainRuleTotals of wrt).perform s) := by
  have hidentify {vs : List (DriverVariable R)} {xs : List (Nat × ModelVariable R × List Nat)}
      (hxs : List.Forall₂ m.Identified vs xs) : vs.mapM (fun v => Outcome.ofExcept do
        let id := m.effective (← m.variableId v.name)
        return (id, ← m.effectiveVariable v.name, ← m.selection v)) = .ok xs := by
    refine Except.mapM_eq_ok.2 (hxs.imp fun v x ⟨id, hid, hx, hvariable, hselection⟩ => ?_)
    rw [Outcome.ofExcept_eq_ok, hid, hvariable, hselection]
    exact congrArg Except.ok (Prod.ext hx.symm rfl)
  unfold chainRuleTotals
  refine Action.yields_bind (Q := fun xs t => xs = responses ∧ t = s) ?_ fun xs t ⟨hof, ht⟩ => ?_
  · rw [Action.mapM_ofOutcome, hidentify hresponses]
    exact ⟨responses, s, rfl, rfl, rfl⟩
  rw [hof, ht]
  refine Action.yields_bind (Q := fun xs t => xs = designs ∧ t = s) ?_ fun xs t ⟨hwrt, ht⟩ => ?_
  · rw [Action.mapM_ofOutcome, hidentify hdesigns]
    exact ⟨designs, s, rfl, rfl, rfl⟩
  rw [hwrt, ht]
  refine Action.yields_ofOutcome_bind ((Outcome.ofOption_eq_ok _ _).2 hreached)
    (Action.yields_ofOutcome_bind ((Outcome.ofOption_eq_ok _ _).2 hreaching)
      (Action.yields_bind hblocks fun blocks t ⟨x, hx, hQ⟩ => ?_))
  refine Action.yields_ofOutcome_bind (x := x) ?_ (Action.yields_pure ?_)
  · rw [Outcome.mapError_eq_ok, Outcome.ofExcept_eq_ok]
    exact hx
  · simpa only [readBlocks, foldl_eq_withColumns, List.nil_append] using hQ

/-- **The system of the chain rule is solved**, whatever is asked for. -/
theorem Affine.exists_solveSystem [CompleteSolver R] (hm : m.Affine laws)
    (hconsistent : m.Consistent g) {blocks : List (LinkBlock R)} (hblocks : m.Rendering laws blocks)
    (designs : List (Nat × ModelVariable R × List Nat)) :
    ∃ x, solveSystem (m.chainMatrix blocks) (m.seeds blocks designs) = .ok x := by
  obtain ⟨hrows, hcols, hentry⟩ :=
    entry_chainMatrix hm.laid fun b hb => (hblocks.renders b hb).fitting
  have hdet := hm.det_influence hconsistent hblocks
  have hheight : (m.chainMatrix blocks).rows = (m.seeds blocks designs).rows := hrows
  generalize m.chainMatrix blocks = a at hrows hcols hentry hheight ⊢
  obtain ⟨rows, cols, entries, hsize⟩ := a
  obtain rfl : rows = m.outputLength := hrows
  have hmatrix : Matrix.of (fun i j : Fin m.outputLength =>
      (⟨m.outputLength, cols, entries, hsize⟩ : DenseMatrix R).entry i j) =
        1 - m.influence blocks := Matrix.ext hentry
  obtain ⟨x, hx, -⟩ := CompleteSolver.answers (a := ⟨m.outputLength, cols, entries, hsize⟩)
    (b := m.seeds blocks designs) hcols.symm hheight (by
      rw [hmatrix, hdet]
      exact one_ne_zero)
  exact ⟨x, solveSystem_eq_ok.2 ⟨hcols.symm, hheight, hx⟩⟩

/-- **The chain rule gives the derivatives of the model** by all design variables that no group that
approximates its derivatives reads itself. -/
theorem Affine.yields_chainRuleTotals [CompleteSolver R] {s : ModelState R M} (hm : m.Affine laws)
    (hconsistent : m.Consistent g) (honce : ∀ x ∈ m.schedule.groups, x.1.solver = .runOnce)
    (hunfailing : m.Unfailing)
    (harranged : ∀ (k : Nat) c, m.components[k]? = some c → c.Arranged)
    (hlasting : m.Lasting m.Stocked) (hs : m.Poised laws s)
    (hselected : ∀ v ∈ of ++ wrt, ∃ entries, m.selection v = .ok entries) :
    Action.Yields (fun totals _ => Lists (fun p b => m.Unsealed p.2 → m.Derives laws p b) of wrt totals)
      ((m.chainRuleTotals of wrt).perform s) := by
  have hlaid := hm.laid
  have hidentified {vs : List (DriverVariable R)}
      (hvs : ∀ v ∈ vs, ∃ entries, m.selection v = .ok entries) :
      ∃ xs, List.Forall₂ m.Identified vs xs := by
    induction vs with
    | nil => exact ⟨[], .nil⟩
    | cons v rest ih =>
      obtain ⟨entries, hentries⟩ := hvs v List.mem_cons_self
      obtain ⟨_, _, -, -, hx⟩ := hconsistent.exists_identified hentries
      obtain ⟨xs, hxs⟩ := ih fun w hw => hvs w (List.mem_cons_of_mem v hw)
      exact ⟨_, .cons hx hxs⟩
  obtain ⟨responses, hresponses⟩ := hidentified fun v hv => hselected v (List.mem_append_left _ hv)
  obtain ⟨designs, hdesigns⟩ := hidentified fun v hv => hselected v (List.mem_append_right _ hv)
  have hnodes {vs : List (DriverVariable R)} {xs : List (Nat × ModelVariable R × List Nat)}
      (hxs : List.Forall₂ m.Identified vs xs) (id : Nat) (hid : id ∈ xs.map (·.1)) :
      ∃ v, m.variableAt? id = some v := by
    obtain ⟨x, hx, rfl⟩ := List.mem_map.1 hid
    obtain ⟨v, -, hv⟩ := exists_of_forall₂ hxs hx
    exact ⟨_, (hconsistent.of_identified hv).1⟩
  obtain ⟨reached, reaching, hreached, hreaching⟩ :=
    hlaid.exists_marks (hnodes hdesigns) (hnodes hresponses)
  refine yields_of_collectBlocks hresponses hdesigns hreached hreaching
    ((hm.yields_collectBlocks hconsistent honce hunfailing harranged hlasting hreached hreaching
      hconsistent.follows (fun _ h => h) (fun _ _ _ => rfl) hs).mono fun blocks t ⟨_, hblocks⟩ => ?_)
  have hspanning := hblocks.spanning hconsistent
  obtain ⟨x, hx⟩ := hm.exists_solveSystem hconsistent hspanning.toRendering designs
  refine ⟨x, hx, _, rfl, ((List.forall₂_and_left (p := (· ∈ pairs of wrt)) _ _).2
    ⟨fun _ hp => hp, forall₂_readBlocks hresponses hdesigns x⟩).imp fun p e he => ?_⟩
  obtain ⟨hp, response, before, design, after, hresponse, hdesign, hcut, rfl⟩ := he
  refine ⟨rfl, fun hunsealed => ?_⟩
  obtain ⟨ho, hw⟩ := mem_pairs.1 hp
  obtain ⟨hv, hrows⟩ := hconsistent.of_identified hresponse
  obtain ⟨hu, hcols⟩ := hconsistent.of_identified hdesign
  have hfrom : design.1 ∈ designs.map (·.1) := standIns_eq hdesigns ▸ mem_standIns hw hdesign
  have hto : response.1 ∈ responses.map (·.1) := standIns_eq hresponses ▸ mem_standIns ho hresponse
  have hentry (r : Fin m.outputLength) (k j : Nat) (hj : design.2.2[k]? = some j)
      (hr : m.holder? .output r = some response.1) :
      x.entry r (columnCount before + k) = m.tangents laws r (design.1, j) := by
    have hlt := hcols j (List.mem_of_getElem? hj)
    have hsolution := mulVec_of_solveSystem hlaid
      (fun b hb => (hspanning.renders b hb).fitting) hcut hu hj hlt hx
    obtain ⟨id, hid, hdesignid, -⟩ := id hdesign
    rw [hm.solution_eq hconsistent hspanning hu hlt (hdesignid ▸ hlaid.source?_effective id) hfrom
      (hdesignid ▸ hunsealed id hid) (z := fun r => x.entry r (columnCount before + k)) hsolution
      ⟨response.1, hr, response.1, hto, .refl⟩]
    simp only [tangents, Matrix.of_apply, hu]
  have hblock := totalBlock_eq hlaid hv hrows hentry
  obtain ⟨-, -, -, hvariable, hselection⟩ := hresponse
  obtain ⟨-, -, -, hvariable', hselection'⟩ := hdesign
  refine ⟨_, _, hvariable, hvariable', hblock.trans ?_⟩
  rw [← hconsistent.eq_selected hvariable hselection, ← hconsistent.eq_selected hvariable' hselection']
  refine DenseMatrix.tabulate_congr fun r hr k hk => ?_
  have hmem {l : List Nat} {i : Nat} (hi : i < l.length) : l.getD i 0 ∈ l := by
    rw [List.getD_eq_getElem?_getD, List.getElem?_eq_getElem hi]
    exact List.getElem_mem hi
  exact hlaid.sensitivity_tangents hv (hrows _ (hmem hr)) hu (hcols _ (hmem hk))

end Chain

section Root

variable [DirectSolver R] {s : ModelState R M}

/-- The root is given valid requests, and everything but its scheme stays as it is. -/
theorem yields_prepareRoot {a : Scheme R} (ha : m.Rooted s a) {requests : List (Request R)}
    (hvalid : ∀ q ∈ requests, q.settings.validate = .ok ()) :
    Action.Yields (fun b t => b.requests = requests ∧
        b.Current (m.groupTarget m.root m.schedule) ∧ t.inputs = s.inputs ∧ t.outputs = s.outputs ∧
          t.components = s.components) ((m.prepareRoot a requests).perform s) := by
  unfold prepareRoot
  refine Action.yields_get_bind ?_
  split
  · rename_i hsame
    exact Action.yields_pure ⟨ha.requests_of_beq hsame, ha.current, rfl, rfl, rfl⟩
  · rcases Scheme.addRequests_cases requests with ⟨⟨q, hq, hinvalid⟩, -⟩ | ⟨-, hadd⟩
    · exact absurd (hvalid q hq) hinvalid
    obtain ⟨b, hb, hrole⟩ := hadd a.clearRequests
    refine Action.yields_ofOutcome_bind (x := b) ?_ (Action.yields_modify_bind (Action.yields_pure
      ⟨congrArg Scheme.Role.requests hrole, ha.current.clearRequests.addRequests hb, rfl, rfl, rfl⟩))
    rw [Outcome.mapError_eq_ok, Outcome.ofExcept_eq_ok]
    exact hb

omit [DirectSolver R] in
/-- Requests for pairs of names are requests for entries that are there. -/
theorem Consistent.apt_of_effective (hm : m.Consistent g) {own : Settings R}
    (hvalid : own.validate = .ok ()) {v u : ModelVariable R}
    (hv : m.effectiveVariable p.1.name = .ok v) (hu : m.effectiveVariable p.2.name = .ok u)
    {rows cols : List Nat} (hrows : m.selection p.1 = .ok rows) (hcols : m.selection p.2 = .ok cols) :
    { Request.whole v.name u.name own with
      ofEntries := p.1.entries, wrtEntries := p.2.entries }.Apt m.extent := by
  have hentries {d : DriverVariable R} {x : ModelVariable R} {entries : List Nat}
      (hx : m.effectiveVariable d.name = .ok x) (h : m.selection d = .ok entries) :
      ∃ n, m.extent x.name = some n ∧ ∀ is, d.entries = some is → ∀ i ∈ is, i < n := by
    obtain ⟨id, -, hid⟩ := effectiveVariable_eq_ok.1 hx
    obtain ⟨_, x', _, hx', hidentified⟩ := hm.exists_identified h
    obtain rfl := Except.ok.inj (hx.symm.trans hx')
    obtain ⟨-, hlt⟩ := hm.of_identified hidentified
    refine ⟨x.size, congrArg (Option.map _) (hm.get?_name hid), fun is his i hi => hlt i ?_⟩
    rw [hm.eq_selected hx h, selected, his]
    exact hi
  exact ⟨hvalid, rfl, hentries hv hrows, hentries hu hcols⟩

omit [DirectSolver R] in
/-- What holds the block of a request for a pair holds its derivatives. -/
theorem Consistent.derives_of_holds (hm : m.Consistent g) {own : Settings R} {v u : ModelVariable R}
    (hv : m.effectiveVariable p.1.name = .ok v) (hu : m.effectiveVariable p.2.name = .ok u)
    {blocks : Jacobian R} (h : m.Holds laws ⟨0, m.components.length⟩ blocks
      { Request.whole v.name u.name own with
        ofEntries := p.1.entries, wrtEntries := p.2.entries }) :
    ∃ b, blocks.get? (v.name, u.name) = some (.dense b) ∧ m.Derives laws p b := by
  obtain ⟨v', u', b, hv', hu', hb, hrows, hcols, hentries⟩ := h
  obtain ⟨_, -, hid⟩ := effectiveVariable_eq_ok.1 hv
  obtain ⟨_, -, hid'⟩ := effectiveVariable_eq_ok.1 hu
  obtain rfl := Option.some.inj ((hm.get?_name hid).symm.trans hv')
  obtain rfl := Option.some.inj ((hm.get?_name hid').symm.trans hu')
  refine ⟨b, hb, v, u, hv, hu, DenseMatrix.ext_of_get? hrows hcols fun r hr k hk => ?_⟩
  have hat {l : List Nat} {i : Nat} (hi : i < l.length) : l[i]? = some (l.getD i 0) := by
    rw [List.getD_eq_getElem?_getD, List.getElem?_eq_getElem hi, Option.getD_some]
  rw [hentries r k _ _ (hat (hrows ▸ hr)) (hat (hcols ▸ hk)), DenseMatrix.get?_tabulate,
    if_pos ⟨hrows ▸ hr, hcols ▸ hk⟩]

omit [DirectSolver R] in
/-- The block of a pair is found under the names that it was approximated with. -/
theorem yields_namedBlock {blocks : Jacobian R} {q : Request R} {b : DenseMatrix R}
    (h : blocks.get? (q.of, q.wrt) = some (.dense b)) :
    Action.Yields (fun e t => t = s ∧ e = ((p.1.name, p.2.name), b))
      ((namedBlock blocks p q : ModelWork R M _).perform s) := by
  obtain ⟨o, w⟩ := p
  unfold namedBlock
  simp only [h]
  exact ⟨_, s, rfl, rfl, rfl⟩

omit [DirectSolver R] in
/-- **Totals are requested for entries that are there**, where all that is selected is there. -/
theorem Consistent.exists_totalRequests (hm : m.Consistent g) {own : Settings R}
    (hvalid : own.validate = .ok ())
    (hselected : ∀ v ∈ of ++ wrt, ∃ entries, m.selection v = .ok entries) :
    ∃ requests, m.totalRequests of wrt own = .ok requests ∧ ∀ q ∈ requests, q.Apt m.extent := by
  have hboth {p : DriverVariable R × DriverVariable R} (hp : p ∈ pairs of wrt) :
      (∃ rows, m.selection p.1 = .ok rows) ∧ ∃ cols, m.selection p.2 = .ok cols :=
    ⟨hselected p.1 (List.mem_append_left _ (mem_pairs.1 hp).1),
      hselected p.2 (List.mem_append_right _ (mem_pairs.1 hp).2)⟩
  obtain ⟨requests, hrequests⟩ : ∃ requests, m.totalRequests of wrt own = .ok requests :=
    Except.exists_mapM fun p hp => by
      obtain ⟨⟨rows, hrows⟩, cols, hcols⟩ := hboth hp
      obtain ⟨_, v, -, hv, -⟩ := hm.exists_identified hrows
      obtain ⟨_, u, -, hu, -⟩ := hm.exists_identified hcols
      exact ⟨_, Except.bind_eq_ok.2 ⟨v, hv, Except.bind_eq_ok.2 ⟨u, hu, rfl⟩⟩⟩
  refine ⟨requests, hrequests, fun q hq => ?_⟩
  obtain ⟨p, hp, v, u, hv, hu, rfl⟩ := exists_of_forall₂ (forall₂_of_totalRequests hrequests) hq
  obtain ⟨⟨rows, hrows⟩, cols, hcols⟩ := hboth hp
  exact hm.apt_of_effective hvalid hv hu hrows hcols

omit [ExactScalar R] [DirectSolver R] in
/-- What totals are requested of is an output, or an input that reads nothing. -/
theorem Consistent.source?_of_totalRequests (hm : m.Consistent g) (hlaid : m.Laid) {own : Settings R}
    {requests : List (Request R)} (h : m.totalRequests of wrt own = .ok requests) {q : Request R}
    (hq : q ∈ requests) {v : ModelVariable R} (hv : m.variableTable.get? q.of = some v) :
    ∃ id, m.variableAt? id = some v ∧ m.source? id = none := by
  obtain ⟨_, -, _, -, v', _, hv', -, rfl⟩ := (mem_totalRequests h).1 hq
  obtain ⟨id, -, hid⟩ := effectiveVariable_eq_ok.1 hv'
  obtain rfl := Option.some.inj ((hm.get?_name hid).symm.trans hv)
  exact ⟨_, hid, hlaid.source?_effective id⟩

omit [DirectSolver R] in
/-- **The blocks of requests are named** as the pairs that these are for. -/
theorem Consistent.yields_namedBlocks (hm : m.Consistent g) {own : Settings R}
    {requests : List (Request R)} (h : m.totalRequests of wrt own = .ok requests)
    {blocks : Jacobian R}
    (hholds : ∀ q ∈ requests, m.Holds laws ⟨0, m.components.length⟩ blocks q) :
    Action.Yields (fun es _ => List.Forall₂ (fun p e => e.1 = (p.1.name, p.2.name) ∧
        m.Derives laws p e.2) (pairs of wrt) es)
      ((((pairs of wrt).zip requests).mapM fun x => namedBlock blocks x.1 x.2 :
        ModelWork R M _).perform s) := by
  have hall := forall₂_of_totalRequests h
  refine (Action.yields_mapM_kept
    (P := fun x e => e.1 = (x.1.1.name, x.1.2.name) ∧ m.Derives laws x.1 e.2) ?_).mono
      fun es t hes => ?_
  · rintro ⟨p, q⟩ hx
    obtain ⟨v, u, hv, hu, hq⟩ : ∃ v u, m.effectiveVariable p.1.name = .ok v ∧
        m.effectiveVariable p.2.name = .ok u ∧ q = { Request.whole v.name u.name own with
          ofEntries := p.1.entries, wrtEntries := p.2.entries } := List.forall₂_zip hall hx
    subst hq
    obtain ⟨block, hblock, hderives⟩ :=
      hm.derives_of_holds hv hu (hholds _ (List.of_mem_zip hx).2)
    refine (yields_namedBlock hblock).mono fun e t h => ?_
    obtain ⟨ht, rfl⟩ := h
    exact ⟨ht, rfl, hderives⟩
  · have hpairs : ((pairs of wrt).zip requests).map Prod.fst = pairs of wrt :=
      List.map_fst_zip hall.length_eq.le
    rw [← hpairs, List.forall₂_map_left_iff]
    exact hes.2

/-- **The root approximates the derivatives of the model.** -/
theorem Affine.yields_approximatedTotals (hm : m.Affine laws) (hconsistent : m.Consistent g)
    (honce : ∀ x ∈ m.groups, x.1.solver = .runOnce) (hunfailing : m.Unfailing)
    (hs : m.Poised laws s) {own : Settings R} (hown : m.root.approximation = some own)
    (hvalid : own.validate = .ok ())
    (hselected : ∀ v ∈ of ++ wrt, ∃ entries, m.selection v = .ok entries)
    (hof : (of.map fun v => m.standsFor v.name).Nodup)
    (hwrt : (wrt.map fun v => m.standsFor v.name).Nodup) :
    Action.Yields (fun totals _ => Lists (m.Derives laws) of wrt totals)
      ((m.approximatedTotals of wrt own).perform s) := by
  have hlaid := hm.laid
  obtain ⟨requests, hrequests, hapt⟩ := hconsistent.exists_totalRequests hvalid hselected
  have hresponse {q : Request R} (hq : q ∈ requests) {v : ModelVariable R} :=
    hconsistent.source?_of_totalRequests (v := v) hlaid hrequests hq
  obtain ⟨a, ha⟩ := hs.stocked.rooted (by rw [hown]; rfl)
  obtain ⟨members, hfollows⟩ := (hconsistent.groups _ List.mem_cons_self).follows
  unfold approximatedTotals
  refine Action.yields_ofOutcome_bind ((Outcome.ofExcept_eq_ok _ _).2 hrequests)
    (Action.yields_get_bind ?_)
  rw [ha.place]
  refine Action.yields_bind (yields_prepareRoot ha fun q hq => (hapt q hq).valid) fun b t ht => ?_
  obtain ⟨rfl, hcurrent, hinputs, houtputs, hcomponents⟩ := ht
  have hformed : m.Formed t := by
    obtain ⟨hin, hout, hlength⟩ := hs.formed
    exact ⟨hinputs ▸ hin, houtputs ▸ hout, hcomponents ▸ hlength⟩
  refine Action.yields_bind (hm.yields_approximateGroup (honce _ List.mem_cons_self)
    (fun x hx => honce x (List.mem_cons_of_mem _ hx)) hfollows (hunfailing.evaluableIn_real _)
    hunfailing.evaluableIn_complex hformed (hs.resting.congr hinputs houtputs)
    (hs.balanced.congr hinputs houtputs) hcurrent (nodup_of_totalRequests hrequests hof hwrt) hapt
    (fun q hq v hv hkind => ?_) fun q hq v hv hkind i hi => ?_) fun blocks u hblocks => ?_
  · obtain ⟨id, hid, -⟩ := hresponse hq hv
    obtain ⟨c, hc, -⟩ := hconsistent.owned id v hid
    rw [hconsistent.root, Span.contains_iff]
    exact ⟨Nat.zero_le _, (List.getElem?_eq_some_iff.1 hc).1.trans_eq (Nat.zero_add _).symm⟩
  · obtain ⟨id, hid, hfree⟩ := hresponse hq hv
    have hwire := hlaid.wire_of_none hid hkind
      (Span.contains_iff.2 ⟨Nat.le_add_right v.start i, Nat.add_lt_add_left hi _⟩) hfree
    exact congrArg (Option.filter (m.inScope m.root.components)) hwire
  · obtain ⟨-, hholds⟩ := hblocks
    rw [hconsistent.root] at hholds
    exact Action.yields_bind (hconsistent.yields_namedBlocks hrequests hholds) fun es t hes =>
      Action.yields_pure ⟨es, rfl, hes⟩

/-- Total derivatives are computed where there is something to compute, and all entries that are
selected are there. -/
theorem yields_computeTotals {Q : Totals R → ModelState R M → Prop} (hof : of ≠ []) (hwrt : wrt ≠ [])
    (hselected : ∀ v ∈ of ++ wrt, ∃ entries, m.selection v = .ok entries)
    (h : Action.Yields Q ((match m.root.approximation with
      | some own => m.approximatedTotals of wrt own
      | none => m.chainRuleTotals of wrt).perform s)) :
    Action.Yields Q ((m.computeTotals of wrt).perform s) := by
  unfold computeTotals
  have hsome : ¬ (of.isEmpty || wrt.isEmpty) = true := by simp [hof, hwrt]
  simp only [if_neg hsome]
  refine Action.yields_bind (Action.yields_forEach (P := (· = s)) (fun v hv t ht => ?_) rfl)
    fun _ t ht => ?_
  · subst ht
    obtain ⟨entries, hentries⟩ := hselected v hv
    exact ⟨(), _, by rw [hentries]; rfl, rfl⟩
  · rw [ht]
    exact h

end Root

end Model

end Sensitivity
