import Sensitivity.Proofs.Approximation.Selections
import Sensitivity.Proofs.Model.ChainRule
import Sensitivity.Proofs.Model.Upkeep

/-!
# Totals of selected entries

Driver variables may select entries, in any order and with repetitions. The total derivatives by them
hold these entries of the total derivatives without selections (`Model.selected_of_computeTotals`).

By the chain rule the selections only decide which entries are seeded and which ones are read: with a
solver that solves for one right-hand side at a time (`ColumnwiseSolver`) an entry has one column of
derivatives, wherever its column stands (`Model.Consistent.selected_of_chainRuleTotals`). A root that
approximates plans other directions for selected entries, but perturbs each entry on its own. So it
measures the same, as long as what it measures does not depend on what was measured before
(`Model.groupTarget_concordant`).
-/

namespace Sensitivity

/-- Solvers that solve for one right-hand side at a time: what a column of the solution holds is settled
by the matrix and that column of the right-hand side. -/
class ColumnwiseSolver (R : Type) [Scalar R] [DirectSolver R] : Prop where
  entry_eq : ∀ {a b b' x x' : DenseMatrix R}, DirectSolver.solve a b = some x →
    DirectSolver.solve a b' = some x' → ∀ {c c' : Nat}, c < b.cols → c' < b'.cols →
      b.column c = b'.column c' → ∀ r, x.entry r c = x'.entry r c'

/-- The entry of a solution is that of the solution for its column. -/
theorem Elimination.entry_of_solve {R : Type} [Scalar R] {a b x : DenseMatrix R}
    (h : solve a b = some x) {c : Nat} (hc : c < b.cols) :
    ∃ xs, Elimination.solveColumn (factor a) (b.column c) = some xs ∧
      ∀ r, x.entry r c = if r < b.rows then xs.getD r 0 else 0 := by
  obtain ⟨xs, hxs, rfl⟩ := Option.map_eq_some_iff.1 h
  have hall := Option.mapM_eq_some.1 hxs
  have hlt : c < xs.length := hall.length_eq ▸ (List.length_range.symm ▸ hc)
  have hsolved := hall.get (i := c) (by rwa [List.length_range]) hlt
  rw [List.get_eq_getElem, List.get_eq_getElem, List.getElem_range] at hsolved
  refine ⟨xs[c], hsolved, fun r => ?_⟩
  have hcolumn : xs.getD c [] = xs[c] := by simp [hlt]
  split
  · rename_i hr
    rw [DenseMatrix.entry_tabulate _ hr hc, hcolumn]
  · rename_i hr
    rw [DenseMatrix.entry, DenseMatrix.get?_tabulate, if_neg fun hin => hr hin.1, Option.getD_none]

/-- Elimination solves for one column after another. -/
instance ColumnwiseSolver.double : ColumnwiseSolver Float where
  entry_eq {a b b' x x'} h h' c c' hc hc' hcolumn r := by
    obtain ⟨xs, hxs, hentry⟩ := Elimination.entry_of_solve h hc
    obtain ⟨xs', hxs', hentry'⟩ := Elimination.entry_of_solve h' hc'
    have hrows : b.rows = b'.rows := by
      simpa [DenseMatrix.column] using congrArg List.length hcolumn
    rw [hcolumn, hxs', Option.some.injEq] at hxs
    rw [hentry, hentry', hrows, hxs]

variable {R M : Type}

/-- A driver variable with all its entries. -/
def DriverVariable.entire (v : DriverVariable R) : DriverVariable R := { v with entries := none }

variable [Scalar R] [DirectSolver R]

namespace Model

variable {m : Model R M}

section Concordant

/-- **A group is measured alike from states with the same point**, as long as what components keep is up
to date. -/
theorem groupTarget_concordant (hm : m.relaxed.Steady) (g : ModelGroup R) (body : Schedule R) :
    (m.groupTarget g body).Concordant fun s t => m.Upkept s ∧ m.Upkept t ∧ s.point = t.point where
  size _ _ := rfl
  values {s t} h name part := by
    obtain ⟨hinputs, houtputs, -, -⟩ := by simpa only [ModelState.point, Prod.mk.injEq] using h.2.2
    have hvector (kind : VariableKind) : s.vector kind = t.vector kind := by
      cases kind
      · exact hinputs
      · exact houtputs
    simp only [groupTarget, hvector]
  complexCapable _ := rfl
  complexStepActive {s t} h := by
    obtain ⟨-, -, -, hstack⟩ := by simpa only [ModelState.point, Prod.mk.injEq] using h.2.2
    simp only [groupTarget, hstack]
  graph _ _ := rfl
  measure {s t} h active owner found perturbations of baseline x y s' t' hx hy := by
    obtain ⟨hs, ht, hpoint⟩ := h
    obtain ⟨anchor, hsound⟩ := hs.sound_relaxed
    obtain ⟨anchor', hsound'⟩ := ht.sound_relaxed
    simp only [ModelState.point, Prod.mk.injEq] at hpoint
    obtain ⟨hinputs, houtputs, -, hstack⟩ := hpoint
    have hmatched : m.relaxed.Matched (anchor, anchor') s.relaxed t.relaxed :=
      ⟨hsound, hsound', hinputs, houtputs, hstack⟩
    have hcarried := m.groupTarget_carried g body
    have hx := Scheme.carries_measure hcarried active owner found perturbations of baseline s x s' hx
    have hy := Scheme.carries_measure hcarried active owner found perturbations of baseline t y t' hy
    have hcoupled : (m.relaxed.groupTarget g body).Coupled (m.relaxed.Matched (anchor, anchor')) :=
      groupTarget_coupled hm g body
    have heq := ((hcoupled.focus active).twins_measure owner found perturbations of
      baseline).outcome_eq hmatched
    rw [hx, hy] at heq
    exact Except.ok.inj heq

end Concordant

section Entire

variable {g : Group R M}

omit [Scalar R] [DirectSolver R] in
/-- What stands for a driver variable stands for it with all its entries, and the selected ones are some
of these. -/
theorem Consistent.identified_entire (hm : m.Consistent g) {v : DriverVariable R}
    {x y : Nat × ModelVariable R × List Nat} (hx : m.Identified v x) (hy : m.Identified v.entire y) :
    y.1 = x.1 ∧ y.2.1 = x.2.1 ∧ y.2.2 = List.range x.2.1.size := by
  obtain ⟨id, hid, hxid, hvariable, -⟩ := hx
  obtain ⟨id', hid', hyid, hvariable', hselection⟩ := hy
  obtain rfl := Except.ok.inj (hid.symm.trans hid')
  have hsame : x.2.1 = y.2.1 := Except.ok.inj (hvariable.symm.trans hvariable')
  refine ⟨hyid.trans hxid.symm, hsame.symm, ?_⟩
  obtain ⟨u, hu, hselection⟩ := Except.bind_eq_ok.1 hselection
  rw [hm.size_effective hvariable hu]
  exact (Except.ok.inj hselection).symm

omit [Scalar R] [DirectSolver R] in
theorem standIns_entire (vs : List (DriverVariable R)) :
    m.standIns (vs.map DriverVariable.entire) = m.standIns vs := by
  rw [standIns, standIns, List.filterMap_map]
  rfl

omit [Scalar R] [DirectSolver R] in
theorem pairs_entire (of wrt : List (DriverVariable R)) :
    pairs (of.map DriverVariable.entire) (wrt.map DriverVariable.entire) =
      (pairs of wrt).map fun p => (p.1.entire, p.2.entire) := by
  simp only [pairs, List.flatMap_map, List.map_flatMap, List.map_map]
  rfl

/-- **A block of selected entries** next to the block of all entries of the same two variables. -/
def Selected (m : Model R M) (o w : DriverVariable R) (block dense : DenseMatrix R) : Prop :=
  ∃ rows cols, m.selection o = .ok rows ∧ m.selection w = .ok cols ∧
    block.rows = rows.length ∧ block.cols = cols.length ∧ ∀ r k i j, rows[r]? = some i →
      cols[k]? = some j → i < dense.rows ∧ j < dense.cols ∧ block.entry r k = dense.entry i j

end Entire

section Chain

variable {g : Group R M}

/-- **By the chain rule** a block is read off the rows of its response and off the columns that its
design variable seeds, and these are the same whatever other columns there are. -/
theorem Consistent.selected_of_chainRuleTotals [ColumnwiseSolver R] (hm : m.Consistent g)
    {s t t' : ModelState R M} {of wrt : List (DriverVariable R)} {chosen full : Totals R}
    (hof : (of.map (·.name)).Nodup) (hwrt : (wrt.map (·.name)).Nodup)
    (h : (m.chainRuleTotals of wrt).perform s = (.ok chosen, t))
    (h' : (m.chainRuleTotals (of.map DriverVariable.entire)
      (wrt.map DriverVariable.entire)).perform s = (.ok full, t'))
    {o w : DriverVariable R} (ho : o ∈ of) (hw : w ∈ wrt) :
    ∃ block dense, chosen.get? (o.name, w.name) = some block ∧
      full.get? (o.name, w.name) = some dense ∧ m.Selected o w block dense := by
  obtain ⟨responses, designs, reached, reaching, blocks, x, hresponses, hdesigns, hreached,
    hreaching, hblocks, hx, rfl⟩ := chainRuleTotals_eq_ok h
  obtain ⟨responses', designs', reached', reaching', blocks', x', hresponses', hdesigns', hreached',
    hreaching', hblocks', hx', rfl⟩ := chainRuleTotals_eq_ok h'
  -- both collect the same blocks
  rw [← standIns_eq hdesigns] at hreached
  rw [← standIns_eq hdesigns', standIns_entire, hreached, Option.some.injEq] at hreached'
  rw [← standIns_eq hresponses] at hreaching
  rw [← standIns_eq hresponses', standIns_entire, hreaching, Option.some.injEq] at hreaching'
  rw [← hreached', ← hreaching', hblocks, Prod.mk.injEq, Except.ok.injEq] at hblocks'
  obtain ⟨rfl, -⟩ := hblocks'
  have hnames (vs : List (DriverVariable R)) :
      (vs.map DriverVariable.entire).map (·.name) = vs.map (·.name) := by
    rw [List.map_map]
    rfl
  obtain ⟨block, ⟨response, before, design, after, hresponse, hdesign, hcut, hread⟩, hblock⟩ :=
    exists_get?_readBlocks hresponses hdesigns hof hwrt ho hw x
  obtain ⟨dense, ⟨response', before', design', after', hresponse', hdesign', hcut', hread'⟩,
    hdense⟩ := exists_get?_readBlocks hresponses' hdesigns' (hnames of ▸ hof) (hnames wrt ▸ hwrt)
      (List.mem_map_of_mem ho) (List.mem_map_of_mem hw) x'
  obtain rfl := (Prod.mk.inj hread).2
  obtain rfl := (Prod.mk.inj hread').2
  refine ⟨_, _, hblock, hdense, response.2.2, design.2.2, ?_, ?_, rfl, rfl, fun r k i j hr hk => ?_⟩
  · obtain ⟨-, -, -, -, hselection⟩ := hresponse
    exact hselection
  · obtain ⟨-, -, -, -, hselection⟩ := hdesign
    exact hselection
  obtain ⟨hid, hvariable, hrows⟩ := hm.identified_entire hresponse hresponse'
  obtain ⟨hid', hvariable', hcols⟩ := hm.identified_entire hdesign hdesign'
  have hi := (hm.of_identified hresponse).2 i (List.mem_of_getElem? hr)
  have hj := (hm.of_identified hdesign).2 j (List.mem_of_getElem? hk)
  have hr' : response'.2.2[i]? = some i := by rw [hrows, List.getElem?_range hi]
  have hk' : design'.2.2[j]? = some j := by rw [hcols, List.getElem?_range hj]
  -- the entry of the design variable seeds one column of either right-hand side
  obtain ⟨-, -, hsolve⟩ := solveSystem_eq_ok.1 hx
  obtain ⟨-, -, hsolve'⟩ := solveSystem_eq_ok.1 hx'
  obtain ⟨hlt, hcolumn⟩ : _ ∧ (m.seeds blocks designs).column _ = _ := column_seeds hcut hk
  obtain ⟨hlt', hcolumn'⟩ : _ ∧ (m.seeds blocks designs').column _ = _ := column_seeds hcut' hk'
  rw [hid', hvariable', ← hcolumn] at hcolumn'
  have hentry := ColumnwiseSolver.entry_eq hsolve hsolve' hlt hlt' hcolumn'.symm
  have hi' : i < response'.2.2.length := (List.getElem?_eq_some_iff.1 hr').1
  have hj' : j < design'.2.2.length := (List.getElem?_eq_some_iff.1 hk').1
  refine ⟨hi', hj', ?_⟩
  rw [totalBlock, totalBlock, DenseMatrix.entry_tabulate _ (List.getElem?_eq_some_iff.1 hr).1
    (List.getElem?_eq_some_iff.1 hk).1, DenseMatrix.entry_tabulate _ hi' hj']
  simp only [hid, hid', hvariable, hr, hr', hk, hk', List.getD_eq_getElem?_getD, Option.getD_some,
    hentry]

end Chain

section Root

variable {g : Group R M}

/-- Preparing the root gives it a scheme with the requests, and leaves the point and the components. -/
theorem rooted_of_prepareRoot [StrictScalar R] {a b : Scheme R} {s t : ModelState R M}
    (ha : m.Rooted s a) {requests : List (Request R)}
    (h : (m.prepareRoot a requests).perform s = (.ok b, t)) :
    m.Rooted t b ∧ b.requests = requests ∧ t.point = s.point ∧ t.components = s.components := by
  unfold prepareRoot at h
  rw [Action.perform_get_bind] at h
  split at h
  · rename_i hsame
    cases h
    exact ⟨ha, ha.requests_of_beq hsame, rfl, rfl⟩
  · obtain ⟨b', hb', h⟩ := Action.ofOutcome_bind_eq_ok.1 h
    obtain ⟨_, t', hmodify, h⟩ := Action.bind_eq_ok.1 h
    cases hmodify
    cases h
    rw [Outcome.mapError_eq_ok, Outcome.ofExcept_eq_ok] at hb'
    rcases Scheme.clearRequests_cases (.empty m.root.label .group m.policy) requests with
      ⟨-, e, he⟩ | hok
    · rw [he] at hb'
      cases hb'
    obtain ⟨b', hb'', hfurnished, hrequests⟩ := hok a ha.toFurnished
    obtain rfl : b = b' := Except.ok.inj (hb'.symm.trans hb'')
    refine ⟨⟨hfurnished, ?_, ha.current.clearRequests.addRequests hb', fun qs hqs => ?_⟩, hrequests,
      rfl, rfl⟩
    · exact List.getElem?_set_self (List.getElem?_eq_some_iff.1 ha.place).1
    · exact hrequests.trans (Option.some.inj hqs)

omit [Scalar R] [DirectSolver R] in
/-- The requests for all entries are those for the selected ones without the selections. -/
theorem totalRequests_entire {of wrt : List (DriverVariable R)} {settings : Settings R}
    {requests requests' : List (Request R)} (h : m.totalRequests of wrt settings = .ok requests)
    (h' : m.totalRequests (of.map DriverVariable.entire) (wrt.map DriverVariable.entire) settings =
      .ok requests') : requests' = requests.map Request.entire := by
  have hall := forall₂_of_totalRequests h'
  rw [pairs_entire, List.forall₂_map_left_iff] at hall
  have hboth := forall₂_comp (forall₂_of_totalRequests h).flip hall
  symm
  rw [← List.forall₂_eq_eq_eq, List.forall₂_map_left_iff]
  refine hboth.imp fun q q' hq => ?_
  obtain ⟨p, ⟨v, u, hv, hu, rfl⟩, v', u', hv', hu', rfl⟩ := hq
  obtain rfl := Except.ok.inj (hv.symm.trans hv')
  obtain rfl := Except.ok.inj (hu.symm.trans hu')
  rfl

omit [Scalar R] [DirectSolver R] in
/-- Where names stand for distinct variables, requests ask for distinct pairs of variables, and those by
one variable are made for one design variable. -/
theorem distinct_of_totalRequests {of wrt : List (DriverVariable R)} {settings : Settings R}
    {requests : List (Request R)} (h : m.totalRequests of wrt settings = .ok requests)
    (hof : (of.map fun v => m.standsFor v.name).Nodup)
    (hwrt : (wrt.map fun v => m.standsFor v.name).Nodup) :
    (requests.map fun q => (q.of, q.wrt)).Nodup ∧
      ∀ p ∈ requests, ∀ q ∈ requests, p.wrt = q.wrt → p.wrtEntries = q.wrtEntries := by
  refine ⟨nodup_of_totalRequests h hof hwrt, fun p hp q hq hpq => ?_⟩
  obtain ⟨_, -, w, hw, _, u, -, hu, rfl⟩ := (mem_totalRequests h).1 hp
  obtain ⟨_, -, w', hw', _, u', -, hu', rfl⟩ := (mem_totalRequests h).1 hq
  have hpq : u.name = u'.name := hpq
  obtain rfl : w = w' := List.inj_on_of_nodup_map hwrt hw hw' (by
    rw [standsFor_eq hu, standsFor_eq hu', hpq])
  rfl

/-- **A root that approximates its derivatives** measures the entries of a design variable one by one,
so a block of selected entries holds what it measures for these. -/
theorem Consistent.selected_of_approximatedTotals [StrictScalar R] (hm : m.Consistent g)
    (hsteady : m.relaxed.Steady) {s t t' : ModelState R M} (hroot : ∃ a, m.Rooted s a)
    (hupkept : m.Upkept s) {of wrt : List (DriverVariable R)} {settings : Settings R}
    {chosen full : Totals R} (hofs : (of.map fun v => m.standsFor v.name).Nodup)
    (hwrts : (wrt.map fun v => m.standsFor v.name).Nodup)
    (hof : (of.map (·.name)).Nodup) (hwrt : (wrt.map (·.name)).Nodup)
    (h : (m.approximatedTotals of wrt settings).perform s = (.ok chosen, t))
    (h' : (m.approximatedTotals (of.map DriverVariable.entire) (wrt.map DriverVariable.entire)
      settings).perform s = (.ok full, t')) {o w : DriverVariable R} (ho : o ∈ of) (hw : w ∈ wrt) :
    ∃ block dense, chosen.get? (o.name, w.name) = some block ∧
      full.get? (o.name, w.name) = some dense ∧ m.Selected o w block dense := by
  obtain ⟨a, ha⟩ := hroot
  have hnames (vs : List (DriverVariable R)) :
      (vs.map DriverVariable.entire).map (·.name) = vs.map (·.name) := by
    rw [List.map_map]
    rfl
  obtain ⟨requests, b, s₁, blocks, t₁, hrequests, hprepare, hblocks, hnamed⟩ :=
    approximatedTotals_eq_ok ha hof hwrt h
  obtain ⟨requests', b', s₁', blocks', t₁', hrequests', hprepare', hblocks', hnamed'⟩ :=
    approximatedTotals_eq_ok ha (hnames of ▸ hof) (hnames wrt ▸ hwrt) h'
  obtain ⟨hb, rfl, hpoint, hcomponents⟩ := rooted_of_prepareRoot ha hprepare
  obtain ⟨hb', rfl, hpoint', hcomponents'⟩ := rooted_of_prepareRoot ha hprepare'
  obtain ⟨hdistinct, huniform⟩ := distinct_of_totalRequests hrequests hofs hwrts
  have hplain (q : Request R) (hq : q ∈ b.requests) : q.pattern = none := by
    obtain ⟨_, -, _, -, _, _, -, -, rfl⟩ := (mem_totalRequests hrequests).1 hq
    rfl
  have hselects : b.Selects b' := {
    owner_eq := (congrArg Scheme.Role.owner hb'.role_eq).trans
      (congrArg Scheme.Role.owner hb.role_eq).symm
    site_eq := (congrArg Scheme.Role.site hb'.role_eq).trans
      (congrArg Scheme.Role.site hb.role_eq).symm
    requests_eq := totalRequests_entire hrequests hrequests'
    plain := hplain
    uniform := huniform }
  have hperform : ((Scheme.computeJacobian (m.groupTarget m.root m.schedule)).perform
      ⟨b, .empty, s₁⟩).1 = .ok blocks := (Outcome.mapError_eq_ok _ _ _).1 (congrArg Prod.fst hblocks)
  have hperform' : ((Scheme.computeJacobian (m.groupTarget m.root m.schedule)).perform
      ⟨b', .empty, s₁'⟩).1 = .ok blocks' :=
    (Outcome.mapError_eq_ok _ _ _).1 (congrArg Prod.fst hblocks')
  obtain ⟨sizes, hsizes, hall⟩ := Scheme.entry_of_selects (m.groupTarget_restoring m.root m.schedule)
    ((enduring_upkept hsteady.orderly).groupTarget m.root m.schedule)
    (groupTarget_concordant hsteady m.root m.schedule) hselects hb.current hb'.current hdistinct
    (hupkept.congr hcomponents) (hupkept.congr hcomponents') (hpoint.trans hpoint'.symm)
    (Action.perform_eq_ok hperform) (Action.perform_eq_ok hperform')
  obtain ⟨v, u, block, matrix, hv, hu, hblock, hmatrix, htotals⟩ := hnamed o ho w hw
  obtain ⟨v', u', block', matrix', hv', hu', hblock', hmatrix', htotals'⟩ :=
    hnamed' _ (List.mem_map_of_mem ho) _ (List.mem_map_of_mem hw)
  obtain rfl := Except.ok.inj (hv.symm.trans hv')
  obtain rfl := Except.ok.inj (hu.symm.trans hu')
  obtain ⟨rows, cols, selected, dense, hrows, hcols, hchosen, hfull, hheight, hwidth, hentries⟩ :=
    hall _ ((mem_totalRequests hrequests).2 ⟨o, ho, w, hw, v, u, hv, hu, rfl⟩)
  obtain rfl := Option.some.inj (hblock.symm.trans hchosen)
  obtain rfl := Option.some.inj (hblock'.symm.trans hfull)
  obtain rfl := Option.some.inj hmatrix
  obtain rfl := Option.some.inj hmatrix'
  exact ⟨_, _, htotals, htotals', rows, cols,
    hm.selection_of_select hv (fun _ => hm.size_of_sizes hsizes hv) hrows,
    hm.selection_of_select hu (fun _ => hm.size_of_sizes hsizes hu) hcols, hheight, hwidth, hentries⟩

end Root

section Column

/-- Both entries of the column, the second one twice. -/
def shuffledColumn : DriverVariable Float := ⟨"p.x", some [1, 0, 1], none⟩

/-- A derivative by the column after a run. -/
def columnDerivative (o w : DriverVariable Float) : Outcome (ModelError Float) (Totals Float) :=
  ((columnModel.computeTotals [o] [w]).perform columnRun).1

theorem exists_columnDerivative {o w : DriverVariable Float}
    (h : (columnDerivative o w).toOption.isSome = true) :
    ∃ totals t, (columnModel.computeTotals [o] [w]).perform columnRun = (.ok totals, t) := by
  have hsome := Except.eq_ok_of_toOption (Option.some_get h).symm
  unfold columnDerivative at hsome
  exact ⟨_, _, Action.perform_eq_ok hsome⟩

theorem isSome_columnDerivative :
    (columnDerivative sumResponse shuffledColumn).toOption.isSome = true ∧
      (columnDerivative sumResponse.entire shuffledColumn.entire).toOption.isSome = true := by
  decide +kernel

theorem component_column {c : ModelComponent Float Unit} (hc : c ∈ columnModel.components) :
    c.component = .independent () [("x", .vector [1.0, 2.0])] ∨
      c.component = weighing.toComponent := by
  have hmem : c.component ∈ column.members.components := by
    rw [← components_of_ofGroup ofGroup_column]
    exact List.mem_map_of_mem hc
  rcases List.mem_cons.1 hmem with h | hmem
  · exact .inl h
  · exact .inr (List.mem_singleton.1 hmem)

end Column

end Model

end Sensitivity
