import Sensitivity.Problem
import Sensitivity.Proofs.Model.TotalBlocks

/-!
# Scaled total derivatives

Scaling goes through the pairs of the requested lists and multiplies the block under the names of
each pair by the quotient of its references. Blocks are found by names, so the block of names that
are requested more than once is multiplied as often (`Model.blocks_of_computeScaledTotals`): once
where every name is requested once, and twice where a variable is an objective and a constraint
(`Model.exists_twice_scaled`).
-/

namespace Sensitivity

variable {R M : Type} [Scalar R] [DirectSolver R]

/-- A matrix with every entry multiplied by a factor. -/
def DenseMatrix.scale (factor : R) (a : DenseMatrix R) : DenseMatrix R := a.map fun v => v * factor

namespace Model

variable {m : Model R M} {of wrt : List (DriverVariable R)} {totals scaled : Totals R}

/-- The names that the block of a pair is stored under. -/
def blockNames (p : DriverVariable R × DriverVariable R) : String × String := (p.1.name, p.2.name)

/-- How often the block of a pair of names is scaled: for each request of the first name and each
one of the second. -/
def timesScaled (of wrt : List (DriverVariable R)) (o w : DriverVariable R) : Nat :=
  (of.map (·.name)).count o.name * (wrt.map (·.name)).count w.name

/-- Driver variables of one name have one reference. -/
def SameReferences (vs : List (DriverVariable R)) : Prop :=
  ∀ v ∈ vs, ∀ w ∈ vs, v.name = w.name → v.reference = w.reference

section Pairs

omit [Scalar R] [DirectSolver R]

theorem referenceOf_congr {v w : DriverVariable R} (hname : v.name = w.name)
    (href : v.reference = w.reference) : m.referenceOf v = m.referenceOf w := by
  simp only [referenceOf, hname, href]

/-- Among the pairs of two lists, each occurrence of a first name meets each one of a second. -/
theorem countP_pairs (of wrt : List (DriverVariable R)) (o w : DriverVariable R) :
    (pairs of wrt).countP (fun p => blockNames p = blockNames (o, w)) = timesScaled of wrt o w := by
  have hrow (o' : DriverVariable R) :
      (wrt.map fun w' => (o', w')).countP (fun p => blockNames p = blockNames (o, w)) =
        if o'.name = o.name then (wrt.map (·.name)).count w.name else 0 := by
    rw [List.countP_map, List.count, List.countP_map]
    split
    · rename_i hname
      exact List.countP_congr fun w' _ => by simp [blockNames, hname]
    · rename_i hname
      exact List.countP_eq_zero.2 fun w' _ => by simp [blockNames, hname]
  induction of with
  | nil => simp [pairs, timesScaled]
  | cons o' rest ih =>
    have hpairs : pairs (o' :: rest) wrt = wrt.map (fun w' => (o', w')) ++ pairs rest wrt := rfl
    rw [hpairs, List.countP_append, hrow, ih, timesScaled, timesScaled, List.map_cons,
      List.count_cons]
    by_cases hname : o'.name = o.name
    · rw [if_pos hname, if_pos (by simpa using hname)]
      ring
    · rw [if_neg hname, if_neg (by simpa using hname), Nat.zero_add, Nat.add_zero]

end Pairs

section Scaling

omit [DirectSolver R]

/-- **Scaling a pair** multiplies the block under its names, and no other one. -/
theorem scalePair_eq_ok {p : DriverVariable R × DriverVariable R} {a b : Totals R}
    (h : m.scalePair a p = .ok b) : ∃ refWrt refOf, m.referenceOf p.2 = .ok refWrt ∧
      m.referenceOf p.1 = .ok refOf ∧ ∀ names, b.get? names =
        if blockNames p = names then (a.get? names).map (DenseMatrix.scale (refWrt / refOf))
        else a.get? names := by
  obtain ⟨o, w⟩ := p
  unfold scalePair at h
  obtain ⟨refWrt, hwrt, h⟩ := Except.bind_eq_ok.1 h
  obtain ⟨refOf, hof, h⟩ := Except.bind_eq_ok.1 h
  refine ⟨refWrt, refOf, hwrt, hof, fun names => ?_⟩
  by_cases hnames : blockNames (o, w) = names
  · subst hnames
    rw [if_pos rfl]
    dsimp only [blockNames]
    cases hblock : a.get? (o.name, w.name) with
    | none =>
      rw [hblock] at h
      cases h
      rw [hblock]
      rfl
    | some block =>
      rw [hblock] at h
      cases h
      rw [Table.get?_insert, if_pos rfl]
      rfl
  · rw [if_neg hnames]
    dsimp only at h
    split at h
    · cases h
      rw [Table.get?_insert, if_neg fun heq => hnames heq.symm]
    · cases h
      rfl

/-- **Scaling some pairs** multiplies a block once for each pair with its names. -/
theorem get?_of_scalePairs {ps : List (DriverVariable R × DriverVariable R)} {names : String × String}
    {factor : R} (hfactor : ∀ p ∈ ps, blockNames p = names → ∀ refWrt refOf,
      m.referenceOf p.2 = .ok refWrt → m.referenceOf p.1 = .ok refOf → refWrt / refOf = factor)
    {a b : Totals R} (h : ps.foldlM m.scalePair a = .ok b) :
    b.get? names = (a.get? names).map
      (DenseMatrix.scale factor)^[ps.countP fun p => blockNames p = names] := by
  induction ps generalizing a with
  | nil =>
    cases h
    simp
  | cons p rest ih =>
    rw [List.foldlM_cons] at h
    obtain ⟨next, hnext, hrest⟩ := Except.bind_eq_ok.1 h
    obtain ⟨refWrt, refOf, hwrt, hof, hget⟩ := scalePair_eq_ok hnext
    rw [ih (fun q hq => hfactor q (List.mem_cons_of_mem p hq)) hrest, hget]
    by_cases hnames : blockNames p = names
    · rw [if_pos hnames, List.countP_cons_of_pos (by simpa using hnames),
        hfactor p List.mem_cons_self hnames refWrt refOf hwrt hof, Option.map_map,
        Function.iterate_succ]
    · rw [if_neg hnames, List.countP_cons_of_neg (by simpa using hnames)]

/-- Pairs that were scaled have references. -/
theorem exists_references {ps : List (DriverVariable R × DriverVariable R)} {a b : Totals R}
    (h : ps.foldlM m.scalePair a = .ok b) {p : DriverVariable R × DriverVariable R} (hp : p ∈ ps) :
    ∃ refWrt refOf, m.referenceOf p.2 = .ok refWrt ∧ m.referenceOf p.1 = .ok refOf := by
  induction ps generalizing a with
  | nil => cases hp
  | cons q rest ih =>
    rw [List.foldlM_cons] at h
    obtain ⟨next, hnext, hrest⟩ := Except.bind_eq_ok.1 h
    rcases List.mem_cons.1 hp with rfl | hp
    · obtain ⟨refWrt, refOf, hwrt, hof, -⟩ := scalePair_eq_ok hnext
      exact ⟨refWrt, refOf, hwrt, hof⟩
    · exact ih hrest hp

end Scaling

section Requested

/-- **Total derivatives are built from a block for each pair**, under its names. -/
theorem entries_of_computeTotals {s t : ModelState R M}
    (h : (m.computeTotals of wrt).perform s = (.ok totals, t)) :
    ∃ es, totals = .ofList es ∧ es.map Prod.fst = (pairs of wrt).map blockNames := by
  have hperform := perform_of_computeTotals h
  split at hperform
  · obtain ⟨requests, hrequests, hperform⟩ := Action.ofOutcome_bind_eq_ok.1 hperform
    rw [Action.perform_get_bind] at hperform
    obtain ⟨_, _, -, hperform⟩ := Action.bind_eq_ok.1 hperform
    obtain ⟨blocks, _, -, hperform⟩ := Action.bind_eq_ok.1 hperform
    obtain ⟨found, _, hfound, hperform⟩ := Action.bind_eq_ok.1 hperform
    cases hperform
    rw [Outcome.ofExcept_eq_ok] at hrequests
    refine ⟨found, rfl, Eq.symm ?_⟩
    rw [← List.forall₂_eq_eq_eq, List.forall₂_map_left_iff, List.forall₂_map_right_iff]
    refine (forall₂_comp (forall₂_zip_left (forall₂_of_totalRequests hrequests))
      (Action.forall₂_of_mapM hfound)).imp fun p y hp => ?_
    obtain ⟨_, ⟨rfl, -⟩, _, _, hy⟩ := hp
    exact (eq_of_namedBlock hy).1.symm
  · obtain ⟨responses, designs, _, _, _, x, hresponses, hdesigns, -, -, -, -, rfl⟩ :=
      chainRuleTotals_eq_ok hperform
    refine ⟨_, rfl, Eq.symm ?_⟩
    rw [← List.forall₂_eq_eq_eq, List.forall₂_map_left_iff, List.forall₂_map_right_iff]
    refine (forall₂_readBlocks hresponses hdesigns x).imp fun p e he => ?_
    obtain ⟨_, _, _, _, -, -, -, rfl⟩ := he
    rfl

/-- Each requested pair of names has a block. -/
theorem exists_block_of_computeTotals {s t : ModelState R M}
    (h : (m.computeTotals of wrt).perform s = (.ok totals, t)) {o w : DriverVariable R}
    (ho : o ∈ of) (hw : w ∈ wrt) : ∃ block, totals.get? (o.name, w.name) = some block := by
  obtain ⟨es, rfl, hkeys⟩ := entries_of_computeTotals h
  have hmem : blockNames (o, w) ∈ es.map Prod.fst := by
    rw [hkeys]
    exact List.mem_map_of_mem (mem_pairs.2 ⟨ho, hw⟩)
  refine Option.ne_none_iff_exists'.1 fun hnone => ?_
  exact (Table.get?_eq_none_iff _ _).1 hnone (Table.mem_keys_ofList.2 hmem)

end Requested

/-- **Scaled total derivatives are total derivatives times quotients of references**, as often as the
names of the two variables are requested. -/
theorem blocks_of_computeScaledTotals (hof : SameReferences of) (hwrt : SameReferences wrt)
    {s t u : ModelState R M} (h : (m.computeTotals of wrt).perform s = (.ok totals, t))
    (hscaled : (m.computeScaledTotals of wrt).perform s = (.ok scaled, u)) {o w : DriverVariable R}
    (ho : o ∈ of) (hw : w ∈ wrt) :
    ∃ block refOf refWrt, totals.get? (o.name, w.name) = some block ∧
      m.referenceOf o = .ok refOf ∧ m.referenceOf w = .ok refWrt ∧
      scaled.get? (o.name, w.name) =
        some ((DenseMatrix.scale (refWrt / refOf))^[timesScaled of wrt o w] block) := by
  obtain ⟨totals', _, htotals', hpairs⟩ := Action.bind_eq_ok.1 hscaled
  rw [h] at htotals'
  cases htotals'
  rw [Action.perform_ofOutcome] at hpairs
  have hpairs := (Outcome.ofExcept_eq_ok _ _).1 (Prod.mk.inj hpairs).1
  obtain ⟨block, hblock⟩ := exists_block_of_computeTotals h ho hw
  obtain ⟨refWrt, refOf, hrefWrt, hrefOf⟩ := exists_references hpairs (mem_pairs (p := (o, w)).2 ⟨ho, hw⟩)
  refine ⟨block, refOf, refWrt, hblock, hrefOf, hrefWrt, ?_⟩
  -- the pairs that share the names of this one share its references
  have hfactor (p : DriverVariable R × DriverVariable R) (hp : p ∈ pairs of wrt)
      (hnames : blockNames p = blockNames (o, w)) (a b : R) (ha : m.referenceOf p.2 = .ok a)
      (hb : m.referenceOf p.1 = .ok b) : a / b = refWrt / refOf := by
    obtain ⟨ho', hw'⟩ := mem_pairs.1 hp
    obtain ⟨hname, hname'⟩ := Prod.mk.inj hnames
    rw [referenceOf_congr hname' (hwrt _ hw' _ hw hname'), hrefWrt] at ha
    rw [referenceOf_congr hname (hof _ ho' _ ho hname), hrefOf] at hb
    rw [Except.ok.inj ha, Except.ok.inj hb]
  have hget := get?_of_scalePairs hfactor hpairs
  rw [countP_pairs] at hget
  exact hget.trans (congrArg (Option.map _) hblock)

section Twice

/-- The weighted sum, in units of two. -/
def sumInTwos : DriverVariable Float := ⟨"c.y", none, some 2.0⟩

/-- An optimizer that minimizes the weighted sum of a column, and bounds it as well. -/
def bounded : Problem Float Unit where
  system := some column
  live := none
  designVariables := [.whole "p.x"]
  objectives := [sumInTwos]
  constraints := [sumInTwos]

/-- The total derivatives of the bounded sum. -/
def boundedTotals : Totals Float :=
  ((columnModel.computeTotals bounded.responses bounded.designVariables).perform
    columnRun).1.toOption.get (by decide +kernel)

/-- The scaled total derivatives of the bounded sum. -/
def boundedScaled : Totals Float :=
  ((columnModel.computeScaledTotals bounded.responses bounded.designVariables).perform
    columnRun).1.toOption.get (by decide +kernel)

theorem exists_computeTotals_bounded : ∃ t,
    (columnModel.computeTotals bounded.responses bounded.designVariables).perform columnRun =
      (.ok boundedTotals, t) :=
  ⟨_, Action.perform_eq_ok (Except.eq_ok_of_toOption (Option.some_get _).symm)⟩

theorem exists_computeScaledTotals_bounded : ∃ t,
    (columnModel.computeScaledTotals bounded.responses bounded.designVariables).perform columnRun =
      (.ok boundedScaled, t) :=
  ⟨_, Action.perform_eq_ok (Except.eq_ok_of_toOption (Option.some_get _).symm)⟩

theorem sameReferences_bounded :
    SameReferences bounded.responses ∧ SameReferences bounded.designVariables := by
  constructor
  · intro v hv w hw _
    rw [List.eq_of_mem_replicate (n := 2) hv, List.eq_of_mem_replicate (n := 2) hw]
  · intro v hv w hw _
    rw [List.mem_singleton.1 hv, List.mem_singleton.1 hw]

/-- The derivative of the bounded sum is scaled twice. -/
theorem scaled_bounded : ∃ t u totals scaled,
    (columnModel.computeTotals bounded.responses bounded.designVariables).perform columnRun =
      (.ok totals, t) ∧
    (columnModel.computeScaledTotals bounded.responses bounded.designVariables).perform columnRun =
      (.ok scaled, u) ∧ timesScaled bounded.responses bounded.designVariables sumInTwos
        (.whole "p.x") = 2 ∧
    ∃ block refOf refWrt, totals.get? ("c.y", "p.x") = some block ∧
      columnModel.referenceOf sumInTwos = .ok refOf ∧
      columnModel.referenceOf (.whole "p.x") = .ok refWrt ∧
      scaled.get? ("c.y", "p.x") = some ((DenseMatrix.scale (refWrt / refOf))^[2] block) := by
  obtain ⟨t, htotals⟩ := exists_computeTotals_bounded
  obtain ⟨u, hscaled⟩ := exists_computeScaledTotals_bounded
  obtain ⟨hof, hwrt⟩ := sameReferences_bounded
  have htimes : timesScaled bounded.responses bounded.designVariables sumInTwos
      (.whole "p.x") = 2 := by decide
  have hblocks := blocks_of_computeScaledTotals hof hwrt htotals hscaled (o := sumInTwos)
    (w := .whole "p.x") List.mem_cons_self (List.mem_singleton_self _)
  rw [htimes] at hblocks
  exact ⟨t, u, _, _, htotals, hscaled, htimes, hblocks⟩

/-- **A variable that is an objective and a constraint is scaled twice**: in units of two, what should
be half of the derivative of the bounded sum is a quarter of it. -/
theorem exists_twice_scaled : ∃ (p : Problem Float Unit) (g : Group Float Unit)
    (settings : SetupSettings) (m : Model Float Unit) (first s t u : ModelState Float Unit)
    (ops : List (Operation Float)) (totals scaled : Totals Float), p.system = some g ∧
      ofGroup g settings = .ok m ∧ m.start = .ok first ∧ m.Reaches first ops s ∧
      SameReferences p.responses ∧ SameReferences p.designVariables ∧
      (m.computeTotals p.responses p.designVariables).perform s = (.ok totals, t) ∧
      (m.computeScaledTotals p.responses p.designVariables).perform s = (.ok scaled, u) ∧
      ∃ o ∈ p.responses, ∃ w ∈ p.designVariables, ∃ block refOf refWrt,
        totals.get? (o.name, w.name) = some block ∧ m.referenceOf o = .ok refOf ∧
        m.referenceOf w = .ok refWrt ∧
        scaled.get? (o.name, w.name) ≠ some (block.scale (refWrt / refOf)) := by
  obtain ⟨t, htotals⟩ := exists_computeTotals_bounded
  obtain ⟨u, hscaled⟩ := exists_computeScaledTotals_bounded
  obtain ⟨hof, hwrt⟩ := sameReferences_bounded
  refine ⟨bounded, column, .standard, columnModel, columnStart, columnRun, t, u, [.run], _, _, rfl,
    ofGroup_column, start_column, reaches_columnRun, hof, hwrt, htotals, hscaled, sumInTwos,
    List.mem_cons_self, .whole "p.x", List.mem_singleton_self _, ?_⟩
  have hblock : (boundedTotals.get? ("c.y", "p.x")).map
      (fun block => (block.scale (1.0 / 2.0)).entries) = some #[0.5, 1.5] := by decide +kernel
  have hfound : (boundedScaled.get? ("c.y", "p.x")).map
      DenseMatrix.entries = some #[0.25, 0.75] := by decide +kernel
  have htwo : columnModel.referenceOf sumInTwos = .ok 2.0 := by simp only [referenceOf, sumInTwos]
  have hone : (columnModel.referenceOf (.whole "p.x")).toOption = some 1.0 := by decide +kernel
  obtain ⟨block, hget, hhalves⟩ := Option.map_eq_some_iff.1 hblock
  refine ⟨block, 2.0, 1.0, hget, htwo, Except.eq_ok_of_toOption hone, fun heq => ?_⟩
  have hquarters := hfound.symm.trans (congrArg (Option.map DenseMatrix.entries) heq)
  rw [Option.map_some, hhalves] at hquarters
  exact absurd hquarters (by decide +kernel)

end Twice

end Model

end Sensitivity
