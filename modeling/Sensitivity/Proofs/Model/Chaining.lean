import Sensitivity.Proofs.Model.Condensing
import Sensitivity.Proofs.Model.Landing

/-!
# What the chain rule solves

Blocks that hold slopes of the condensed system (`Model.Renders`), no two between the same variables,
make up the equations of the tangents of this system, as far as they go (`Model.Laid.row_of_solution`).
These can be solved, since what an entry depends on comes before it (`Model.Affine.det_influence`).
Where a block is there for each slope on a path from the design variables to the responses
(`Model.Spanning`), the solution holds the derivatives of the model, by all design variables that no
approximated group around them reads (`Model.Affine.solution_eq`).
-/

namespace Sensitivity

variable {R M : Type} [ExactScalar R]

namespace Model

variable {m : Model R M} {laws : Nat → AffineLaw R} {blocks : List (LinkBlock R)} {b : LinkBlock R}
  {id j : Nat} {w : ModelVariable R} {z : Nat → R}

variable (m) in
/-- A block holds the slopes of the condensed system between an output and an input. -/
def Renders (laws : Nat → AffineLaw R) (b : LinkBlock R) : Prop :=
  ∃ v u, m.variableAt? b.of = some v ∧ v.kind = .output ∧ m.variableAt? b.wrt = some u ∧
    u.kind = .input ∧ b.matrix.rows = v.size ∧ b.matrix.cols = u.size ∧
    ∀ i < v.size, ∀ j < u.size, b.matrix.entry i j =
      (m.condensed laws).slope (v.start + i) (u.start + j)

theorem Renders.fitting (h : m.Renders laws b) : m.Fitting b := by
  obtain ⟨v, u, hv, -, hu, -, hrows, hcols, -⟩ := h
  exact ⟨v, u, hv, hu, hrows, hcols⟩

variable (m) in
/-- Blocks that hold slopes of the condensed system, one at most between two variables. -/
structure Rendering (laws : Nat → AffineLaw R) (blocks : List (LinkBlock R)) : Prop where
  renders : ∀ b ∈ blocks, m.Renders laws b
  nodup : (blocks.map fun b => (b.of, b.wrt)).Nodup

/-- Whether some block is between the variables of an output entry and an input entry. -/
def joins (m : Model R M) (blocks : List (LinkBlock R)) (r p : Nat) : Bool :=
  blocks.any fun b => m.holder? .output r = some b.of ∧ m.holder? .input p = some b.wrt

variable (m) in
/-- The condensed system, with the slopes of some blocks only. -/
def linkedBy (laws : Nat → AffineLaw R) (blocks : List (LinkBlock R)) : Flow R :=
  { m.condensed laws with
    slope := fun r p => if m.joins blocks r p then (m.condensed laws).slope r p else 0 }

section Sums

/-- Blocks that are not between the same variables add up to one term for an output entry and an
input entry, if some block is between their variables. -/
theorem sum_joins (hnodup : (blocks.map fun b => (b.of, b.wrt)).Nodup) (r : Nat) (S : Finset Nat)
    (f : Nat → R) : (blocks.map fun b => ∑ p ∈ S,
      if m.holder? .output r = some b.of ∧ m.holder? .input p = some b.wrt then f p else 0).sum =
      ∑ p ∈ S, if m.joins blocks r p then f p else 0 := by
  have hpairs : (blocks.map fun b => ∑ p ∈ S, if m.holder? .output r = some b.of ∧
      m.holder? .input p = some b.wrt then f p else 0) =
      (blocks.map fun b => (b.of, b.wrt)).map fun e : Nat × Nat => ∑ p ∈ S,
        if m.holder? .output r = some e.1 ∧ m.holder? .input p = some e.2 then f p else 0 := by
    rw [List.map_map]
    rfl
  rw [hpairs, ← List.sum_toFinset _ hnodup, Finset.sum_comm]
  refine Finset.sum_congr rfl fun p _ => ?_
  split
  · rename_i hjoins
    obtain ⟨b, hb, hboth⟩ := List.any_eq_true.1 hjoins
    have hboth := of_decide_eq_true hboth
    rw [Finset.sum_eq_single (b.of, b.wrt), if_pos hboth]
    · refine fun e _ hne => if_neg fun he => hne (Prod.ext ?_ ?_)
      · exact Option.some.inj (he.1.symm.trans hboth.1)
      · exact Option.some.inj (he.2.symm.trans hboth.2)
    · exact fun hnot => absurd (List.mem_toFinset.2 (List.mem_map.2 ⟨b, hb, rfl⟩)) hnot
  · rename_i hjoins
    refine Finset.sum_eq_zero fun e he => if_neg fun hboth => hjoins ?_
    obtain ⟨b, hb, rfl⟩ := List.mem_map.1 (List.mem_toFinset.1 he)
    exact List.any_eq_true.2 ⟨b, hb, decide_eq_true hboth⟩

variable (hm : m.Laid)

include hm

/-- A block couples two entries along the entries of its input. -/
theorem Laid.coupling_eq (hb : m.Renders laws b) (r q : Nat) : m.coupling b r q =
    ∑ p ∈ Finset.range m.inputLength,
      if m.holder? .output r = some b.of ∧ m.holder? .input p = some b.wrt then
        if m.wire p = some q then (m.condensed laws).slope r p else 0 else 0 := by
  obtain ⟨v, u, hv, hvkind, hu, hukind, -, -, hentry⟩ := hb
  have hterm (p : Nat) : (if m.holder? .output r = some b.of ∧ m.holder? .input p = some b.wrt then
      if m.wire p = some q then (m.condensed laws).slope r p else 0 else 0) =
      if m.wire p = some q ∧ m.holder? .output r = some b.of ∧ m.holder? .input p = some b.wrt then
        (m.condensed laws).slope r p else 0 := by
    rw [← ite_and]
    exact if_congr and_comm rfl rfl
  simp only [hterm]
  rw [hm.sum_reads hv hvkind hu hukind, coupling, hv]
  cases hsource : m.source? b.wrt with
  | none => rfl
  | some source =>
    obtain ⟨x, u', hx, -, hu', -, hsize⟩ := hm.matching _ _ hsource
    obtain rfl := Option.some.inj (hu.symm.trans hu')
    simp only [Option.bind_some, hx]
    split
    · rename_i hboth
      simp only [Span.contains_iff, ModelVariable.span, Span.stop] at hboth
      rw [hentry _ (by omega) _ (by omega)]
      congr 1
      omega
    · rfl

/-- A block feeds a change of an entry of its input into the entries of its output. -/
theorem Laid.feeding_eq (hb : m.Renders laws b) (hw : m.variableAt? id = some w) (hj : j < w.size)
    (r : Nat) : m.feeding b r (id, j) = ∑ p ∈ Finset.range m.inputLength,
      if m.holder? .output r = some b.of ∧ m.holder? .input p = some b.wrt then
        (m.condensed laws).slope r p * w.seed j .input p else 0 := by
  obtain ⟨v, u, hv, hvkind, hu, hukind, -, -, hentry⟩ := hb
  have hseed {p : Nat} (hp : w.seed j .input p ≠ 0) :
      w.kind = .input ∧ m.holder? .input p = some id := by
    obtain ⟨hkind, hholder, -⟩ := hm.entryOf_of_seed (δ := 1) hw hj (by rwa [one_mul])
    exact ⟨hkind, hholder⟩
  have hout : m.holder? .output r = some b.of ↔ v.span.contains r = true := by
    refine ⟨fun h => ?_, fun h => hvkind ▸ hm.holder?_eq hv h⟩
    obtain ⟨v', hv', -, hcontains⟩ := exists_of_holder? h
    exact Option.some.inj (hv'.symm.trans hv) ▸ hcontains
  simp only [feeding, hv]
  split
  · rename_i hboth
    obtain ⟨rfl, hr⟩ := hboth
    obtain rfl := Option.some.inj (hw.symm.trans hu)
    have hin : m.holder? .input (w.start + j) = some b.wrt := hukind ▸ hm.holder?_eq hw
      (Span.contains_iff.2 ⟨Nat.le_add_right _ _, Nat.add_lt_add_left hj _⟩)
    have hone : w.seed j .input (w.start + j) = (1 : R) := if_pos ⟨hukind, rfl⟩
    rw [Finset.sum_eq_single (w.start + j), if_pos ⟨hout.2 hr, hin⟩, hone, mul_one]
    · simp only [Span.contains_iff, ModelVariable.span, Span.stop] at hr
      rw [hentry _ (by omega) _ hj]
      congr 1
      omega
    · intro p _ hne
      have hzero : w.seed j .input p = (0 : R) := if_neg fun h => hne h.2
      rw [hzero, mul_zero, ite_self]
    · exact fun hnot => absurd (Finset.mem_range.2 (hm.lt_of_holder? hin)) hnot
  · rename_i hnot
    refine (Finset.sum_eq_zero fun p _ => ?_).symm
    rw [ite_eq_right_iff]
    rintro ⟨hr, hp⟩
    by_contra hne
    obtain ⟨-, hholder⟩ := hseed (right_ne_zero_of_mul hne)
    exact hnot ⟨Option.some.inj (hp.symm.trans hholder), hout.1 hr⟩

variable (hblocks : m.Rendering laws blocks)

include hblocks

/-- **Blocks influence entries as their slopes do.** -/
theorem Laid.influence_eq (r q : Fin m.outputLength) :
    m.influence blocks r q = (m.linkedBy laws blocks).gain r q := by
  have hterms : blocks.map (fun b => m.coupling b r q) = _ :=
    List.map_congr_left fun b hb => hm.coupling_eq (hblocks.renders b hb) r q
  rw [influence, Matrix.of_apply, hterms, sum_joins hblocks.nodup]
  refine Finset.sum_congr rfl fun p _ => ?_
  change _ = if m.wire p = some (q : Nat) then
    (if m.joins blocks r p then (m.condensed laws).slope r p else 0) else 0
  by_cases hjoins : m.joins blocks r p = true
  · rw [if_pos hjoins, if_pos hjoins]
  · rw [if_neg hjoins, if_neg hjoins, ite_self]

/-- **Blocks feed changes of entries as their slopes do.** -/
theorem Laid.seeding_eq (hw : m.variableAt? id = some w) (hj : j < w.size)
    (r : Fin m.outputLength) : m.seeding blocks r (id, j) = w.seed j .output r +
      ∑ p ∈ Finset.range m.inputLength, (m.linkedBy laws blocks).slope r p * w.seed j .input p := by
  rw [seeding, Matrix.of_apply]
  simp only [hw]
  cases hkind : w.kind with
  | output =>
    have hnone (p : Nat) : w.seed j .input p = (0 : R) := if_neg fun h => by simp [hkind] at h
    rw [Finset.sum_eq_zero fun p _ => by rw [hnone, mul_zero], add_zero]
    simp only [ModelVariable.seed, hkind, true_and, hj]
  | input =>
    have hnone : w.seed j .output r = (0 : R) := if_neg fun h => by simp [hkind] at h
    have hterms : blocks.map (fun b => m.feeding b r (id, j)) = _ :=
      List.map_congr_left fun b hb => hm.feeding_eq (hblocks.renders b hb) hw hj r
    dsimp only
    rw [hterms, sum_joins hblocks.nodup, hnone, zero_add]
    refine Finset.sum_congr rfl fun p _ => ?_
    simp only [linkedBy, ite_mul, zero_mul]

/-- **Solutions satisfy the equations of the slopes** that the blocks hold. -/
theorem Laid.row_of_solution (hw : m.variableAt? id = some w) (hj : j < w.size)
    (hfree : m.source? id = none)
    (hz : (1 - m.influence blocks).mulVec (fun r => z r) = fun r => m.seeding blocks r (id, j))
    {r : Nat} (hr : r < m.outputLength) : z r = w.seed j .output r +
      ∑ p ∈ Finset.range m.inputLength, (m.linkedBy laws blocks).slope r p *
        (m.linkedBy laws blocks).feed (w.seed j .input) z p := by
  have hrow := congrFun hz ⟨r, hr⟩
  rw [Matrix.sub_mulVec, Matrix.one_mulVec, Pi.sub_apply, Matrix.mulVec, dotProduct] at hrow
  simp only [hm.influence_eq hblocks] at hrow
  rw [← Finset.sum_range fun q => (m.linkedBy laws blocks).gain r q * z q, Flow.sum_gain,
    hm.seeding_eq hblocks hw hj, sub_eq_iff_eq_add, add_assoc] at hrow
  refine hrow.trans (congrArg (_ + ·)
    (Finset.sum_add_distrib.symm.trans (Finset.sum_congr rfl fun p _ => ?_)))
  rw [← mul_add]
  refine congrArg (_ * ·) ?_
  have hsame : (m.linkedBy laws blocks).wire p = m.wire p := rfl
  rw [Flow.feed, hsame]
  cases hwire : m.wire p with
  | none => exact add_zero _
  | some q =>
    obtain ⟨target, source, -, v, htarget, -, -, hsource, hv, hkind, hq, -⟩ := hm.of_wire hwire
    have hunmoved : w.seed j .input p = (0 : R) := by
      by_contra hne
      obtain ⟨-, hholder, -⟩ := hm.entryOf_of_seed (δ := 1) hw hj (by rwa [one_mul])
      obtain rfl := Option.some.inj (htarget.symm.trans hholder)
      rw [hfree] at hsource
      cases hsource
    have hlt : q < m.outputLength := hm.lt_of_holder? (hkind ▸ hm.holder?_eq hv hq)
    rw [hunmoved, zero_add, Option.map_some, Option.getD_some, if_pos (Finset.mem_range.2 hlt)]

end Sums

variable (m) in
/-- Blocks that hold slopes of the condensed system, one for each slope on a path from some variables
to others. -/
structure Spanning (laws : Nat → AffineLaw R) (starts ends : List Nat) (blocks : List (LinkBlock R)) :
    Prop extends m.Rendering laws blocks where
  complete : ∀ r p of wrt, m.holder? .output r = some of → m.holder? .input p = some wrt →
    m.Reached (· ∈ starts) wrt → m.Reaching (· ∈ ends) of → (m.condensed laws).slope r p ≠ 0 →
      ∃ b ∈ blocks, b.of = of ∧ b.wrt = wrt

section Solution

variable {starts ends : List Nat} {g : Group R M} (hm : m.Affine laws) (hconsistent : m.Consistent g)

theorem ne_zero_of_linkedBy {r p : Nat} (h : (m.linkedBy laws blocks).slope r p ≠ 0) :
    (m.condensed laws).slope r p ≠ 0 := fun hzero => h (by
  change (if m.joins blocks r p then (m.condensed laws).slope r p else 0) = 0
  rw [hzero, ite_self])

include hm hconsistent

theorem Affine.ordered_linkedBy (blocks : List (LinkBlock R)) :
    (m.linkedBy laws blocks).Ordered := fun r p q hslope hwire =>
  hm.ordered_condensed hconsistent r p q (ne_zero_of_linkedBy hslope) hwire

/-- **The system of the chain rule has one solution.** -/
theorem Affine.det_influence (hblocks : m.Rendering laws blocks) :
    (1 - m.influence blocks).det = 1 := by
  have hbefore (r q : Fin m.outputLength) (hrq : ¬ q < r) : m.influence blocks r q = 0 := by
    rw [hm.laid.influence_eq hblocks, Flow.gain]
    refine Finset.sum_eq_zero fun p _ => ?_
    rw [ite_eq_right_iff]
    intro hwire
    by_contra hslope
    exact hrq (hm.ordered_linkedBy hconsistent blocks r p q hslope hwire)
  rw [Matrix.det_of_isLowerTriangular _ fun r q hrq => ?_]
  · refine Finset.prod_eq_one fun r _ => ?_
    rw [Matrix.sub_apply, Matrix.one_apply_eq, hbefore r r (lt_irrefl r), sub_zero]
  · have hlt : r < q := hrq
    rw [Matrix.sub_apply, Matrix.one_apply_ne hlt.ne, hbefore r q hlt.asymm, sub_zero]

/-- Changes spread along paths where blocks make up the slopes. -/
theorem Affine.reached_of_linkedBy {x y : Nat → R} {P : Nat → Prop}
    (hx : ∀ p, x p ≠ 0 → m.EntryOf .input (m.Reached P) p)
    (hy : ∀ r, y r ≠ 0 → m.EntryOf .output (m.Reached P) r) {r : Nat}
    (h : (m.linkedBy laws blocks).tangent x y r ≠ 0) : m.EntryOf .output (m.Reached P) r := by
  refine Flow.of_tangent_ne_zero (hm.ordered_linkedBy hconsistent blocks) hx hy
    (fun r p hslope hp => ?_) (fun p q hwire hq => hm.laid.reached_of_wire hwire hq) h
  obtain ⟨wrt, of, hwrt, hof, hpath⟩ :=
    hm.path_of_condensed hconsistent (ne_zero_of_linkedBy hslope)
  obtain ⟨id, hid, u, hu, hpath'⟩ := hp
  obtain rfl := Option.some.inj (hid.symm.trans hwrt)
  exact ⟨of, hof, u, hu, hpath'.trans hpath⟩

/-- **Solutions of the chain rule hold the derivatives of the model** at all entries that lead to the
responses, where no approximated group around the design variable reads it. -/
theorem Affine.solution_eq (hblocks : m.Spanning laws starts ends blocks)
    (hw : m.variableAt? id = some w) (hj : j < w.size) (hfree : m.source? id = none)
    (hid : id ∈ starts) (hunread : m.Unread id)
    (hz : (1 - m.influence blocks).mulVec (fun r => z r) = fun r => m.seeding blocks r (id, j))
    {r : Nat} (hr : m.EntryOf .output (m.Reaching (· ∈ ends)) r) :
    z r = (m.flow laws).tangent (w.seed j .input) (w.seed j .output) r := by
  have hseed (kind : VariableKind) (p : Nat) (hp : w.seed j kind p ≠ (0 : R)) :
      m.EntryOf kind (m.Reached (· ∈ starts)) p := by
    obtain ⟨-, hholder, -⟩ := hm.laid.entryOf_of_seed (δ := 1) hw hj (by rwa [one_mul])
    exact ⟨id, hholder, id, hid, .refl⟩
  have hrow {r : Nat} (hr : r < m.outputLength) :=
    hm.laid.row_of_solution hblocks.toRendering hw hj hfree hz hr
  have hspread (r : Nat) (hne : z r ≠ 0) (hr : r < m.outputLength) :
      m.EntryOf .output (m.Reached (· ∈ starts)) r := by
    rw [Flow.eq_tangent (hm.ordered_linkedBy hconsistent blocks) (Q := (· < m.outputLength))
      (fun r p q hr hslope hwire =>
        (hm.ordered_linkedBy hconsistent blocks r p q hslope hwire).trans hr)
      (fun r hr => hrow hr) (fun _ _ _ _ => .inl rfl) hr] at hne
    exact hm.reached_of_linkedBy hconsistent (hseed .input) (hseed .output) hne
  rw [← hm.tangent_condensed hconsistent hw hunread hj]
  refine Flow.eq_tangent (hm.ordered_condensed hconsistent)
    (Q := m.EntryOf .output (m.Reaching (· ∈ ends))) (E := (m.linkedBy laws blocks).slope)
    (fun r p q hr hslope hwire => ?_)
    (fun r hr => ?_) (fun r hr p hp => ?_) hr
  · obtain ⟨of, hof, hreaching⟩ := hr
    obtain ⟨wrt, of', hwrt, hof', hpath⟩ := hm.path_of_condensed hconsistent hslope
    obtain rfl := Option.some.inj (hof.symm.trans hof')
    obtain ⟨source, input, hsource, hinput, he⟩ := hm.laid.mem_edges_of_wire hwire
    obtain rfl := Option.some.inj (hwrt.symm.trans hinput)
    obtain ⟨u, hu, hpath'⟩ := hreaching
    exact ⟨source, hsource, u, hu, (hpath.trans hpath').head he⟩
  · obtain ⟨of, hof, -⟩ := hr
    exact hrow (hm.laid.lt_of_holder? hof)
  · by_cases hslope : (m.condensed laws).slope r p = 0
    · exact .inl (by_contra fun hne => ne_zero_of_linkedBy (hslope ▸ hne) hslope)
    refine or_iff_not_imp_right.2 fun hfeed => ?_
    obtain ⟨wrt, hwrt, hreached⟩ : m.EntryOf .input (m.Reached (· ∈ starts)) p := by
      unfold Flow.feed at hfeed
      split at hfeed
      · rename_i q hwire
        obtain ⟨_, _, _, v, -, -, -, -, hv, hkind, hq, -⟩ := hm.laid.of_wire hwire
        exact hm.laid.reached_of_wire hwire
          (hspread q hfeed (hm.laid.lt_of_holder? (hkind ▸ hm.laid.holder?_eq hv hq)))
      · exact hseed .input p hfeed
    obtain ⟨of, hof, hreaching⟩ := hr
    obtain ⟨b, hb, rfl, rfl⟩ := hblocks.complete r p of wrt hof hwrt hreached hreaching hslope
    exact if_pos (List.any_eq_true.2 ⟨b, hb, decide_eq_true ⟨hof, hwrt⟩⟩)

end Solution

end Model

end Sensitivity
