import Sensitivity.Proofs.Model.Chaining
import Sensitivity.Proofs.Model.Granting
import Sensitivity.Proofs.Model.Subscribing

/-!
# Gathering the blocks of the chain rule

Where groups approximate their derivatives, the chain rule takes blocks of them instead of those of
their components. At a settled state of an affine model whose components never fail, all blocks that
are wanted can be had: those of components are linearized or approximated
(`Model.Affine.yields_componentBlocks`), those of groups approximated
(`Model.Affine.yields_groupBlocks`). They hold slopes of the condensed system, and one is there for each
slope on a path from a design variable to a response (`Model.Affine.yields_collectBlocks`).
-/

namespace Sensitivity

variable {R M : Type} [ExactScalar R] [DirectSolver R]

namespace Model

variable {m : Model R M} {laws : Nat → AffineLaw R} {s t : ModelState R M}

section Poised

variable (m) in
/-- A settled state, with what is kept up to date. -/
structure Poised (laws : Nat → AffineLaw R) (s : ModelState R M) : Prop where
  resting : m.Resting s
  balanced : m.Balanced laws .real s
  stocked : m.Stocked s

omit [DirectSolver R] in
theorem Balanced.congr {mode : Mode} (h : m.Balanced laws mode s) (hinputs : t.inputs = s.inputs)
    (houtputs : t.outputs = s.outputs) : m.Balanced laws mode t where
  connected := by
    rw [hinputs, houtputs]
    exact h.connected
  computed := by
    rw [hinputs, houtputs]
    exact h.computed

theorem Poised.of_point (hs : m.Poised laws s) (hpoint : t.point = s.point) (ht : m.Stocked t) :
    m.Poised laws t := by
  simp only [ModelState.point, Prod.mk.injEq] at hpoint
  obtain ⟨hinputs, houtputs, -⟩ := hpoint
  exact ⟨hs.resting.congr hinputs houtputs, hs.balanced.congr hinputs houtputs, ht⟩

/-- Work that is undisturbed by derivatives leaves a state poised. -/
theorem Poised.of_sustained (hs : m.Poised laws s) (hlasting : m.Lasting m.Stocked) {α : Type}
    {work : ModelWork R M α} (hwork : ∀ {P Q}, m.Undisturbed P Q → work.Sustains P Q) {x : α}
    (h : work.perform s = (.ok x, t)) : m.Poised laws t :=
  hs.of_point ((hwork (m.undisturbed_point s.point)).preserves.of_ok rfl h)
    ((hwork hlasting.undisturbed).preserves.of_ok hs.stocked h)

omit [DirectSolver R] in
theorem Resting.hasLength (hs : m.Resting s) (kind : VariableKind) :
    (s.vector kind).HasLength (m.lengthOf kind) m.complex := by
  refine ⟨hs.fits kind, ?_⟩
  rw [hs.rest kind, ← hs.fits kind]
  split
  · rw [Option.map_some, Array.size_replicate]
  · rfl

theorem Poised.formed (hs : m.Poised laws s) : m.Formed s := by
  obtain ⟨anchor, hsound⟩ := hs.stocked.upkept
  exact ⟨hs.resting.hasLength .input, hs.resting.hasLength .output, hsound.length_eq⟩

/-- In a settled state the outputs of a component are what its law says of its inputs. -/
theorem Poised.follows (hs : m.Poised laws s) (hm : m.Laid) {k : Nat} {c : ModelComponent R M}
    (hc : m.components[k]? = some c) :
    c.Follows (laws k) (s.inputs.readReal c.inputs) (s.outputs.readReal c.outputs) := by
  intro hobeys i hi
  have hplace : c.outputs.contains (c.outputs.start + i) = true :=
    Span.contains_iff.2 ⟨Nat.le_add_right _ _, Nat.add_lt_add_left hi _⟩
  have hcomputed := hs.balanced.computed k c hc hobeys _ hplace
  rw [hm.sum_slope hc hplace, Nat.add_sub_cancel_left] at hcomputed
  rw [StateVector.readReal, Span.getD_slice 0 hi]
  refine hcomputed.trans (congrArg (_ + ·) (Finset.sum_congr rfl fun j hj => ?_))
  rw [StateVector.readReal, Span.getD_slice 0 (Finset.mem_range.1 hj)]
  rfl

end Poised

variable (m) in
/-- Blocks that hold slopes of the condensed system, one for each slope on a path into the outputs of
a run of components. -/
structure Gathered (laws : Nat → AffineLaw R) (starts ends : List Nat) (first stop : Nat)
    (blocks : List (LinkBlock R)) : Prop extends m.Rendering laws blocks where
  within : ∀ b ∈ blocks, ∃ v, m.variableAt? b.of = some v ∧ first ≤ v.owner ∧ v.owner < stop
  complete : ∀ k, first ≤ k → k < stop → ∀ r p of wrt, m.ownerOf? .output r = some k →
    m.holder? .output r = some of → m.holder? .input p = some wrt → m.Reached (· ∈ starts) wrt →
      m.Reaching (· ∈ ends) of → (m.condensed laws).slope r p ≠ 0 →
        ∃ b ∈ blocks, b.of = of ∧ b.wrt = wrt

section Gathered

variable {starts ends : List Nat} {first middle stop k : Nat} {own rest : List (LinkBlock R)}

omit [DirectSolver R]

theorem gathered_nil (hle : stop ≤ first) : m.Gathered laws starts ends first stop [] where
  renders := fun _ h => nomatch h
  nodup := .nil
  within := fun _ h => nomatch h
  complete _ hfirst hstop := absurd (hfirst.trans_lt hstop) (Nat.not_lt.2 hle)

/-- The blocks of two runs, one after the other, are those of both. -/
theorem Gathered.append (hown : m.Gathered laws starts ends first middle own)
    (hrest : m.Gathered laws starts ends middle stop rest) (hle : first ≤ middle)
    (hle' : middle ≤ stop) : m.Gathered laws starts ends first stop (own ++ rest) where
  renders := List.forall_mem_append.2 ⟨hown.renders, hrest.renders⟩
  nodup := by
    rw [List.map_append, List.nodup_append]
    refine ⟨hown.nodup, hrest.nodup, ?_⟩
    rintro _ hleft _ hright rfl
    obtain ⟨b, hb, hpair⟩ := List.mem_map.1 hleft
    obtain ⟨b', hb', hpair'⟩ := List.mem_map.1 hright
    obtain ⟨v, hv, -, hstop⟩ := hown.within b hb
    obtain ⟨v', hv', hfirst, -⟩ := hrest.within b' hb'
    have hsame : b.of = b'.of := congrArg Prod.fst (hpair.trans hpair'.symm)
    rw [hsame, hv'] at hv
    obtain rfl := Option.some.inj hv
    omega
  within b hb := by
    rcases List.mem_append.1 hb with hb | hb
    · obtain ⟨v, hv, hfirst, hstop⟩ := hown.within b hb
      exact ⟨v, hv, hfirst, hstop.trans_le hle'⟩
    · obtain ⟨v, hv, hfirst, hstop⟩ := hrest.within b hb
      exact ⟨v, hv, hle.trans hfirst, hstop⟩
  complete k hfirst hstop r p of wrt hk hof hwrt hreached hreaching hslope := by
    rcases Nat.lt_or_ge k middle with hlt | hge
    · obtain ⟨b, hb, h⟩ :=
        hown.complete k hfirst hlt r p of wrt hk hof hwrt hreached hreaching hslope
      exact ⟨b, List.mem_append_left _ hb, h⟩
    · obtain ⟨b, hb, h⟩ :=
        hrest.complete k hge hstop r p of wrt hk hof hwrt hreached hreaching hslope
      exact ⟨b, List.mem_append_right _ hb, h⟩

end Gathered

section Components

variable {starts ends : List Nat} {reached reaching : List Bool} {k : Nat} {c : ModelComponent R M}
  (hm : m.Affine laws) (hreached : m.graph.reachableFrom? starts = some reached)
  (hreaching : m.graph.reaching? ends = some reaching) (hc : m.components[k]? = some c)
  (harranged : c.Arranged) (hfree : m.schedule.enclosure k = none)

include hm hreached hreaching hc harranged hfree

omit [DirectSolver R] in
/-- **Blocks of a component hold slopes of the condensed system** where no group stands for it. -/
theorem Affine.gathered_links (value : DeclaredPartial R → DenseMatrix R)
    (hvalue : ∀ p ∈ c.partials, (c.ends? p).any (onPath reached reaching) = true →
      ∃ own other, c.layout.outputs.get? p.of = some own ∧ c.layout.inputs.get? p.wrt = some other ∧
        (laws k).Fills own other (value p)) :
    m.Gathered laws starts ends k (k + 1)
      ((linksFor c value c.partials).filter (LinkBlock.onPath reached reaching)) := by
  have hlaid := hm.laid
  have hfree (r : Nat) (hr : m.ownerOf? .output r = some k) : m.enclosing r = none := by
    rw [enclosing, hr, Option.bind_some, hfree]
  have hmem {b : LinkBlock R} : b ∈ (linksFor c value c.partials).filter
      (LinkBlock.onPath reached reaching) ↔ ∃ p ∈ c.partials, c.ends? p = some (b.wrt, b.of) ∧
        b.matrix = value p ∧ onPath reached reaching (b.wrt, b.of) = true := by
    simp only [List.mem_filter, linksFor, List.mem_filterMap, Option.map_eq_some_iff]
    constructor
    · rintro ⟨⟨p, hp, _, hends, rfl⟩, hon⟩
      exact ⟨p, hp, hends, rfl, hon⟩
    · rintro ⟨p, hp, hends, hvalue, hon⟩
      exact ⟨⟨p, hp, _, hends, by rw [← hvalue]⟩, hon⟩
  refine { renders := ?renders, nodup := ?nodup, within := ?within, complete := ?complete }
  case nodup =>
    refine List.Nodup.sublist (List.filter_sublist.map _) ?_
    rw [linksFor, List.map_filterMap]
    refine List.Pairwise.filterMap _ (fun p p' hne e he e' he' hsame => hne ?_)
      (List.pairwise_map.1 harranged.distinct)
    obtain ⟨b, hb, rfl⟩ := Option.map_eq_some_iff.1 he
    obtain ⟨b', hb', rfl⟩ := Option.map_eq_some_iff.1 he'
    obtain ⟨⟨wrt, of⟩, hends, rfl⟩ := Option.map_eq_some_iff.1 hb
    obtain ⟨⟨wrt', of'⟩, hends', rfl⟩ := Option.map_eq_some_iff.1 hb'
    obtain ⟨rfl, rfl⟩ := Prod.mk.inj hsame
    obtain ⟨hwrt, hof⟩ := ModelComponent.ends?_eq_some.1 hends
    obtain ⟨hwrt', hof'⟩ := ModelComponent.ends?_eq_some.1 hends'
    exact Prod.ext (hlaid.eq_of_idOf? hc hof hof') (hlaid.eq_of_idOf? hc hwrt hwrt')
  case renders =>
    intro b hb
    obtain ⟨p, hp, hends, hmatrix, hon⟩ := hmem.1 hb
    obtain ⟨own, other, hown, hother, hfills⟩ := hvalue p hp (by rw [hends]; exact hon)
    obtain ⟨hwrt, hof⟩ := ModelComponent.ends?_eq_some.1 hends
    obtain ⟨v, -, hv, hvkind, hvowner, -⟩ := hlaid.exists_of_idOf? hc hof
    obtain ⟨u, -, hu, hukind, -⟩ := hlaid.exists_of_idOf? hc hwrt
    obtain ⟨hrows, hcols, hentry⟩ :=
      hlaid.slope_of_fills (p.of, p.wrt) hc hof hv hwrt hu hown hother hfills
    refine ⟨v, u, hv, hvkind, hu, hukind, hmatrix ▸ hrows, hmatrix ▸ hcols, fun i hi j hj => ?_⟩
    have howner := hlaid.ownerOf?_eq hv
      (Span.contains_iff.2 ⟨Nat.le_add_right v.start i, Nat.add_lt_add_left hi _⟩)
    rw [hvkind, hvowner] at howner
    rw [hmatrix, hentry i hi j hj, slope_condensed_of_none (hfree _ howner)]
  case within =>
    intro b hb
    obtain ⟨p, hp, hends, -⟩ := hmem.1 hb
    obtain ⟨-, hof⟩ := ModelComponent.ends?_eq_some.1 hends
    obtain ⟨v, -, hv, -, rfl, -⟩ := hlaid.exists_of_idOf? hc hof
    exact ⟨v, hv, Nat.le_refl _, Nat.lt_succ_self _⟩
  case complete =>
    intro k' hfirst hstop r p of wrt hr hof hwrt hfrom hto hslope
    obtain rfl : k' = k := by omega
    rw [slope_condensed_of_none (hfree r hr)] at hslope
    obtain ⟨d, hd, hpair⟩ :=
      hlaid.exists_pair hc (hm.component k' c hc) ((hlaid.owner_output_iff hc).1 hr) hslope
    obtain ⟨hdof, hdwrt⟩ := (hpair (d.of, d.wrt)).2 rfl
    have hends : c.ends? d = some (wrt, of) :=
      ModelComponent.ends?_eq_some.2 ⟨hdwrt.symm.trans hwrt, hdof.symm.trans hof⟩
    obtain ⟨k, n, input, output, hn, -, hinput, houtput, he⟩ := hm.mem_edges_of_slope hslope
    obtain rfl := Option.some.inj (hwrt.symm.trans hinput)
    obtain rfl := Option.some.inj (hof.symm.trans houtput)
    have hon := (hlaid.onPath_edge (hlaid.complete.mem_edges_of_component hn he) hreached
      hreaching).2 ⟨hfrom, hto⟩
    exact ⟨⟨of, wrt, value d⟩, hmem.2 ⟨d, hd, hends, rfl, hon⟩, rfl, rfl⟩

/-- **A component gives its blocks on a path**, which hold slopes of the condensed system. -/
theorem Affine.yields_componentBlocks (hlasting : m.Lasting m.Stocked) (hs : m.Poised laws s)
    (hunfailing : c.Unfailing ((m.complex && c.component.complexSafe) = true)) :
    Action.Yields (fun blocks t => m.Poised laws t ∧ m.Gathered laws starts ends k (k + 1) blocks)
      ((m.componentBlocks reached reaching k).perform s) := by
  have hlaid := hm.laid
  have hformed := hs.formed
  suffices h : Action.Yields (fun blocks _ => m.Gathered laws starts ends k (k + 1) blocks)
      ((m.componentBlocks reached reaching k).perform s) from
    (h.and fun _ t ht => hs.of_sustained hlasting (fun hP =>
      m.sustains_componentBlocks (hP.linearizeAt k) reached reaching) ht).mono fun _ _ h => h.symm
  obtain ⟨l, hl⟩ : ∃ l, s.components[k]? = some l :=
    ⟨_, List.getElem?_eq_getElem (hformed.components ▸ (List.getElem?_eq_some_iff.1 hc).1)⟩
  refine yields_component_bind hc ?_
  dsimp only
  split
  · rename_i hnone
    have hidle (p : DeclaredPartial R) (hp : p ∈ c.partials) :
        ¬ (c.ends? p).any (onPath reached reaching) = true := by
      simp only [List.any_map, Bool.not_eq_true', List.any_eq_false, Function.comp_apply, id] at hnone
      exact hnone p hp
    have hgathered := hm.gathered_links hreached hreaching hc harranged hfree
      (fun _ => .tabulate 0 0 fun _ _ => 0) fun p hp hon => absurd hon (hidle p hp)
    rw [List.filter_eq_nil_iff.2 fun b hb => ?_] at hgathered
    · exact Action.yields_pure hgathered
    · obtain ⟨p, hp, hb⟩ := List.mem_filterMap.1 hb
      obtain ⟨ends', hends, rfl⟩ := Option.map_eq_some_iff.1 hb
      have hp := hidle p hp
      rwa [hends] at hp
  · refine Action.yields_bind (yields_linearizeAt hc (hm.component k c hc) harranged hunfailing hl
      (hs.stocked.upkept.kept hc hl) _ rfl
      (hformed.inputs.covers (hlaid.stop_inputs_le hc)).size_readReal
      (hformed.outputs.covers (hlaid.stop_outputs_le hc)).size_readReal
      (hs.follows hlaid hc)) fun _ t ht => ?_
    obtain ⟨l', hl', -, htabulates⟩ := ht
    refine yields_kept_bind hl' ?_
    have hheld (p : DeclaredPartial R) (hp : p ∈ c.partials)
        (hon : (c.ends? p).any (onPath reached reaching) = true) :
        c.Tabulates (laws k) l'.partials.blocks (p.of, p.wrt) := by
      refine htabulates _ ⟨fun on hsome j q hq hpair => ?_, p, hp, rfl⟩
      obtain rfl := Option.some.inj hsome
      obtain ⟨hof, hwrt⟩ := Prod.mk.inj hpair
      have hends : c.ends? q = c.ends? p := by simp only [ModelComponent.ends?, hof, hwrt]
      rw [List.getD_eq_getElem?_getD, List.getElem?_map, hq, Option.map_some, Option.getD_some, hends]
      exact hon
    let value (p : DeclaredPartial R) : DenseMatrix R :=
      ((l'.partials.blocks.get? (p.of, p.wrt)).bind Block.toDense?).getD (.tabulate 0 0 fun _ _ => 0)
    have hvalue (p : DeclaredPartial R) (hp : p ∈ c.partials)
        (hon : (c.ends? p).any (onPath reached reaching) = true) : ∃ own other,
        c.layout.outputs.get? p.of = some own ∧ c.layout.inputs.get? p.wrt = some other ∧
          l'.partials.blocks.get? (p.of, p.wrt) = some (.dense (value p)) ∧
            (laws k).Fills own other (value p) := by
      obtain ⟨own, other, b, hown, hother, hb, hfills⟩ := hheld p hp hon
      have hvalue : value p = b := by simp only [value, hb]; rfl
      exact ⟨own, other, hown, hother, hvalue.symm ▸ hb, hvalue.symm ▸ hfills⟩
    have hread : List.Forall₂ (fun x b => x.2.2.toDense?.map (LinkBlock.mk x.1 x.2.1) = some b)
        (wanted reached reaching c l' c.partials)
        ((linksFor c value c.partials).filter (LinkBlock.onPath reached reaching)) :=
      forall₂_wanted fun p hp ends' hends hon => by
        obtain ⟨-, -, -, -, hb, -⟩ := hvalue p hp (by rw [hends]; exact hon)
        exact ⟨_, hb, rfl⟩
    rw [wanted_eq, perform_mapM_dense, Except.mapM_eq_ok.2
      (hread.imp fun x b hb => (Outcome.ofOption_eq_ok _ _).2 hb)]
    refine ⟨_, t, rfl, hm.gathered_links hreached hreaching hc harranged hfree value
      fun p hp hon => ?_⟩
    obtain ⟨own, other, hown, hother, -, hfills⟩ := hvalue p hp hon
    exact ⟨own, other, hown, hother, hfills⟩

end Components

section Groups

variable {g : Group R M} {x : ModelGroup R × Schedule R} {own : Settings R} {starts ends : List Nat}
  {reached reaching : List Bool} {blocks : Jacobian R}

/-- The names of the variables that a block is for. -/
def namesOfLink (m : Model R M) (b : LinkBlock R) : Option String × Option String :=
  ((m.variableAt? b.of).map (·.name), (m.variableAt? b.wrt).map (·.name))

variable (m) in
/-- A block that the chain rule makes of the block of a group for two of its variables. -/
structure Linking (laws : Nat → AffineLaw R) (scope : Span) (e : (String × String) × Block R)
    (b : LinkBlock R) : Prop where
  renders : m.Renders laws b
  inside : ∃ v, m.variableAt? b.of = some v ∧ scope.contains v.owner = true
  names : m.namesOfLink b = (some e.1.1, some e.1.2)

omit [DirectSolver R] in
/-- Across a scope, an output depends on an entry of an input as on any change of this entry. -/
theorem derivative_eq_unit {scope : Span} {v u : ModelVariable R} (hv : v.kind = .output)
    (hu : u.kind = .input) (i j : Nat) : m.derivative laws scope v u i j =
      (m.flowIn laws scope).tangent (Flow.unit (u.start + j)) (fun _ => 0) (v.start + i) := by
  have hinput : (u.seed j .input : Nat → R) = Flow.unit (u.start + j) := by
    funext p
    simp only [ModelVariable.seed, hu, true_and, Flow.unit]
  have houtput : (u.seed j .output : Nat → R) = fun _ => 0 := by
    funext p
    simp [ModelVariable.seed, hu]
  simp only [derivative, hv, hinput, houtput]

variable (hm : m.Affine laws) (hconsistent : m.Consistent g) (hx : x ∈ m.schedule.groups)
  (hwhole : ∀ k, x.1.components.contains k = true → m.schedule.enclosure k = some x.1.components)
  (hkeys : blocks.keys = m.groupPairs x.1)
  (hholds : ∀ pair ∈ m.groupPairs x.1,
    m.Holds laws x.1.components blocks (.whole pair.1 pair.2 own))

include hm hconsistent hwhole hkeys hholds

omit [DirectSolver R] in
/-- **The blocks of a group hold slopes of the condensed system** where the group stands for its
members. -/
theorem Affine.yields_link {e : (String × String) × Block R} (he : e ∈ blocks.entries) :
    Action.Yields (fun b t => t = s ∧ m.Linking laws x.1.components e b)
      ((do
        let of ← Action.ofOutcome (.ofExcept (m.variableId e.1.1))
        let wrt ← Action.ofOutcome (.ofExcept (m.variableId e.1.2))
        return ⟨of, wrt, ← denseOf e.2⟩ : ModelWork R M (LinkBlock R)).perform s) := by
  have hlaid := hm.laid
  have hpair : e.1 ∈ m.groupPairs x.1 := hkeys ▸ List.mem_map_of_mem he
  obtain ⟨of, wrt, v, u, hv, hvkind, hvowner, hu, hukind, huowner, hext, hname⟩ :=
    hlaid.mem_groupPairs.1 hpair
  obtain ⟨v', u', block, hv', hu', hblock, hrows, hcols, hentry⟩ := hholds e.1 hpair
  have hfound : blocks.get? e.1 = some e.2 := (Table.get?_eq_some_iff _ _ _).2 he
  simp only [Request.whole, hname] at hv' hu' hrows hcols hentry
  obtain rfl := Option.some.inj ((hconsistent.get?_name hv).symm.trans hv')
  obtain rfl := Option.some.inj ((hconsistent.get?_name hu).symm.trans hu')
  have hdense : e.2 = .dense block := Option.some.inj (hfound.symm.trans hblock)
  have hid {id : Nat} {w : ModelVariable R} (hw : m.variableAt? id = some w) :
      Outcome.ofExcept (m.variableId w.name) = .ok id := by
    rw [Outcome.ofExcept_eq_ok, variableId, hconsistent.indexOf?_name hw]
  rw [hname, hdense]
  refine Action.yields_ofOutcome_bind (hid hv) (Action.yields_ofOutcome_bind (hid hu) ?_)
  refine ⟨⟨of, wrt, block⟩, s, rfl, rfl, ⟨v, u, hv, hvkind, hu, hukind, ?_, ?_, ?_⟩,
    ⟨v, hv, hvowner⟩, by simp only [namesOfLink, hv, hu, hname, Option.map_some]⟩
  · rw [hrows]
    exact List.length_range
  · rw [hcols]
    exact List.length_range
  · intro i hi j hj
    have hat {n i : Nat} (hi : i < n) : (List.range n)[i]? = some i := List.getElem?_range hi
    have hplace {w : ModelVariable R} {i : Nat} (hi : i < w.size) :
        w.span.contains (w.start + i) = true :=
      Span.contains_iff.2 ⟨Nat.le_add_right _ _, Nat.add_lt_add_left hi _⟩
    have howner := hlaid.ownerOf?_eq hv (hplace hi)
    rw [hvkind] at howner
    have henclosing : m.enclosing (v.start + i) = some x.1.components := by
      rw [enclosing, howner, Option.bind_some, hwhole v.owner hvowner]
    have hderivative := DenseMatrix.entry_eq (hentry i j i j (hat hi) (hat hj))
    rw [derivative_eq_unit hvkind hukind] at hderivative
    have houtside : ((m.flowIn laws x.1.components).wire (u.start + j)).isNone = true :=
      (hlaid.external_eq hu hukind (hplace hj) _).symm.trans hext
    rw [slope_condensed_of_some henclosing, if_pos houtside]
    exact hderivative

omit [DirectSolver R] hholds in
/-- **The blocks of a group are those of its components** in the condensed system. -/
theorem Affine.gathered_whole {links : List (LinkBlock R)}
    (hlinks : List.Forall₂ (m.Linking laws x.1.components) blocks.entries links) :
    m.Gathered laws starts ends x.1.components.start x.1.components.stop links := by
  have hlaid := hm.laid
  have hnames : links.map m.namesOfLink = blocks.keys.map fun k => (some k.1, some k.2) := by
    refine Eq.symm ?_
    rw [Table.keys, List.map_map, ← List.forall₂_eq_eq_eq, List.forall₂_map_left_iff,
      List.forall₂_map_right_iff]
    exact hlinks.imp fun _ _ h => h.names.symm
  have hall (b : LinkBlock R) (hb : b ∈ links) : ∃ e, m.Linking laws x.1.components e b := by
    obtain ⟨e, -, h⟩ := exists_of_forall₂ hlinks hb
    exact ⟨e, h⟩
  refine { renders := ?renders, nodup := ?nodup, within := ?within, complete := ?complete }
  case renders =>
    intro b hb
    obtain ⟨e, h⟩ := hall b hb
    exact h.renders
  case within =>
    intro b hb
    obtain ⟨e, h⟩ := hall b hb
    obtain ⟨v, hv, howner⟩ := h.inside
    exact ⟨v, hv, Span.contains_iff.1 howner⟩
  case nodup =>
    have hnodup : (links.map m.namesOfLink).Nodup := by
      rw [hnames]
      refine List.Nodup.map (fun k k' h => ?_) blocks.nodup
      simp only [Prod.mk.injEq, Option.some.injEq] at h
      exact Prod.ext h.1 h.2
    have hfactor : links.map m.namesOfLink = (links.map fun b => (b.of, b.wrt)).map fun e =>
        ((m.variableAt? e.1).map (·.name), (m.variableAt? e.2).map (·.name)) := by
      rw [List.map_map]
      rfl
    exact (hfactor ▸ hnodup).of_map
  case complete =>
    intro k hfirst hstop r p of wrt hr hof hwrt _ _ hslope
    have henclosing : m.enclosing r = some x.1.components := by
      rw [enclosing, hr, Option.bind_some, hwhole k (Span.contains_iff.2 ⟨hfirst, hstop⟩)]
    rw [slope_condensed_of_some henclosing] at hslope
    split at hslope
    swap
    · exact absurd rfl hslope
    rename_i houtside
    obtain ⟨i, hi, hiowner⟩ :=
      hm.inside_of_tangent hslope (hconsistent.inScope_of_enclosing henclosing)
    obtain ⟨v, hv, hvkind, hvr⟩ := exists_of_holder? hof
    obtain ⟨u, hu, hukind, hup⟩ := exists_of_holder? hwrt
    have hvowner : v.owner = k :=
      Option.some.inj ((hvkind ▸ hlaid.ownerOf?_eq hv hvr).symm.trans hr)
    have huowner : u.owner = i :=
      Option.some.inj ((hukind ▸ hlaid.ownerOf?_eq hu hup).symm.trans hi)
    have hpair : (v.name, u.name) ∈ m.groupPairs x.1 := hlaid.mem_groupPairs.2 ⟨of, wrt, v, u, hv,
      hvkind, Span.contains_iff.2 (by omega), hu, hukind, huowner ▸ hiowner,
      (hlaid.external_eq hu hukind hup _).trans houtside, rfl⟩
    have hmem : (some v.name, some u.name) ∈ links.map m.namesOfLink := by
      rw [hnames, hkeys]
      exact List.mem_map_of_mem hpair
    obtain ⟨b, hb, hboth⟩ := List.mem_map.1 hmem
    obtain ⟨e, h⟩ := hall b hb
    obtain ⟨v', u', hv', -, hu', -⟩ := h.renders
    simp only [namesOfLink, hv', hu', Option.map_some, Prod.mk.injEq, Option.some.injEq] at hboth
    have hid {id id' : Nat} {w w' : ModelVariable R} (hw : m.variableAt? id = some w)
        (hw' : m.variableAt? id' = some w') (hname : w.name = w'.name) : id = id' :=
      Option.some.inj ((hconsistent.indexOf?_name hw).symm.trans
        (hname ▸ hconsistent.indexOf?_name hw'))
    exact ⟨b, hb, hid hv' hv hboth.1, hid hu' hu hboth.2⟩

omit hkeys hholds in
/-- **A group gives blocks that hold slopes of the condensed system** where it stands for its
members. -/
theorem Affine.yields_groupBlocks (honce : ∀ x ∈ m.schedule.groups, x.1.solver = .runOnce)
    (hunfailing : m.Unfailing) (hlasting : m.Lasting m.Stocked) (hx : x ∈ m.schedule.groups)
    (hown : x.1.approximation = some own) (hs : m.Poised laws s) :
    Action.Yields (fun links t => m.Poised laws t ∧
        m.Gathered laws starts ends x.1.components.start x.1.components.stop links)
      ((m.groupBlocks x.1 x.2).perform s) := by
  have hlaid := hm.laid
  suffices h : Action.Yields (fun links _ =>
      m.Gathered laws starts ends x.1.components.start x.1.components.stop links)
      ((m.groupBlocks x.1 x.2).perform s) from
    (h.and fun _ t ht => hs.of_sustained hlasting (fun hP => hP.groupBlocks x.1 x.2) ht).mono
      fun _ _ h => h.symm
  obtain ⟨a, ha, hsubscribes⟩ := hs.stocked.subscribed x hx own hown
  obtain ⟨members, hfollows⟩ := (hconsistent.groups x (List.mem_cons_of_mem _ hx)).follows
  have hinside : x.1.components.stop ≤ m.components.length := by
    obtain ⟨-, hstop⟩ :=
      (hconsistent.groups _ List.mem_cons_self).nested x hx
    rw [hconsistent.root] at hstop
    simpa only [Span.stop, Nat.zero_add] using hstop
  have hpairs : a.requests.map (fun q => (q.of, q.wrt)) = m.groupPairs x.1 := by
    rw [hsubscribes.requests, List.map_map]
    exact List.map_id' _
  have hrequest (q : Request R) (hq : q ∈ a.requests) : ∃ of wrt v u, m.variableAt? of = some v ∧
      v.kind = .output ∧ x.1.components.contains v.owner = true ∧ m.variableAt? wrt = some u ∧
        q = .whole v.name u.name own := by
    rw [hsubscribes.requests] at hq
    obtain ⟨pair, hpair, rfl⟩ := List.mem_map.1 hq
    obtain ⟨of, wrt, v, u, hv, hkind, howner, hu, -, -, -, rfl⟩ :=
      hlaid.mem_groupPairs.1 hpair
    exact ⟨of, wrt, v, u, hv, hkind, howner, hu, rfl⟩
  have hof (q : Request R) (hq : q ∈ a.requests) (v : ModelVariable R)
      (hv : m.variableTable.get? q.of = some v) :
      v.kind = .output ∧ x.1.components.contains v.owner = true := by
    obtain ⟨_, _, v', _, hv', hkind, howner, -, hentire⟩ := hrequest q hq
    rw [hentire, Request.whole, hconsistent.get?_name hv'] at hv
    obtain rfl := Option.some.inj hv
    exact ⟨hkind, howner⟩
  have hgrantable : a.Grantable m.extent := fun q hq => by
    have hvalid := hsubscribes.valid q hq
    obtain ⟨of, wrt, v, u, hv, -, -, hu, rfl⟩ := hrequest q hq
    have hextent {id : Nat} {w : ModelVariable R} (hw : m.variableAt? id = some w) :
        m.extent w.name = some w.size := congrArg _ (hconsistent.get?_name hw)
    exact Request.Entire.apt ⟨hvalid, rfl, rfl, rfl⟩ (hextent hv) (hextent hu)
  unfold groupBlocks
  refine Action.yields_get_bind ?_
  dsimp only
  rw [ha]
  refine Action.yields_bind (hm.yields_approximateGroup (honce x hx)
    (fun y hy => honce y (Schedule.groups_subset hx y hy)) hfollows
    (hunfailing.evaluableIn_real _) hunfailing.evaluableIn_complex hs.formed hs.resting hs.balanced
    (hsubscribes.current.of_graph fun t => (graph_groupTarget m _ _ t).trans
      (graph_groupTarget m x.1 x.2 t).symm) (hpairs ▸ hconsistent.nodup_groupPairs hinside)
    hgrantable (fun q hq v hv _ => (hof q hq v hv).2)
    fun q hq v hv hkind => ?_) fun blocks t ht => ?_
  · rw [(hof q hq v hv).1] at hkind
    cases hkind
  · obtain ⟨hkeys, hholds⟩ := ht
    rw [hpairs] at hkeys
    rw [hsubscribes.requests] at hholds
    refine (Action.yields_mapM_kept (P := m.Linking laws x.1.components) ?_).mono
      fun links u hu => hm.gathered_whole hconsistent hwhole hkeys hu.2
    rintro ⟨⟨of, wrt⟩, block⟩ he
    exact hm.yields_link hconsistent hwhole hkeys
      (fun pair hpair => hholds _ (List.mem_map_of_mem hpair)) he

omit [DirectSolver R] hkeys hholds in
/-- A group with no edge on a path has no slope on one. -/
theorem Affine.gathered_off_path (hreached : m.graph.reachableFrom? starts = some reached)
    (hreaching : m.graph.reaching? ends = some reaching)
    (hoff : (x.1.members.flatMap fun c => (m.graph.componentEdges? c).getD []).any
      (onPath reached reaching) = false) :
    m.Gathered laws starts ends x.1.components.start x.1.components.stop [] where
  renders := fun _ h => nomatch h
  nodup := .nil
  within := fun _ h => nomatch h
  complete k hfirst hstop r p of wrt hr hof hwrt hfrom hto hslope := by
    exfalso
    have hlaid := hm.laid
    obtain ⟨wrt', of', hwrt', hof', hpath⟩ := hm.path_of_condensed hconsistent hslope
    obtain rfl := Option.some.inj (hwrt.symm.trans hwrt')
    obtain rfl := Option.some.inj (hof.symm.trans hof')
    have henclosing : m.enclosing r = some x.1.components := by
      rw [enclosing, hr, Option.bind_some, hwhole k (Span.contains_iff.2 ⟨hfirst, hstop⟩)]
    obtain ⟨u, hu, hukind, hup⟩ := exists_of_holder? hwrt
    obtain ⟨v, hv, hvkind, -⟩ := exists_of_holder? hof
    rw [slope_condensed_of_some henclosing] at hslope
    split at hslope
    swap
    · exact hslope rfl
    obtain ⟨i, hi, hiowner⟩ :=
      hm.inside_of_tangent hslope (hconsistent.inScope_of_enclosing henclosing)
    have huowner : u.owner = i :=
      Option.some.inj ((hukind ▸ hlaid.ownerOf?_eq hu hup).symm.trans hi)
    -- the first edge of the path goes through the component that has the input
    rcases hpath.cases_head with rfl | ⟨next, hedge, hrest⟩
    · obtain rfl := Option.some.inj (hu.symm.trans hv)
      rw [hukind] at hvkind
      cases hvkind
    · obtain ⟨n, hn, he⟩ := hlaid.mem_edges_of_input (e := (wrt, next)) hedge hu hukind
      obtain ⟨target, htarget, hpath'⟩ := hto
      have hon := (hlaid.onPath_edge hedge hreached hreaching).2
        ⟨hfrom, target, htarget, hrest.trans hpath'⟩
      refine absurd (List.any_eq_true.2 ⟨_, List.mem_flatMap.2 ⟨u.owner, ?_, ?_⟩, hon⟩)
        (by simpa using hoff)
      · rw [ModelGroup.members, Span.positions, List.mem_range'_1]
        exact Span.contains_iff.1 (huowner ▸ hiowner)
      · rw [DependencyGraph.componentEdges?, hn]
        exact he

end Groups

section Schedule

variable {g : Group R M} {starts ends : List Nat} {reached reaching : List Bool}

/-- **The chain rule gathers the slopes of the condensed system** on the paths from some variables to
others, and leaves the state poised. -/
theorem Affine.yields_collectBlocks (hm : m.Affine laws) (hconsistent : m.Consistent g)
    (honce : ∀ x ∈ m.schedule.groups, x.1.solver = .runOnce) (hunfailing : m.Unfailing)
    (harranged : ∀ (k : Nat) c, m.components[k]? = some c → c.Arranged)
    (hlasting : m.Lasting m.Stocked) (hreached : m.graph.reachableFrom? starts = some reached)
    (hreaching : m.graph.reaching? ends = some reaching) {path : String} {members : Members R M}
    {schedule : Schedule R} {first stop : Nat}
    (hfollows : Schedule.Follows m.components path members schedule first stop)
    (hgroups : ∀ x ∈ schedule.groups, x ∈ m.schedule.groups)
    (henclosure : ∀ k, first ≤ k → k < stop → m.schedule.enclosure k = schedule.enclosure k)
    (hs : m.Poised laws s) :
    Action.Yields (fun blocks t => m.Poised laws t ∧ m.Gathered laws starts ends first stop blocks)
      ((m.collectBlocks reached reaching schedule).perform s) := by
  induction hfollows generalizing s with
  | empty => exact Action.yields_pure ⟨hs, gathered_nil (Nat.le_refl _)⟩
  | @component _ _ _ _ _ k stop c hc _ _ hrest ih =>
    have hle := hrest.le
    have hfree : m.schedule.enclosure k = none :=
      (henclosure k (Nat.le_refl _) (by omega)).trans (hrest.enclosure_of_lt (Nat.lt_succ_self k))
    refine Action.yields_bind (hm.yields_componentBlocks hreached hreaching hc (harranged k c hc) hfree
      hlasting hs ((hunfailing k c hc).mono fun h => (Bool.and_eq_true_iff.1 h).2))
      fun own t ⟨ht, hown⟩ => ?_
    refine Action.yields_bind (ih hgroups (fun j hj => henclosure j (by omega)) ht)
      fun blocks u ⟨hu, hblocks⟩ => ?_
    exact Action.yields_pure ⟨hu, hown.append hblocks (by omega) hle⟩
  | @group _ _ _ _ _ x body rest stop _ _ _ hbody hrest ihbody ihrest =>
    have hbefore := hbody.le
    have hafter := hrest.le
    have hinner (k : Nat) (hk : x.components.contains k = true) : m.schedule.enclosure k =
        if x.approximation.isSome then some x.components else body.enclosure k := by
      obtain ⟨hfirst, hstop⟩ := Span.contains_iff.1 hk
      rw [henclosure k hfirst (by omega), Schedule.enclosure, if_pos hk]
    have hjoin (own : List (LinkBlock R)) (t : ModelState R M) (h : m.Poised laws t ∧
        m.Gathered laws starts ends x.components.start x.components.stop own) :
        Action.Yields (fun blocks t => m.Poised laws t ∧
          m.Gathered laws starts ends x.components.start stop blocks)
          ((m.collectBlocks reached reaching rest >>= fun blocks => pure (own ++ blocks)).perform t) := by
      refine Action.yields_bind (ihrest (fun y hy => hgroups y (List.mem_cons_of_mem _
        (List.mem_append_right _ hy))) (fun k hfirst hstop => ?_) h.1) fun blocks u ⟨hu, hblocks⟩ =>
          Action.yields_pure ⟨hu, h.2.append hblocks hbefore hafter⟩
      rw [henclosure k (by omega) hstop, Schedule.enclosure,
        if_neg fun h => by have := (Span.contains_iff.1 h).2; omega]
    unfold collectBlocks
    dsimp only
    split
    · rename_i happrox
      obtain ⟨own, happroximation⟩ := Option.isSome_iff_exists.1 happrox
      have hwhole (k : Nat) (hk : x.components.contains k = true) :
          m.schedule.enclosure k = some x.components := (hinner k hk).trans (if_pos happrox)
      split
      · exact Action.yields_bind (hm.yields_groupBlocks (x := (x, body)) hconsistent hwhole honce
          hunfailing hlasting (hgroups _ List.mem_cons_self) happroximation hs) hjoin
      · rename_i hoff
        exact Action.yields_bind (Action.yields_pure ⟨hs, hm.gathered_off_path (x := (x, body))
          hconsistent hwhole hreached hreaching (by simpa using hoff)⟩) hjoin
    · rename_i hplain
      refine Action.yields_bind (ihbody (fun y hy => hgroups y (List.mem_cons_of_mem _
        (List.mem_append_left _ hy))) (fun k hfirst hstop => ?_) hs) hjoin
      exact (hinner k (Span.contains_iff.2 ⟨hfirst, hstop⟩)).trans (if_neg hplain)

omit [DirectSolver R] in
/-- **The blocks of a whole model span its slopes** on the paths from some variables to others. -/
theorem Gathered.spanning (hconsistent : m.Consistent g) {blocks : List (LinkBlock R)}
    (h : m.Gathered laws starts ends 0 m.components.length blocks) :
    m.Spanning laws starts ends blocks where
  toRendering := h.toRendering
  complete r p of wrt hof hwrt := by
    obtain ⟨v, hv, hkind, hr⟩ := exists_of_holder? hof
    obtain ⟨c, hc, -⟩ := hconsistent.owned of v hv
    have howner : m.ownerOf? .output r = some v.owner := by
      rw [ownerOf?, hof, Option.bind_some, hv, Option.map_some]
    exact h.complete v.owner (Nat.zero_le _) (List.getElem?_eq_some_iff.1 hc).1 r p of wrt howner hof
      hwrt

end Schedule

end Model

end Sensitivity
