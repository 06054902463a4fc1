import Sensitivity.Proofs.Model.Nesting

/-!
# Storing approximated blocks

Linearizing a component writes the blocks that the component computes itself and then, method by
method, those that are approximated. What every method settles about the blocks that it is asked for
(`ModelComponent.Settles`) holds in the end of all of them (`Model.stores_of_linearizeAt`): a later
method writes no block of an earlier one.
-/

namespace Sensitivity

variable {R M : Type}

namespace Partials

variable {p p' : Partials R}

/-- Each of the blocks that are written to different pairs is there in the end. -/
theorem get?_of_block_writes {entries : List ((String × String) × Block R)}
    (hnodup : (entries.map Prod.fst).Nodup)
    (h : (entries.map fun e => (e.1, BlockWrite.block e.2)).foldlM write p = .ok p')
    {pair : String × String} {b : Block R} (hmem : (pair, b) ∈ entries) :
    p'.blocks.get? pair = some b := by
  induction entries generalizing p with
  | nil => cases hmem
  | cons e rest ih =>
    rw [List.map_cons, List.nodup_cons] at hnodup
    rw [List.map_cons, List.foldlM_cons] at h
    obtain ⟨p₁, hwrite, hrest⟩ := Except.bind_eq_ok.1 h
    rcases List.mem_cons.1 hmem with rfl | hmem
    · have hlater : pair ∉ (rest.map fun e => (e.1, BlockWrite.block e.2)).map Prod.fst := by
        rw [List.map_map]
        exact hnodup.1
      rw [get?_of_writes hrest hlater]
      obtain ⟨old, new, -, hnew, rfl⟩ := write_eq_ok.1 hwrite
      simp only [BlockWrite.result?, Option.ite_none_right_eq_some, Option.some.injEq] at hnew
      rw [Table.get?_insert, if_pos rfl, hnew.2]
    · exact ih hnodup.2 hrest hmem

end Partials

/-- An approximated partial has a place at its method. -/
theorem Flattening.ComponentLaid.approximates {vars : List (ModelVariable R)} {number : Nat}
    {c : ModelComponent R M} {n : ComponentNode} {d : Declarations R}
    (h : ComponentLaid vars number c n d) {p : DeclaredPartial R} (hp : p ∈ c.partials)
    {own : Settings R} (hown : p.provision.approximation = some own) :
    c.Approximates (p.of, p.wrt) := by
  obtain ⟨declared, hdeclared, hprovision⟩ := Declarations.exists_declared_of_resolve h.partials hp
  have hmethod : own.method ∈ d.methods := by
    refine List.mem_eraseDups.2 (List.mem_filterMap.2 ⟨declared, hdeclared, ?_⟩)
    rw [← hprovision, hown]
    rfl
  obtain ⟨k, hk⟩ := List.mem_iff_getElem?.1 hp
  refine ⟨(own.method, placesOf c.partials own.method), ?_, k, ?_, p, hk, rfl, ?_⟩
  · rw [h.methods_eq]
    exact List.mem_map_of_mem hmethod
  · refine List.mem_map.2 ⟨(p, k), List.mem_filter.2 ⟨List.mem_zipIdx_iff_getElem?.2 hk, ?_⟩, rfl⟩
    simp [hown]
  · rw [MethodState.request?, hown]
    rfl

/-- A method has each of its places once. -/
theorem Flattening.ComponentLaid.nodup_places {vars : List (ModelVariable R)} {number : Nat}
    {c : ModelComponent R M} {n : ComponentNode} {d : Declarations R}
    (h : ComponentLaid vars number c n d) {e : Method × List Nat} (he : e ∈ c.methods) :
    e.2.Nodup := by
  rw [h.methods_eq] at he
  obtain ⟨method, -, rfl⟩ := List.mem_map.1 he
  have hall : (c.partials.zipIdx.map Prod.snd).Nodup := by
    rw [List.zipIdx_map_snd]
    exact List.nodup_range'
  exact hall.sublist (List.filter_sublist.map _)

/-- The requests that are chosen are for different pairs. -/
theorem MethodState.nodup_chosen {partials : List (DeclaredPartial R)} {places : List Nat}
    (hplaces : places.Nodup) (hdistinct : (partials.map fun p => (p.of, p.wrt)).Nodup)
    (relevant : Option (List Bool)) :
    ((chosen partials places (selection places relevant)).map fun q => (q.of, q.wrt)).Nodup := by
  rw [chosen, selection, ← List.map_prod_left_eq_zip, List.filterMap_map, List.map_filterMap]
  have hkey {k : Nat} {on : Bool} {pair : String × String}
      (h : pair ∈ (if on then partials[k]?.bind request? else none).map fun q => (q.of, q.wrt)) :
      (partials.map fun p => (p.of, p.wrt))[k]? = some pair := by
    obtain ⟨q, hq, rfl⟩ := Option.map_eq_some_iff.1 h
    rw [Option.ite_none_right_eq_some, Option.bind_eq_some_iff] at hq
    obtain ⟨-, p, hp, hq⟩ := hq
    obtain ⟨settings, -, rfl⟩ := Option.map_eq_some_iff.1 hq
    rw [List.getElem?_map, hp]
    rfl
  refine hplaces.filterMap fun k k' pair hk hk' => ?_
  have hlt := (List.getElem?_eq_some_iff.1 (hkey hk)).1
  exact (List.getElem?_inj hlt hdistinct).1 ((hkey hk).trans (hkey hk').symm)

namespace ModelComponent

/-- A request that is chosen is that of the one partial of its pair. -/
theorem request_of_mem_chosen {c : ModelComponent R M}
    (hdistinct : (c.partials.map fun p => (p.of, p.wrt)).Nodup)
    {places : List Nat} {selected : List Bool} {q : Request R}
    (hq : q ∈ MethodState.chosen c.partials places selected) {p : DeclaredPartial R}
    (hp : p ∈ c.partials) (hpair : (p.of, p.wrt) = (q.of, q.wrt)) :
    MethodState.request? p = some q := by
  simp only [MethodState.chosen, List.mem_filterMap, Option.ite_none_right_eq_some,
    Option.bind_eq_some_iff] at hq
  obtain ⟨x, -, -, p', hp', hq⟩ := hq
  have hpair' : (p'.of, p'.wrt) = (q.of, q.wrt) := by
    obtain ⟨settings, -, rfl⟩ := Option.map_eq_some_iff.1 hq
    rfl
  rwa [List.inj_on_of_nodup_map hdistinct hp (List.mem_of_getElem? hp') (hpair.trans hpair'.symm)]

variable [Scalar R] {c : ModelComponent R M} {x y : Array R} {complex : Bool}

/-- A size that a component has for a variable is that of its place. -/
theorem locate?_of_sizes {a : Scheme R} {enclosed : Bool} {s : ComponentScope R M} {sizes : Sizes}
    (h : a.sizes (c.target enclosed) s = .ok sizes) {name : String} {entries : List Nat}
    (hentries : (Request.select name none sizes : Except (ApproximationError R) _) = .ok entries) :
    ∃ found, c.layout.locate? name = some found ∧ entries = List.range found.2.size := by
  cases hn : sizes.get? name with
  | none =>
    simp only [Request.select, hn] at hentries
    cases hentries
  | some n =>
    simp only [Request.select, hn] at hentries
    obtain ⟨found, hfound, hsize⟩ := Except.bind_eq_ok.1 (Scheme.size_of_sizes h hn)
    obtain rfl := Except.ok.inj hsize
    exact ⟨found, (Outcome.expect_eq_ok _ _ _).1 hfound, (Except.ok.inj hentries).symm⟩

/-- Every method of a component, at some inputs and outputs, settles something about the blocks that it
is asked for, which the blocks themselves show. `enclosed` says that a complex step is under way. -/
structure Settles (c : ModelComponent R M) (policy : PatternPolicy) (enclosed : Bool) (x y : Array R)
    (complex : Bool) (D : Jacobian R → String × String → Prop) : Prop where
  congr : ∀ {blocks blocks' : Jacobian R} {pair}, D blocks pair →
    blocks'.get? pair = blocks.get? pair → D blocks' pair
  method : ∀ {places : List Nat} {a : MethodState R} {relevant : Option (List Bool)}
    {d : Diagnostics} {k : ComponentState R M} {j : Jacobian R}
    {w : Session R (ComponentScope R M)}, places.Nodup → a.Sound c policy places →
      a.selected = some (MethodState.selection places relevant) →
      (Scheme.computeJacobian (c.target enclosed)).perform ⟨a.scheme, d, .start k x y complex⟩ =
        (.ok j, w) →
      ∀ q ∈ MethodState.chosen c.partials places (MethodState.selection places relevant),
        D j (q.of, q.wrt)

end ModelComponent

/-- A complex step is under way when their number is positive. -/
theorem ActivationStack.isActive_eq (s : ActivationStack R) : s.isActive = decide (0 < s.depth) := by
  obtain ⟨activations⟩ := s
  cases activations <;> rfl

/-- A component holds blocks about which something is settled, at some pairs. -/
def ModelState.Stores (s : ModelState R M) (c : Nat) (D : Jacobian R → String × String → Prop)
    (P : String × String → Prop) : Prop :=
  ∃ k, s.components[c]? = some k ∧ ∀ pair, P pair → D k.partials.blocks pair

namespace Model

variable [Scalar R] {m : Model R M} {s t : ModelState R M} {n c : Nat}
  {component : ModelComponent R M} {x y : Array R} {D : Jacobian R → String × String → Prop}
  {P : String × String → Prop}

omit [Scalar R] in
/-- Storing blocks writes them to what the component holds. -/
theorem writes_of_storeBlocks {blocks : Jacobian R}
    (h : (storeBlocks c blocks : ModelWork R M Unit).perform s = (.ok (), t)) {k : ComponentState R M}
    (hk : s.components[c]? = some k) : ∃ p,
      (blocks.entries.map fun e => (e.1, BlockWrite.block e.2)).foldlM Partials.write k.partials =
        .ok p ∧ t.components[c]? = some { k with partials := p } := by
  unfold storeBlocks at h
  generalize blocks.entries = entries at h ⊢
  induction entries generalizing s k with
  | nil =>
    cases h
    exact ⟨k.partials, rfl, hk⟩
  | cons e rest ih =>
    obtain ⟨⟨⟩, u, hone, hrest⟩ := Action.bind_eq_ok.1 h
    obtain ⟨k', s', hk', hone⟩ := Action.bind_eq_ok.1 hone
    obtain rfl : s = s' := congrArg Prod.snd hk'
    have hk' := (Outcome.ofOption_eq_ok _ _).1 (congrArg Prod.fst hk')
    obtain rfl := Option.some.inj (hk.symm.trans hk')
    obtain ⟨p, hp, hone⟩ := Action.ofOutcome_bind_eq_ok.1 hone
    rw [Outcome.mapError_eq_ok, Outcome.ofExcept_eq_ok] at hp
    cases hone
    obtain ⟨p', hp', ht⟩ := ih (ModelState.getElem?_modifyComponent hk _) hrest
    refine ⟨p', ?_, ht⟩
    rw [List.map_cons, List.foldlM_cons]
    exact Except.bind_eq_ok.2 ⟨p, hp, hp'⟩

omit [Scalar R] in
/-- The blocks that are stored are there in the end, and the others are those that were there. -/
theorem get?_of_storeBlocks {blocks : Jacobian R}
    (h : (storeBlocks c blocks : ModelWork R M Unit).perform s = (.ok (), t)) {k : ComponentState R M}
    (hk : s.components[c]? = some k) : ∃ l, t.components[c]? = some l ∧ ∀ pair,
      l.partials.blocks.get? pair = (blocks.get? pair).or (k.partials.blocks.get? pair) := by
  obtain ⟨p, hp, ht⟩ := writes_of_storeBlocks h hk
  refine ⟨_, ht, fun pair => ?_⟩
  cases hb : blocks.get? pair with
  | none =>
    refine Partials.get?_of_writes hp ?_
    rw [List.map_map]
    exact (Table.get?_eq_none_iff _ _).1 hb
  | some b => exact Partials.get?_of_block_writes blocks.nodup hp ((Table.get?_eq_some_iff _ _ _).1 hb)

/-- The work of a scheme on a component by itself begins with what the component keeps. -/
theorem exists_of_onComponent {α : Type} {scheme : Scheme R}
    {diagnostics : ModelState R M → Diagnostics}
    {keep : Scheme R → Diagnostics → ModelState R M → ModelState R M}
    {work : Scheme.Work R (ComponentScope R M) α} {v : α} {k : ComponentState R M}
    (hk : s.components[c]? = some k)
    (h : (m.onComponent c component x y scheme diagnostics keep work).perform s = (.ok v, t)) :
    ∃ w, work.perform ⟨scheme, diagnostics s,
        .start k x y (m.complex && component.component.complexSafe)⟩ = (.ok v, w) ∧
      t = keep w.scheme w.diagnostics (s.modifyComponent c fun k =>
        { k with memory := w.target.memory, runs := w.target.runs }) := by
  obtain ⟨k', s', hk', h⟩ := Action.bind_eq_ok.1 h
  obtain rfl : s = s' := congrArg Prod.snd hk'
  replace hk' := (Outcome.ofOption_eq_ok _ _).1 (congrArg Prod.fst hk')
  obtain rfl := Option.some.inj (hk.symm.trans hk')
  simp only [Action.perform_on, Action.perform_mapError, Prod.mk.injEq, Outcome.mapError_eq_ok] at h
  exact ⟨_, Action.perform_eq_ok h.1, h.2.symm⟩

section Component

variable (hD : component.Settles m.policy (decide (0 < n)) x y
  (m.complex && component.component.complexSafe) D)

include hD

/-- What a method settles is stored, and the other blocks are left as they are. -/
theorem stores_of_approximateChosen {places : List Nat} (hplaces : places.Nodup) {a : MethodState R}
    (ha : a.Sound component m.policy places) {relevant : Option (List Bool)}
    (hselected : a.selected = some (MethodState.selection places relevant))
    {place : Nat} {diagnostics : ModelState R M → Diagnostics} (hs : s.Stores c D P)
    (h : (m.onComponent c component x y a.scheme diagnostics (keepMethod c place)
      (Scheme.computeJacobian (component.target (decide (0 < n)))) >>= storeBlocks c).perform s =
        (.ok (), t)) :
    t.Stores c D fun pair => P pair ∨
      ∃ q ∈ MethodState.chosen component.partials places (MethodState.selection places relevant),
        (q.of, q.wrt) = pair := by
  obtain ⟨k, hk, hheld⟩ := hs
  obtain ⟨j, u, hwork, hstore⟩ := Action.bind_eq_ok.1 h
  obtain ⟨w, hw, rfl⟩ := exists_of_onComponent hk hwork
  have hkept := ModelState.getElem?_modifyComponent (ModelState.getElem?_modifyComponent hk
    fun k => { k with memory := w.target.memory, runs := w.target.runs }) fun k =>
      { k with methods := k.methods.modify place fun a => { a with scheme := w.scheme } }
  obtain ⟨l, hl, hget⟩ := get?_of_storeBlocks hstore hkept
  replace hget (pair) : l.partials.blocks.get? pair =
    (j.get? pair).or (k.partials.blocks.get? pair) := hget pair
  have hcurrent : a.scheme.Current (component.target (decide (0 < n))) :=
    ha.current.of_graph fun _ => rfl
  have hserves := Scheme.serves_of_computeJacobian (w := ⟨a.scheme, _, _⟩)
    (component.target_restoring _) hcurrent hw
  rw [ha.requests_eq _ hselected] at hserves
  refine ⟨l, hl, fun pair hpair => ?_⟩
  cases hb : j.get? pair with
  | some b =>
    obtain ⟨q, hq, rfl, -⟩ := hserves.form pair b hb
    exact hD.congr (hD.method hplaces ha hselected hw q hq) (by rw [hget, hb]; rfl)
  | none =>
    refine hD.congr (hheld pair (hpair.resolve_right ?_)) (by rw [hget, hb]; rfl)
    rintro ⟨q, hq, rfl⟩
    exact (Table.get?_eq_none_iff _ _).1 hb (hserves.covers q hq)

variable (hcomponent : m.components[c]? = some component)

include hcomponent

/-- **What a method settles about the blocks that are asked for is stored**, and the others are left
as they are. -/
theorem stores_of_approximatePartials {place : Nat} {e : Method × List Nat}
    (he : component.methods[place]? = some e) (hplaces : e.2.Nodup)
    {relevant : Option (List Bool)} (hnested : m.Nested n s) (hs : s.Stores c D P)
    (h : (m.approximatePartials c place e.2 relevant x y).perform s = (.ok (), t)) :
    t.Stores c D fun pair => P pair ∨
      ∃ q ∈ MethodState.chosen component.partials e.2 (MethodState.selection e.2 relevant),
        (q.of, q.wrt) = pair := by
  obtain ⟨k, hk, hheld⟩ := hs
  obtain ⟨component', hcomponent', h⟩ := Action.ofOutcome_bind_eq_ok.1 h
  rw [Outcome.ofOption_eq_ok] at hcomponent'
  obtain rfl := Option.some.inj (hcomponent.symm.trans hcomponent')
  obtain ⟨k', s', hk', h⟩ := Action.bind_eq_ok.1 h
  obtain rfl : s = s' := congrArg Prod.snd hk'
  replace hk' := (Outcome.ofOption_eq_ok _ _).1 (congrArg Prod.fst hk')
  obtain rfl := Option.some.inj (hk.symm.trans hk')
  obtain ⟨a, ha, h⟩ := Action.ofOutcome_bind_eq_ok.1 h
  rw [Outcome.ofOption_eq_ok] at ha
  obtain ⟨chosen, hchosen, h⟩ := Action.ofOutcome_bind_eq_ok.1 h
  rw [Outcome.mapError_eq_ok, Outcome.ofExcept_eq_ok] at hchosen
  obtain ⟨hsound, hselected⟩ := (hnested.ready.sound hcomponent he hk ha).select hchosen
  obtain ⟨⟨⟩, u, hu, h⟩ := Action.bind_eq_ok.1 h
  obtain rfl : s.modifyComponent c (fun k =>
    { k with methods := k.methods.modify place fun _ => chosen }) = u := congrArg Prod.snd hu
  have hstored := ModelState.getElem?_modifyComponent hk fun k : ComponentState R M =>
    { k with methods := k.methods.modify place fun _ => chosen }
  dsimp only at h
  split at h
  · rename_i hempty
    cases h
    refine ⟨_, hstored, fun pair hpair => hheld pair (hpair.resolve_right ?_)⟩
    rintro ⟨q, hq, -⟩
    rw [← hsound.requests_eq _ hselected, List.isEmpty_iff.1 hempty] at hq
    cases hq
  · rw [Action.perform_get_bind] at h
    have hactive : (s.modifyComponent c fun k => { k with
        methods := k.methods.modify place fun _ => chosen }).stack.isActive = decide (0 < n) := by
      rw [ActivationStack.isActive_eq]
      exact congrArg (fun n => decide (0 < n)) hnested.depth
    rw [hactive] at h
    exact stores_of_approximateChosen hD hplaces hsound hselected ⟨_, hstored, hheld⟩ h

/-- **All methods** settle something about the blocks that are asked for. -/
theorem stores_of_approximateMethods {methods : List ((Method × List Nat) × Nat)}
    (hmethods : ∀ z ∈ methods, component.methods[z.2]? = some z.1)
    (hplaces : ∀ z ∈ methods, z.1.2.Nodup) {relevant : Option (List Bool)} (hnested : m.Nested n s)
    (hs : s.Stores c D P)
    (h : (Action.forEach methods fun z => m.approximatePartials c z.2 z.1.2 relevant x y).perform s =
      (.ok (), t)) :
    t.Stores c D fun pair => P pair ∨
      ∃ z ∈ methods, ∃ q ∈
        MethodState.chosen component.partials z.1.2 (MethodState.selection z.1.2 relevant),
          (q.of, q.wrt) = pair := by
  induction methods generalizing s P with
  | nil =>
    cases h
    simpa using hs
  | cons z rest ih =>
    obtain ⟨hz, hrest⟩ := List.forall_mem_cons.1 hmethods
    obtain ⟨hplace, hplaces⟩ := List.forall_mem_cons.1 hplaces
    obtain ⟨⟨⟩, u, hu, h⟩ := Action.bind_eq_ok.1 h
    have hnested' : m.Nested n u :=
      (sustains_approximatePartials hcomponent hz relevant x y).preserves.of_ok hnested hu
    have hfirst := stores_of_approximatePartials hD hcomponent hz hplace hnested hs hu
    have := ih hrest hplaces hnested' hfirst h
    simpa [or_assoc] using this

end Component

/-- **Linearizing a component settles something about the approximated blocks that are asked for**,
if each of its methods does. -/
theorem stores_of_linearizeAt (hm : m.Laid) (hcomponent : m.components[c]? = some component)
    (hnested : m.Nested n s) {relevant : Option (List Bool)} {baseline : Option (Array R)}
    (hD : component.Settles m.policy (decide (0 < n)) (s.inputs.readReal component.inputs)
      (baseline.getD (s.outputs.readReal component.outputs))
      (m.complex && component.component.complexSafe) D)
    (h : (m.linearizeAt c relevant baseline).perform s = (.ok (), t)) :
    t.Stores c D fun pair => component.Asks relevant pair ∧ component.Approximates pair := by
  have hlt : c < m.graph.components.length :=
    hm.length_eq ▸ (List.getElem?_eq_some_iff.1 hcomponent).1
  obtain ⟨d, hlaid⟩ := hm.component c component _ hcomponent (List.getElem?_eq_getElem hlt)
  obtain ⟨component', hcomponent', h⟩ := Action.ofOutcome_bind_eq_ok.1 h
  rw [Outcome.ofOption_eq_ok] at hcomponent'
  obtain rfl := Option.some.inj (hcomponent.symm.trans hcomponent')
  rw [Action.perform_get_bind] at h
  dsimp only at h
  split at h
  · obtain ⟨_, _, hfail, -⟩ := Action.bind_eq_ok.1 h
    cases hfail
  obtain ⟨⟨⟩, u, hu, h⟩ := Action.bind_eq_ok.1 h
  obtain ⟨k, s', hk, hu⟩ := Action.bind_eq_ok.1 hu
  obtain rfl : s = s' := congrArg Prod.snd hk
  replace hk := (Outcome.ofOption_eq_ok _ _).1 (congrArg Prod.fst hk)
  obtain ⟨μ, q, rfl⟩ : ∃ μ q, u = s.modifyComponent c fun k =>
      { k with memory := μ, partials := q } := ⟨_, _, (congrArg Prod.snd hu).symm⟩
  obtain ⟨l, hl, hheld⟩ := stores_of_approximateMethods hD hcomponent
    (fun z hz => List.mem_zipIdx_iff_getElem?.1 hz)
    (fun z hz => hlaid.nodup_places (List.mem_of_getElem? (List.mem_zipIdx_iff_getElem?.1 hz)))
    (hnested.modifyComponent (c := c) (f := fun k => { k with memory := μ, partials := q }) fun _ => rfl)
    (P := fun _ => False) ⟨_, ModelState.getElem?_modifyComponent hk _, fun _ h => h.elim⟩ h
  refine ⟨l, hl, fun pair ⟨hasks, happrox⟩ => hheld pair (.inr ?_)⟩
  exact (component.covered_of_asks hasks).resolve_left (not_not.2 happrox)

end Model

end Sensitivity
