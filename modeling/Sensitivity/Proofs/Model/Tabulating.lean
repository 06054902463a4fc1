import Mathlib
import Sensitivity.Proofs.Model.Enclosing
import Sensitivity.Proofs.Model.Supplying

/-!
# Linearizing affine components

A component that never fails (`ModelComponent.Unfailing`) can be linearized at any inputs. Where it is
affine and its outputs there are known, it holds the slopes of its law in all its blocks afterwards,
those that it computes itself and those that are approximated, whatever the settings of these are
(`Model.yields_linearizeAt`).
-/

namespace Sensitivity

variable {R M : Type}

namespace Partials

/-- Blocks of the same shapes at the same pairs. -/
structure Congruent (p q : Partials R) : Prop where
  keys : q.blocks.keys = p.blocks.keys
  shape : ∀ pair, (q.blocks.get? pair).map (fun b => (b.rows, b.cols)) =
    (p.blocks.get? pair).map fun b => (b.rows, b.cols)

variable {p q r : Partials R}

theorem Congruent.trans (h : p.Congruent q) (h' : q.Congruent r) : p.Congruent r :=
  ⟨h'.keys.trans h.keys, fun pair => (h'.shape pair).trans (h.shape pair)⟩

theorem congruent_of_write {w : (String × String) × BlockWrite R} (h : p.write w = .ok q) :
    p.Congruent q := by
  refine ⟨keys_of_write h, fun pair => ?_⟩
  by_cases hpair : pair = w.1
  · obtain ⟨old, new, hold, hnew, rfl⟩ := write_eq_ok.1 h
    obtain ⟨hrows, hcols⟩ := BlockWrite.shape_of_result hnew
    rw [Table.get?_insert, if_pos hpair, hpair, hold, Option.map_some, Option.map_some, hrows, hcols]
  · rw [get?_of_write h hpair]

theorem congruent_of_writes {ws : List ((String × String) × BlockWrite R)}
    (h : ws.foldlM write p = .ok q) : p.Congruent q := by
  induction ws generalizing p with
  | nil =>
    cases h
    exact ⟨rfl, fun _ => rfl⟩
  | cons w rest ih =>
    rw [List.foldlM_cons] at h
    obtain ⟨p₁, hwrite, hrest⟩ := Except.bind_eq_ok.1 h
    exact (congruent_of_write hwrite).trans (ih hrest)

/-- A block of the right shape can be inserted. -/
theorem Congruent.exists_insert (h : p.Congruent q) {pair : String × String} {old b : Block R}
    (hold : p.blocks.get? pair = some old) (hrows : b.rows = old.rows) (hcols : b.cols = old.cols) :
    ∃ r, q.insert pair.1 pair.2 b = .ok r := by
  have hshape := h.shape pair
  rw [hold, Option.map_some] at hshape
  obtain ⟨now, hnow, hsame⟩ := Option.map_eq_some_iff.1 hshape
  obtain ⟨hrows', hcols'⟩ := Prod.mk.inj hsame
  exact ⟨_, (write_eq_ok (w := (pair, .block b))).2 ⟨now, b, hnow,
    if_pos ⟨hrows'.trans hrows.symm, hcols'.trans hcols.symm⟩, rfl⟩⟩

end Partials

namespace ModelComponent

section Unfailing

variable [Scalar R] {c : ModelComponent R M} {needed : Prop}

/-- A component that never fails: it can be evaluated, in complex arithmetic if that is needed, it
computes its partials by writes to its blocks, and the settings of those that are approximated are
valid. -/
structure Unfailing (c : ModelComponent R M) (needed : Prop) : Prop where
  evaluates : c.component.Evaluates c.inputs.size c.outputs.size needed
  writes : ∀ x μ p, c.Holds p → ∃ ws : List ((String × String) × BlockWrite R),
    ws.foldlM Partials.write p = .ok ((c.component.computePartials x).perform (μ, p)).2.2
  answers : ∀ x μ p, x.size = c.inputs.size → c.Holds p →
    ((c.component.computePartials x).perform (μ, p)).1 = .ok ()
  valid : ∀ p ∈ c.partials, ∀ own, p.provision.approximation = some own → own.validate = .ok ()

theorem Unfailing.mono (hc : c.Unfailing needed) {less : Prop} (h : less → needed) :
    c.Unfailing less :=
  { hc with evaluates := ⟨hc.evaluates.real, fun hless => hc.evaluates.complex (h hless)⟩ }

/-- The shapes of the blocks of a component never change. -/
theorem Unfailing.congruent (hc : c.Unfailing needed) {p : Partials R} (hp : c.Holds p) :
    c.initial.Congruent p := by
  induction hp with
  | start => exact ⟨rfl, fun _ => rfl⟩
  | call x μ hp _ ih =>
    obtain ⟨ws, hws⟩ := hc.writes x μ _ hp
    exact ih.trans (Partials.congruent_of_writes hws)
  | @store p p' pair old b hp hpair hold hform hinsert ih =>
    exact ih.trans (Partials.congruent_of_write (w := (pair, .block b)) hinsert)

end Unfailing

/-- How a component declares its partials: variables stand within their span and have a name among
inputs and outputs together, each partial joins an output and an input, no two the same, and those to
approximate are among the places of a method. -/
structure Arranged (c : ModelComponent R M) : Prop where
  bounded : c.Bounded
  separate : ∀ name own, c.layout.outputs.get? name = some own → c.layout.inputs.get? name = none
  distinct : (c.partials.map fun p => (p.of, p.wrt)).Nodup
  joins : ∀ p ∈ c.partials, ∃ own other, c.layout.outputs.get? p.of = some own ∧
    c.layout.inputs.get? p.wrt = some other
  places : ∀ e ∈ c.methods, e.2.Nodup
  approximates : ∀ p ∈ c.partials, ∀ own, p.provision.approximation = some own →
    c.Approximates (p.of, p.wrt)

variable {c : ModelComponent R M}

theorem Arranged.locate?_output (hc : c.Arranged) {name : String} {own : Span}
    (h : c.layout.outputs.get? name = some own) :
    c.layout.locate? name = some (.output, own) := by
  rw [Layout.locate?, hc.separate name own h, h]

theorem locate?_input {name : String} {own : Span} (h : c.layout.inputs.get? name = some own) :
    c.layout.locate? name = some (.input, own) := by
  rw [Layout.locate?, h]

/-- The block of a partial at the start. -/
theorem Arranged.get?_initial [Scalar R] (hc : c.Arranged) {p : DeclaredPartial R} (hp : p ∈ c.partials)
    {own other : Span} (hof : c.layout.outputs.get? p.of = some own)
    (hwrt : c.layout.inputs.get? p.wrt = some other) :
    c.initial.blocks.get? (p.of, p.wrt) =
      some (.zeros own.size other.size p.provision.pattern) := by
  have hentry : ((p.of, p.wrt), (Block.zeros own.size other.size p.provision.pattern : Block R)) ∈
      c.partials.map fun p => ((p.of, p.wrt),
        Block.zeros (((c.layout.outputs.get? p.of).map Span.size).getD 0)
          (((c.layout.inputs.get? p.wrt).map Span.size).getD 0) p.provision.pattern) := by
    refine List.mem_map.2 ⟨p, hp, ?_⟩
    rw [hof, hwrt]
    rfl
  refine (Table.get?_ofList ?_ _).trans (Table.find_of_mem ?_ hentry) <;>
  · rw [List.map_map]
    exact hc.distinct

/-- A component holds the slopes of a law at a pair of its variables. -/
def Tabulates (c : ModelComponent R M) (law : AffineLaw R) (blocks : Jacobian R)
    (pair : String × String) : Prop :=
  ∃ own other b, c.layout.outputs.get? pair.1 = some own ∧ c.layout.inputs.get? pair.2 = some other ∧
    blocks.get? pair = some (.dense b) ∧ law.Fills own other b

theorem Tabulates.congr {law : AffineLaw R} {blocks blocks' : Jacobian R} {pair : String × String}
    (h : c.Tabulates law blocks pair) (hget : blocks'.get? pair = blocks.get? pair) :
    c.Tabulates law blocks' pair := by
  obtain ⟨own, other, b, hof, hwrt, hb, hfills⟩ := h
  exact ⟨own, other, b, hof, hwrt, hget.trans hb, hfills⟩

end ModelComponent

namespace MethodState

/-- A request that is chosen is that of a declared partial. -/
theorem exists_of_mem_chosen {partials : List (DeclaredPartial R)} {places : List Nat}
    {selected : List Bool} {q : Request R} (hq : q ∈ chosen partials places selected) :
    ∃ p ∈ partials, ∃ own,
      p.provision.approximation = some own ∧ (p.of, p.wrt) = (q.of, q.wrt) ∧
        q = { Request.whole p.of p.wrt own with
          pattern := p.provision.pattern, everything := p.everything } := by
  simp only [chosen, List.mem_filterMap, Option.ite_none_right_eq_some,
    Option.bind_eq_some_iff] at hq
  obtain ⟨x, -, -, p, hp, hq⟩ := hq
  obtain ⟨own, hown, rfl⟩ := Option.map_eq_some_iff.1 hq
  exact ⟨p, List.mem_of_getElem? hp, own, hown, rfl, rfl⟩

/-- Partials with valid settings can be selected. -/
theorem exists_select [Scalar R] {partials : List (DeclaredPartial R)}
    (hvalid : ∀ p ∈ partials, ∀ own, p.provision.approximation = some own → own.validate = .ok ())
    (a : MethodState R) (places : List Nat) (relevant : Option (List Bool)) :
    ∃ a', a.select partials places relevant = .ok a' := by
  rcases Scheme.addRequests_cases (chosen partials places (selection places relevant)) with
    ⟨⟨q, hq, hinvalid⟩, -⟩ | ⟨-, hok⟩
  · obtain ⟨p, hp, own, hown, -, rfl⟩ := exists_of_mem_chosen hq
    exact absurd (hvalid p hp own hown) hinvalid
  · obtain ⟨s', hs', -⟩ := hok a.scheme.clearRequests
    unfold select
    dsimp only
    split
    · exact ⟨a, rfl⟩
    · exact ⟨_, Except.bind_eq_ok.2 ⟨s', hs', rfl⟩⟩

end MethodState

/-- What a component keeps stays up to date when the scheme of a method has worked. -/
theorem ComponentState.Sound.resume [Scalar R] {c : ModelComponent R M} {policy : PatternPolicy}
    {k : ComponentState R M} (hk : k.Sound c policy) {place : Nat} {e : Method × List Nat}
    (he : c.methods[place]? = some e) {chosen : MethodState R} (hchosen : chosen.Sound c policy e.2)
    (enclosed : Bool) {w : Session R (ComponentScope R M)} (hw : w.scheme = chosen.scheme) (μ : M)
    (runs : Nat) : ({ k with
      memory := μ
      runs := runs
      methods := (k.methods.modify place fun _ => chosen).modify place fun a => { a with
        scheme := ((Scheme.computeJacobian (c.target enclosed)).perform w).2.scheme
      } } : ComponentState R M).Sound c policy := by
  have hselected := hk.modifyMethod he fun _ _ _ => hchosen
  have hworked : ({ k with
      memory := μ, runs := runs, methods := k.methods.modify place fun _ => chosen } :
        ComponentState R M).Sound c policy :=
    ⟨hselected.holds, hselected.length_eq, hselected.method⟩
  refine hworked.modifyMethod he (f := fun a => { a with scheme := _ }) fun a ha _ => ?_
  dsimp only at ha
  rw [List.getElem?_modify_eq] at ha
  obtain ⟨_, -, rfl⟩ := Option.map_eq_some_iff.1 ha
  exact hchosen.settled enclosed hw

/-- A component keeps what is up to date, and holds the slopes of a law at some pairs. -/
def ModelState.Tabulates [Scalar R] (s : ModelState R M) (policy : PatternPolicy) (c : Nat)
    (component : ModelComponent R M) (law : AffineLaw R) (P : String × String → Prop) : Prop :=
  ∃ k, s.components[c]? = some k ∧ k.Sound component policy ∧
    ∀ pair, P pair → component.Tabulates law k.partials.blocks pair

namespace Model

variable [Scalar R] {m : Model R M} {s : ModelState R M} {c : Nat} {component : ModelComponent R M}
  {k : ComponentState R M} {policy : PatternPolicy} {needed : Prop}

omit [Scalar R] in
theorem yields_kept_bind {α : Type} {f : ComponentState R M → ModelWork R M α}
    {Q : α → ModelState R M → Prop} (hk : s.components[c]? = some k)
    (h : Action.Yields Q ((f k).perform s)) : Action.Yields Q ((kept c >>= f).perform s) :=
  Action.yields_read_bind ((Outcome.ofOption_eq_ok _ _).2 hk) h

omit [Scalar R] in
theorem yields_component_bind {α : Type} {f : ModelComponent R M → ModelWork R M α}
    {Q : α → ModelState R M → Prop} (hcomponent : m.components[c]? = some component)
    (h : Action.Yields Q ((f component).perform s)) :
    Action.Yields Q ((m.component c >>= f).perform s) :=
  Action.yields_ofOutcome_bind ((Outcome.ofOption_eq_ok _ _).2 hcomponent) h

/-- **Blocks in the forms that a component began with can be stored.** -/
theorem yields_storeBlocks (hc : component.Unfailing needed) {blocks : Jacobian R}
    (hfits : ∀ e ∈ blocks.entries, component.Approximates e.1 ∧
      ∃ old, component.initial.blocks.get? e.1 = some old ∧ e.2.form = old.form)
    (hk : s.components[c]? = some k) (hsound : k.Sound component policy) :
    Action.Yields (fun _ t => ∃ l, t.components[c]? = some l ∧ l.Sound component policy)
      ((storeBlocks c blocks : ModelWork R M Unit).perform s) := by
  refine Action.yields_forEach (fun e he s hs => ?_) ⟨k, hk, hsound⟩
  obtain ⟨k, hk, hsound⟩ := hs
  obtain ⟨happrox, old, hold, hform⟩ := hfits e he
  obtain ⟨hrows, hcols⟩ := Block.shape_eq_of_form hform
  obtain ⟨p, hp⟩ := (hc.congruent hsound.holds).exists_insert hold hrows hcols
  refine yields_kept_bind hk (Action.yields_ofOutcome_bind
    ((Outcome.mapError_eq_ok _ _ _).2 ((Outcome.ofExcept_eq_ok _ _).2 hp)) (Action.yields_modify ?_))
  exact ⟨_, ModelState.getElem?_modifyComponent hk _, .store hsound.holds happrox hold hform hp,
    hsound.length_eq, hsound.method⟩

/-- The work of a scheme on a component by itself succeeds if it does on what the component keeps. -/
theorem yields_onComponent {α : Type} {x y : Array R} {scheme : Scheme R}
    {diagnostics : ModelState R M → Diagnostics}
    {keep : Scheme R → Diagnostics → ModelState R M → ModelState R M}
    {work : Scheme.Work R (ComponentScope R M) α} (hk : s.components[c]? = some k) {v : α}
    {w : Session R (ComponentScope R M)} {Q : α → ModelState R M → Prop}
    (hwork : work.perform ⟨scheme, diagnostics s,
      .start k x y (m.complex && component.component.complexSafe)⟩ = (.ok v, w))
    (hQ : Q v (keep w.scheme w.diagnostics (s.modifyComponent c fun k =>
      { k with memory := w.target.memory, runs := w.target.runs }))) :
    Action.Yields Q
      ((m.onComponent c component x y scheme diagnostics keep work).perform s) := by
  refine yields_kept_bind hk ⟨v, _, ?_, hQ⟩
  simp only [Action.perform_on, Action.perform_mapError, hwork, Outcome.mapError]

end Model

section Affine

variable [ExactScalar R] {component : ModelComponent R M} {law : AffineLaw R}

namespace ModelComponent

variable {policy : PatternPolicy} {places : List Nat} {a : MethodState R} {x y : Array R}
  {complex : Bool}

/-- **What a method approximates of an affine component** are its slopes. -/
theorem exists_tabulates (hc : component.Affine law) (harranged : component.Arranged)
    (hunfailing : component.Unfailing (complex = true))
    (hcomplex : complex = true → component.component.complexSafe = true)
    (hx : x.size = component.inputs.size) (hy : y.size = component.outputs.size)
    (hlaw : component.Follows law x y) (hplaces : places.Nodup)
    (ha : a.Sound component policy places) {relevant : Option (List Bool)}
    (hselected : a.selected = some (MethodState.selection places relevant)) (enclosed : Bool)
    (d : Diagnostics) (kept : ComponentState R M) :
    ∃ j w, (Scheme.computeJacobian (component.target enclosed)).perform
        ⟨a.scheme, d, .start kept x y complex⟩ = (.ok j, w) ∧
      j.keys = (MethodState.chosen component.partials places
        (MethodState.selection places relevant)).map (fun q => (q.of, q.wrt)) ∧
      ∀ pair ∈ j.keys, component.Tabulates law j pair := by
  have hrequests := ha.requests_eq _ hselected
  have hchosen := MethodState.nodup_chosen hplaces harranged.distinct relevant
  obtain ⟨j, w, hw, hkeys, hslopes⟩ := exists_slopes_of_target hx hy hlaw hc hcomplex
    harranged.bounded hunfailing.evaluates enclosed (ha.current.of_graph fun _ => rfl)
    (hrequests ▸ hchosen) (fun q hq => by
      obtain ⟨p, hp, own, hown, -, rfl⟩ := MethodState.exists_of_mem_chosen (hrequests ▸ hq)
      exact ⟨hunfailing.valid p hp own hown, hc.dense p hp, rfl, rfl⟩) (fun q hq => by
      obtain ⟨p, hp, own, hown, -, rfl⟩ := MethodState.exists_of_mem_chosen (hrequests ▸ hq)
      obtain ⟨own, other, hof, hwrt⟩ := harranged.joins p hp
      exact ⟨own, other, harranged.locate?_output hof, locate?_input hwrt⟩) d
  refine ⟨j, w, hw, hrequests ▸ hkeys, fun pair hpair => ?_⟩
  rw [hkeys] at hpair
  obtain ⟨q, hq, rfl⟩ := List.mem_map.1 hpair
  obtain ⟨p, hp, own, hown, -, rfl⟩ := MethodState.exists_of_mem_chosen (hrequests ▸ hq)
  obtain ⟨own, other, hof, hwrt⟩ := harranged.joins p hp
  obtain ⟨b, hb, hfills⟩ := hslopes _ hq own other (harranged.locate?_output hof) (locate?_input hwrt)
  exact ⟨own, other, b, hof, hwrt, hb, hfills⟩

/-- A block of slopes has the form that the component began with. -/
theorem Tabulates.form_eq (hc : component.Affine law) (harranged : component.Arranged)
    {p : DeclaredPartial R} (hp : p ∈ component.partials) {blocks : Jacobian R}
    (h : component.Tabulates law blocks (p.of, p.wrt)) {b : Block R}
    (hb : blocks.get? (p.of, p.wrt) = some b) :
    ∃ old, component.initial.blocks.get? (p.of, p.wrt) = some old ∧ b.form = old.form := by
  obtain ⟨own, other, b', hof, hwrt, hb', hrows, hcols, -⟩ := h
  obtain rfl := Option.some.inj (hb.symm.trans hb')
  refine ⟨_, harranged.get?_initial hp hof hwrt, ?_⟩
  rw [Block.form_zeros, hc.dense p hp, Block.form, hrows, hcols]
  rfl

/-- What a method approximates can be stored. -/
theorem fits_of_tabulates (hc : component.Affine law) (harranged : component.Arranged)
    {selected : List Bool} {j : Jacobian R}
    (hkeys : j.keys = (MethodState.chosen component.partials places selected).map fun q => (q.of, q.wrt))
    (hslopes : ∀ pair ∈ j.keys, component.Tabulates law j pair) (e : (String × String) × Block R)
    (he : e ∈ j.entries) : component.Approximates e.1 ∧
      ∃ old, component.initial.blocks.get? e.1 = some old ∧ e.2.form = old.form := by
  have hmem : e.1 ∈ j.keys := List.mem_map_of_mem he
  have hslope := hslopes e.1 hmem
  rw [hkeys] at hmem
  obtain ⟨q, hq, hpair⟩ := List.mem_map.1 hmem
  obtain ⟨p, hp, own, hown, hpair', -⟩ := MethodState.exists_of_mem_chosen hq
  rw [← hpair, ← hpair'] at hslope ⊢
  exact ⟨harranged.approximates p hp own hown, hslope.form_eq hc harranged hp
    ((Table.get?_eq_some_iff _ _ _).2 (by rw [hpair', hpair]; exact he))⟩

end ModelComponent

namespace Model

variable {m : Model R M} {s : ModelState R M} {c : Nat} {P : String × String → Prop} {x y : Array R}
  (hcomponent : m.components[c]? = some component) (hlawful : component.Affine law)
  (harranged : component.Arranged)
  (hunfailing : component.Unfailing ((m.complex && component.component.complexSafe) = true))

include hcomponent hlawful harranged hunfailing

section Methods

variable (hx : x.size = component.inputs.size) (hy : y.size = component.outputs.size)
  (hlaw : component.Follows law x y)

include hx hy hlaw

/-- **A method of an affine component fills its blocks with slopes**, and leaves the others. -/
theorem yields_approximatePartials {place : Nat} {e : Method × List Nat}
    (he : component.methods[place]? = some e) (relevant : Option (List Bool))
    (hs : s.Tabulates m.policy c component law P) :
    Action.Yields (fun _ t => t.Tabulates m.policy c component law fun pair => P pair ∨
        ∃ q ∈ MethodState.chosen component.partials e.2 (MethodState.selection e.2 relevant),
          (q.of, q.wrt) = pair)
      ((m.approximatePartials c place e.2 relevant x y).perform s) := by
  obtain ⟨k, hk, hsound, htabulates⟩ := hs
  obtain ⟨a, ha⟩ : ∃ a, k.methods[place]? = some a := by
    have hlt := (List.getElem?_eq_some_iff.1 he).1
    exact ⟨_, List.getElem?_eq_getElem (hsound.length_eq ▸ hlt)⟩
  obtain ⟨chosen, hchosen⟩ := MethodState.exists_select hunfailing.valid a e.2 relevant
  obtain ⟨ha', hselected⟩ := (hsound.method place e a he ha).select hchosen
  refine yields_component_bind hcomponent (yields_kept_bind hk (Action.yields_ofOutcome_bind
    ((Outcome.ofOption_eq_ok _ _).2 ha) (Action.yields_ofOutcome_bind
      ((Outcome.mapError_eq_ok _ _ _).2 ((Outcome.ofExcept_eq_ok _ _).2 hchosen))
      (Action.yields_modify_bind ?_))))
  have hstored := ModelState.getElem?_modifyComponent hk fun k : ComponentState R M =>
    { k with methods := k.methods.modify place fun _ => chosen }
  have hsound' := hsound.modifyMethod he fun _ _ _ => ha'
  split
  · rename_i hempty
    refine Action.yields_pure ⟨_, hstored, hsound', fun pair hpair => htabulates pair ?_⟩
    refine hpair.resolve_right ?_
    rintro ⟨q, hq, -⟩
    rw [← ha'.requests_eq _ hselected, List.isEmpty_iff.1 hempty] at hq
    cases hq
  · refine Action.yields_get_bind ?_
    obtain ⟨j, w, hw, hkeys, hslopes⟩ := ModelComponent.exists_tabulates hlawful harranged hunfailing
      (fun h => (Bool.and_eq_true_iff.1 h).2) hx hy hlaw
      (harranged.places e (List.mem_of_getElem? he)) ha' hselected s.stack.isActive s.diagnostics
      { k with methods := k.methods.modify place fun _ => chosen }
    have hkept := ModelState.getElem?_modifyComponent (ModelState.getElem?_modifyComponent hstored
      fun k => { k with memory := w.target.memory, runs := w.target.runs }) fun k =>
        { k with methods := k.methods.modify place fun a => { a with scheme := w.scheme } }
    have hsound'' := hsound.resume he ha' s.stack.isActive (w := ⟨chosen.scheme, s.diagnostics, .start
      { k with methods := k.methods.modify place fun _ => chosen } x y
      (m.complex && component.component.complexSafe)⟩) rfl w.target.memory w.target.runs
    rw [hw] at hsound''
    refine Action.yields_bind (Q := fun j' t => j' = j ∧ t.components[c]? = some _)
      (yields_onComponent hstored hw ⟨rfl, hkept⟩) fun j t ht => ?_
    obtain ⟨rfl, hkept⟩ := ht
    refine ((yields_storeBlocks hunfailing (ModelComponent.fits_of_tabulates hlawful harranged hkeys
      hslopes) hkept hsound'').and fun _ u hu => get?_of_storeBlocks hu hkept).mono fun _ u hu => ?_
    obtain ⟨⟨l, hl, hlsound⟩, l', hl', hget⟩ := hu
    obtain rfl := Option.some.inj (hl.symm.trans hl')
    refine ⟨l, hl, hlsound, fun pair hpair => ?_⟩
    replace hget : l.partials.blocks.get? pair = (j.get? pair).or (k.partials.blocks.get? pair) :=
      hget pair
    by_cases hmem : pair ∈ j.keys
    · have hslope := hslopes pair hmem
      obtain ⟨own, other, b, -, -, hb, -⟩ := hslopes pair hmem
      exact hslope.congr (by rw [hget, hb]; rfl)
    · refine (htabulates pair (hpair.resolve_right ?_)).congr ?_
      · rintro ⟨q, hq, rfl⟩
        exact hmem (hkeys ▸ List.mem_map_of_mem (f := fun q => (q.of, q.wrt)) hq)
      · rw [hget, (Table.get?_eq_none_iff _ _).2 hmem]
        rfl

/-- **All methods** fill their blocks with slopes. -/
theorem yields_approximateMethods {methods : List ((Method × List Nat) × Nat)}
    (hmethods : ∀ z ∈ methods, component.methods[z.2]? = some z.1) (relevant : Option (List Bool))
    (hs : s.Tabulates m.policy c component law P) :
    Action.Yields (fun _ t => t.Tabulates m.policy c component law fun pair => P pair ∨
        ∃ z ∈ methods, ∃ q ∈
          MethodState.chosen component.partials z.1.2 (MethodState.selection z.1.2 relevant),
            (q.of, q.wrt) = pair)
      ((Action.forEach methods fun z => m.approximatePartials c z.2 z.1.2 relevant x y).perform s) := by
  induction methods generalizing s P with
  | nil => exact Action.yields_pure (by simpa using hs)
  | cons z rest ih =>
    obtain ⟨hz, hrest⟩ := List.forall_mem_cons.1 hmethods
    refine Action.yields_bind (yields_approximatePartials hcomponent hlawful harranged hunfailing hx hy
      hlaw hz relevant hs) fun _ t ht => (ih hrest ht).mono fun _ u hu => ?_
    simpa [or_assoc] using hu

end Methods

variable {k : ComponentState R M} (hk : s.components[c]? = some k)
  (hsound : k.Sound component m.policy)

include hk hsound

omit hcomponent in
/-- **An affine component fills the blocks that it computes itself** with its slopes. -/
theorem yields_computePartials (hx : x.size = component.inputs.size) :
    Action.Yields (fun _ t => t.Tabulates m.policy c component law fun pair =>
        ∃ p ∈ component.partials, p.provision.approximation = none ∧ (p.of, p.wrt) = pair)
      ((computePartials c component x : ModelWork R M Unit).perform s) := by
  refine yields_kept_bind hk (Action.yields_on ?_)
  have hanswer := hunfailing.answers x k.memory k.partials hx hsound.holds
  rcases hcall : (component.component.computePartials x).perform (k.memory, k.partials) with
    ⟨o, μ, held⟩
  rw [hcall] at hanswer
  obtain rfl : o = .ok () := hanswer
  have hholds : component.Holds held := by
    have hheld := ModelComponent.Holds.call x k.memory hsound.holds (by rw [hcall]; exact Outcome.answers_ok _)
    rwa [hcall] at hheld
  refine Action.yields_mapError _ ⟨(), (μ, held), hcall, _, ModelState.getElem?_modifyComponent hk _,
    ⟨hholds, hsound.length_eq, hsound.method⟩, ?_⟩
  rintro pair ⟨p, hp, hown, rfl⟩
  obtain ⟨own, other, hof, hwrt⟩ := harranged.joins p hp
  obtain ⟨b, hb, hfills⟩ := hlawful.computed p hp hown hsound.holds hcall own other hof hwrt
  exact ⟨own, other, b, hof, hwrt, hb, hfills⟩

/-- **Linearizing an affine component** at its inputs, from the outputs that its law says, leaves its
slopes in all the blocks that are asked for. -/
theorem yields_linearizeAt (relevant : Option (List Bool)) {baseline : Option (Array R)}
    (hbaseline : baseline.getD (s.outputs.readReal component.outputs) = y)
    (hx : (s.inputs.readReal component.inputs).size = component.inputs.size)
    (hy : y.size = component.outputs.size)
    (hlaw : component.Follows law (s.inputs.readReal component.inputs) y) :
    Action.Yields (fun _ t => t.Tabulates m.policy c component law fun pair =>
        component.Asks relevant pair ∧ ∃ p ∈ component.partials, (p.of, p.wrt) = pair)
      ((m.linearizeAt c relevant baseline).perform s) := by
  refine yields_component_bind hcomponent (Action.yields_get_bind ?_)
  dsimp only
  rw [hbaseline, if_neg (not_not.2 hy)]
  refine Action.yields_bind (yields_computePartials hlawful harranged hunfailing hk hsound hx)
    fun _ t ht => ?_
  refine (yields_approximateMethods hcomponent hlawful harranged hunfailing hx hy hlaw
    (fun z hz => List.mem_zipIdx_iff_getElem?.1 hz) relevant ht).mono fun _ u hu => ?_
  obtain ⟨l, hl, hlsound, htabulates⟩ := hu
  refine ⟨l, hl, hlsound, ?_⟩
  rintro pair ⟨hasks, p, hp, rfl⟩
  refine htabulates _ ?_
  cases hown : p.provision.approximation with
  | none => exact .inl ⟨p, hp, hown, rfl⟩
  | some own =>
    exact .inr ((component.covered_of_asks hasks).resolve_left
      (not_not.2 (harranged.approximates p hp own hown)))

end Model

end Affine

end Sensitivity
