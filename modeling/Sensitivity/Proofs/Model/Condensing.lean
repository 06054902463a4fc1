import Sensitivity.Proofs.Model.Tracking

/-!
# Groups that stand for their members

The chain rule takes a group that approximates its derivatives as a whole: an output inside it depends
on the inputs that the group reads from elsewhere, as derivatives across the group say, and on nothing
inside (`Model.condensed`). Only the outermost group around a component counts
(`Schedule.enclosure`).

Dependencies between outputs inside such a group are thereby lost, so a change of an output that the
group reads itself goes wrong. Changes of all other variables have the tangents that they have in the
model with all its connections (`Model.Affine.tangent_condensed`).
-/

namespace Sensitivity

variable {R M : Type}

namespace Schedule

/-- The components of the outermost group around a component that approximates its derivatives. -/
def enclosure : Schedule R → Nat → Option Span
  | done, _ => none
  | component _ rest, k => rest.enclosure k
  | group g body rest, k =>
    if g.components.contains k then
      if g.approximation.isSome then some g.components else body.enclosure k
    else rest.enclosure k

theorem enclosure_eq_none {schedule : Schedule R}
    (hplain : ∀ x ∈ schedule.groups, x.1.approximation = none) (k : Nat) :
    schedule.enclosure k = none := by
  induction schedule with
  | done => rfl
  | component c rest ih => exact ih hplain
  | group g body rest ihbody ihrest =>
    obtain ⟨hg, hplain⟩ := List.forall_mem_cons.1 hplain
    obtain ⟨hbody, hrest⟩ := List.forall_mem_append.1 hplain
    unfold enclosure
    split
    · rw [if_neg (by rw [hg]; simp), ihbody hbody]
    · exact ihrest hrest

variable {cs : List (ModelComponent R M)} {path : String} {members : Members R M}
  {schedule : Schedule R} {first stop j k : Nat} {scope : Span}

/-- An enclosure of a component has the component, and is among those that are run. -/
theorem Follows.of_enclosure (h : Follows cs path members schedule first stop)
    (hk : schedule.enclosure k = some scope) :
    scope.contains k = true ∧ first ≤ scope.start ∧ scope.stop ≤ stop := by
  induction h with
  | empty => cases hk
  | component _ _ _ _ ih =>
    obtain ⟨hscope, hfirst, hstop⟩ := ih hk
    exact ⟨hscope, by omega, hstop⟩
  | @group _ _ _ _ _ g body rest stop _ _ _ hbody hrest ihbody ihrest =>
    have hbefore := hbody.le
    have hafter := hrest.le
    unfold enclosure at hk
    split at hk
    · rename_i hg
      split at hk
      · cases hk
        exact ⟨hg, Nat.le_refl _, hafter⟩
      · obtain ⟨hscope, hfirst, hstop⟩ := ihbody hk
        exact ⟨hscope, hfirst, hstop.trans hafter⟩
    · obtain ⟨hscope, hfirst, hstop⟩ := ihrest hk
      exact ⟨hscope, hbefore.trans hfirst, hstop⟩

theorem Follows.enclosure_of_lt (h : Follows cs path members schedule first stop) (hk : k < first) :
    schedule.enclosure k = none := by
  refine Option.eq_none_iff_forall_not_mem.2 fun scope hscope => ?_
  obtain ⟨hcontains, hfirst, -⟩ := h.of_enclosure hscope
  have := (Span.contains_iff.1 hcontains).1
  omega

/-- All components of an enclosure have this enclosure. -/
theorem Follows.enclosure_congr (h : Follows cs path members schedule first stop)
    (hj : schedule.enclosure j = some scope) (hk : scope.contains k = true) :
    schedule.enclosure k = some scope := by
  induction h with
  | empty => cases hj
  | component _ _ _ _ ih => exact ih hj
  | @group _ _ _ _ _ g body rest stop _ _ _ hbody hrest ihbody ihrest =>
    obtain ⟨hfirst, hlast⟩ := Span.contains_iff.1 hk
    unfold enclosure at hj ⊢
    split at hj
    · split at hj
      · rename_i happrox
        cases hj
        rw [if_pos hk, if_pos happrox]
      · rename_i happrox
        obtain ⟨-, hstart, hstop⟩ := hbody.of_enclosure hj
        rw [if_pos (Span.contains_iff.2 ⟨by omega, by omega⟩), if_neg happrox]
        exact ihbody hj
    · obtain ⟨-, hstart, -⟩ := hrest.of_enclosure hj
      rw [if_neg fun h => by have := (Span.contains_iff.1 h).2; omega]
      exact ihrest hj

end Schedule

namespace Model

variable [ExactScalar R] {m : Model R M} {laws : Nat → AffineLaw R} {scope : Span} {k p r : Nat}

variable (m) in
/-- The outermost group around an entry of the outputs that approximates its derivatives. -/
def enclosing (r : Nat) : Option Span := (m.ownerOf? .output r).bind m.schedule.enclosure

variable (m) in
/-- The affine system of a model in which groups that approximate their derivatives stand for their
members. -/
def condensed (laws : Nat → AffineLaw R) : Flow R :=
  (m.flow laws).condense fun r => (m.enclosing r).map m.inScope

theorem slope_condensed_of_none (h : m.enclosing r = none) (p : Nat) :
    (m.condensed laws).slope r p = (m.flow laws).slope r p := by
  simp only [condensed, Flow.condense, h, Option.map_none]

theorem slope_condensed_of_some (h : m.enclosing r = some scope) (p : Nat) :
    (m.condensed laws).slope r p = if ((m.flowIn laws scope).wire p).isNone then
      (m.flowIn laws scope).tangent (Flow.unit p) (fun _ => 0) r else 0 := by
  simp only [condensed, Flow.condense, h, Option.map_some]
  rfl

variable (m) in
/-- A variable that no input reads inside the outermost group around the variable that approximates
its derivatives. -/
def Unread (id : Nat) : Prop :=
  ∀ v scope, m.variableAt? id = some v → m.schedule.enclosure v.owner = some scope →
    ∀ target w, m.source? target = some id → m.variableAt? target = some w →
      scope.contains w.owner = false

section Affine

variable (hm : m.Affine laws)

include hm

/-- An entry of the outputs in a group depends on entries of its own inputs only. -/
theorem Affine.inside_of_tangent
    (h : (m.flowIn laws scope).tangent (Flow.unit p) (fun _ => 0) r ≠ 0)
    (hr : m.inScope scope r = true) :
    ∃ k, m.ownerOf? .input p = some k ∧ scope.contains k = true := by
  refine (Option.any_eq_true _ _).1 (Flow.of_tangent_ne_zero (hm.ordered.within _)
    (A := fun j => (m.ownerOf? .input j).any scope.contains = true →
      (m.ownerOf? .input p).any scope.contains = true)
    (B := fun r => m.inScope scope r = true → (m.ownerOf? .input p).any scope.contains = true)
    (fun j hj => ?_) (fun _ h => absurd rfl h) (fun r j hslope hj hr => ?_) (fun j q hwire hq _ => ?_)
    h hr)
  · unfold Flow.unit at hj
    split at hj
    · rename_i hjp
      exact hjp ▸ id
    · exact absurd rfl hj
  · obtain ⟨k, c, hc, hrc, hjc, -⟩ := hm.laid.of_slope_flow_ne_zero hslope
    refine hj ?_
    rw [inScope, (hm.laid.owner_output_iff hc).2 hrc] at hr
    rwa [(hm.laid.owner_input_iff hc).2 hjc]
  · exact hq (Option.filter_eq_some_iff.1 hwire).2

/-- **A group by itself keeps changes** of outputs that it does not read. -/
theorem Affine.tangent_inert {y : Nat → R}
    (hy : ∀ p q k, m.wire p = some q → y q ≠ 0 → m.inScope scope q = true →
      m.ownerOf? .input p = some k → scope.contains k = false) (hr : m.inScope scope r = true) :
    (m.flowIn laws scope).tangent (fun _ => 0) y r = y r := by
  rw [hm.tangent_eq]
  refine (congrArg (y r + ·) (Finset.sum_eq_zero fun p _ => ?_)).trans (add_zero _)
  by_contra hne
  obtain ⟨k, c, hc, hrc, hpc, -⟩ := hm.laid.of_slope_flow_ne_zero (left_ne_zero_of_mul hne)
  have hp := (hm.laid.owner_input_iff hc).2 hpc
  have hfeed := right_ne_zero_of_mul hne
  unfold Flow.feed at hfeed
  split at hfeed
  swap
  · exact hfeed rfl
  rename_i q hwire
  obtain ⟨hq, hscope⟩ := Option.filter_eq_some_iff.1 hwire
  have hmoved : m.inScope scope q = true → y q ≠ 0 := by
    refine Flow.of_tangent_ne_zero (hm.ordered.within _)
      (A := fun p => ∀ k, m.ownerOf? .input p = some k → scope.contains k = false)
      (B := fun q => m.inScope scope q = true → y q ≠ 0) (fun _ h => absurd rfl h)
      (fun _ h _ => h) (fun r p hslope hp hr => ?_) (fun p q hwire hq k hk => ?_) hfeed
    · obtain ⟨k, c, hc, hrc, hpc, -⟩ := hm.laid.of_slope_flow_ne_zero hslope
      rw [inScope, (hm.laid.owner_output_iff hc).2 hrc, Option.any_some,
        hp k ((hm.laid.owner_input_iff hc).2 hpc)] at hr
      cases hr
    · obtain ⟨hread, hinside⟩ := Option.filter_eq_some_iff.1 hwire
      exact hy p q k hread (hq hinside) hinside hk
  have houtside := hy p q k hq (hmoved hscope) hscope hp
  rw [inScope, (hm.laid.owner_output_iff hc).2 hrc, Option.any_some, houtside] at hr
  cases hr

omit [ExactScalar R] hm in
theorem of_enclosing (h : m.enclosing r = some scope) :
    ∃ k, m.ownerOf? .output r = some k ∧ m.schedule.enclosure k = some scope :=
  Option.bind_eq_some_iff.1 h

variable {g : Group R M} (hconsistent : m.Consistent g)

include hconsistent

omit [ExactScalar R] hm in
theorem Consistent.inScope_of_enclosing (h : m.enclosing r = some scope) :
    m.inScope scope r = true := by
  obtain ⟨k, hk, hscope⟩ := of_enclosing h
  rw [inScope, hk]
  exact (hconsistent.follows.of_enclosure hscope).1

/-- What an entry of the outputs depends on comes before it. -/
theorem Affine.ordered_condensed : (m.condensed laws).Ordered := by
  intro r p q hslope hwire
  cases hr : m.enclosing r with
  | none => exact hm.ordered r p q (slope_condensed_of_none hr p ▸ hslope) hwire
  | some scope =>
    rw [slope_condensed_of_some hr] at hslope
    split at hslope
    swap
    · exact absurd rfl hslope
    rename_i houtside
    have hin := hconsistent.inScope_of_enclosing hr
    obtain ⟨i, hi, hiscope⟩ := hm.inside_of_tangent hslope hin
    obtain ⟨j, hj, hji⟩ := hm.owner_of_wire hi hwire
    obtain ⟨k, hk, hkscope⟩ := (Option.any_eq_true _ _).1 hin
    have hout : m.inScope scope q = false := by
      by_contra hq
      have hread : (m.flowIn laws scope).wire p = some q :=
        Option.filter_eq_some_iff.2 ⟨hwire, by simpa using hq⟩
      rw [hread] at houtside
      cases houtside
    -- what comes from outside comes from before the group
    rw [inScope, hj, Option.any_some] at hout
    refine hm.lt_of_owner hj hk ?_
    rw [Span.contains_iff] at hiscope hkscope
    by_contra hle
    rw [Span.contains_iff.2 ⟨by omega, by omega⟩] at hout
    cases hout

/-- **Groups stand for their members along paths of the graph.** -/
theorem Affine.path_of_condensed (h : (m.condensed laws).slope r p ≠ 0) :
    ∃ wrt of, m.holder? .input p = some wrt ∧ m.holder? .output r = some of ∧
      m.graph.Path wrt of := by
  cases hr : m.enclosing r with
  | none =>
    rw [slope_condensed_of_none hr] at h
    obtain ⟨k, n, input, output, hn, -, hinput, houtput, he⟩ := hm.mem_edges_of_slope h
    exact ⟨input, output, hinput, houtput, .single (hm.laid.complete.mem_edges_of_component hn he)⟩
  | some scope =>
    rw [slope_condensed_of_some hr] at h
    split at h
    swap
    · exact absurd rfl h
    obtain ⟨k, hk, -⟩ := hm.inside_of_tangent h (hconsistent.inScope_of_enclosing hr)
    obtain ⟨w, hw, -⟩ := Option.map_eq_some_iff.1 hk
    obtain ⟨wrt, hwrt, -⟩ := Option.bind_eq_some_iff.1 hw
    have hunit (j : Nat) (hj : (Flow.unit p j : R) ≠ 0) :
        m.EntryOf .input (m.Reached (· = wrt)) j := by
      unfold Flow.unit at hj
      split at hj
      · rename_i hjp
        exact ⟨wrt, hjp ▸ hwrt, wrt, rfl, .refl⟩
      · exact absurd rfl hj
    obtain ⟨of, hof, u, rfl, hpath⟩ := hm.reached_of_tangent hunit (fun _ h => absurd rfl h) h
    exact ⟨u, of, hwrt, hof, hpath⟩

/-- **Changes of a variable that no approximated group around it reads** have the tangents that they
have with all connections. -/
theorem Affine.tangent_condensed {id : Nat} {w : ModelVariable R} (hw : m.variableAt? id = some w)
    (hunread : m.Unread id) {j : Nat} (hj : j < w.size) (x : Nat → R) (r : Nat) :
    (m.condensed laws).tangent x (w.seed j .output) r =
      (m.flow laws).tangent x (w.seed j .output) r := by
  refine Flow.tangent_condense hm.ordered (hm.ordered_condensed hconsistent) (fun r P hr => ?_) r
  obtain ⟨scope, hscope, rfl⟩ := Option.map_eq_some_iff.1 hr
  refine hm.tangent_inert (fun p q k hwire hq hin hk => ?_) (hconsistent.inScope_of_enclosing hscope)
  obtain ⟨target, source, u, v, htarget, hu, -, hsource, hv, hkind, hcontains, -⟩ := hm.laid.of_wire hwire
  obtain ⟨hwkind, hholder, howner⟩ := hm.laid.entryOf_of_seed (δ := 1) hw hj (by rwa [one_mul])
  obtain rfl := Option.some.inj ((hkind ▸ hm.laid.holder?_eq hv hcontains).symm.trans hholder)
  rw [inScope, howner, Option.any_some] at hin
  obtain ⟨i, -, hi⟩ := of_enclosing hscope
  rw [ownerOf?, htarget, Option.bind_some, hu, Option.map_some] at hk
  obtain rfl := Option.some.inj hk
  exact hunread w scope hw (hconsistent.follows.enclosure_congr hi hin) target u hsource hu

end Affine

end Model

end Sensitivity
