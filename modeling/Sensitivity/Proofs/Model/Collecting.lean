import Sensitivity.Proofs.Model.TotalBlocks

/-!
# Which blocks the chain rule collects

Given a matrix for each declared partial, the blocks of a model are those of its components in the
order in which they run (`Model.links`). The chain rule linearizes one component after the other and
reads some of its blocks. A component that is linearized later leaves the blocks of the earlier ones
alone (`Model.keeps_component_collectBlocks`), so what is read on the way is what is there at the
end: of all blocks, those whose variables lie on a path from a design variable to a response
(`Model.Consistent.collectBlocks_eq`).
-/

namespace Sensitivity

variable {R M : Type}

/-- Whether a block lies on a path from a design variable to a response. -/
def LinkBlock.onPath (reached reaching : List Bool) (b : LinkBlock R) : Bool :=
  Model.onPath reached reaching (b.wrt, b.of)

namespace Model

variable {m : Model R M} {values : Nat → DeclaredPartial R → DenseMatrix R}
  {reached reaching : List Bool} {k : Nat} {c : ModelComponent R M} {s t : ModelState R M}

/-- The blocks of some partials of a component, for given matrices. -/
def linksFor (c : ModelComponent R M) (value : DeclaredPartial R → DenseMatrix R)
    (partials : List (DeclaredPartial R)) : List (LinkBlock R) :=
  partials.filterMap fun p => (c.ends? p).map fun (wrt, of) => ⟨of, wrt, value p⟩

/-- The blocks of the component with a number. -/
def linksOf (m : Model R M) (values : Nat → DeclaredPartial R → DenseMatrix R) (k : Nat) :
    List (LinkBlock R) :=
  (m.components[k]?.map fun c => linksFor c (values k) c.partials).getD []

/-- The blocks of all components. -/
def links (m : Model R M) (values : Nat → DeclaredPartial R → DenseMatrix R) : List (LinkBlock R) :=
  (List.range m.components.length).flatMap (m.linksOf values)

/-- The given matrices are the ones that a component keeps wherever its variables lie on a path. -/
def Keeping [Scalar R] (values : Nat → DeclaredPartial R → DenseMatrix R) (reached reaching : List Bool)
    (c : ModelComponent R M) (k : Nat) (s : ModelState R M) : Prop :=
  ∀ p ∈ c.partials, ∀ ends, c.ends? p = some ends → onPath reached reaching ends = true →
    ∃ kept block, s.components[k]? = some kept ∧
      kept.partials.blocks.get? (p.of, p.wrt) = some block ∧ block.toDense? = some (values k p)

theorem mem_links {b : LinkBlock R} : b ∈ m.links values ↔ ∃ k c p wrt of,
    m.components[k]? = some c ∧ p ∈ c.partials ∧ c.ends? p = some (wrt, of) ∧
      b = ⟨of, wrt, values k p⟩ := by
  simp only [links, linksOf, linksFor, List.mem_flatMap, List.mem_range]
  constructor
  · rintro ⟨k, hk, hb⟩
    rw [List.getElem?_eq_getElem hk, Option.map_some, Option.getD_some, List.mem_filterMap] at hb
    obtain ⟨p, hp, hb⟩ := hb
    obtain ⟨⟨wrt, of⟩, hends, rfl⟩ := Option.map_eq_some_iff.1 hb
    exact ⟨k, _, p, wrt, of, List.getElem?_eq_getElem hk, hp, hends, rfl⟩
  · rintro ⟨k, c, p, wrt, of, hc, hp, hends, rfl⟩
    refine ⟨k, (List.getElem?_eq_some_iff.1 hc).1, ?_⟩
    rw [hc, Option.map_some, Option.getD_some, List.mem_filterMap]
    exact ⟨p, hp, by rw [hends]; rfl⟩

section Component

/-- What a component is asked for, of some of its partials. -/
def wanted (reached reaching : List Bool) (c : ModelComponent R M) (kept : ComponentState R M)
    (partials : List (DeclaredPartial R)) : List (Nat × Nat × Block R) :=
  partials.filterMap fun p =>
    if (c.ends? p).any (onPath reached reaching) then do
      let (wrt, of) ← c.ends? p
      return (of, wrt, ← kept.partials.blocks.get? (p.of, p.wrt))
    else none

theorem wanted_eq (kept : ComponentState R M) (partials : List (DeclaredPartial R)) :
    (partials.zip (partials.map fun p => (c.ends? p).any (onPath reached reaching))).filterMap
      (fun (p, on) => do
        if on then
          let (wrt, of) ← c.ends? p
          return (of, wrt, ← kept.partials.blocks.get? (p.of, p.wrt))
        else none) = wanted reached reaching c kept partials := by
  induction partials with
  | nil => rfl
  | cons p rest ih =>
    rw [List.map_cons, List.zip_cons_cons, wanted, List.filterMap_cons, List.filterMap_cons]
    rw [wanted] at ih
    rw [ih]

variable [Scalar R]

/-- **What is read of a component** are its blocks on a path. -/
theorem forall₂_wanted {kept : ComponentState R M} {value : DeclaredPartial R → DenseMatrix R}
    {partials : List (DeclaredPartial R)} (hvalues : ∀ p ∈ partials, ∀ ends,
      c.ends? p = some ends → onPath reached reaching ends = true → ∃ block,
        kept.partials.blocks.get? (p.of, p.wrt) = some block ∧ block.toDense? = some (value p)) :
    List.Forall₂ (fun x b => x.2.2.toDense?.map (LinkBlock.mk x.1 x.2.1) = some b)
      (wanted reached reaching c kept partials)
      ((linksFor c value partials).filter (LinkBlock.onPath reached reaching)) := by
  induction partials with
  | nil => exact .nil
  | cons p rest ih =>
    have hrest := ih fun q hq => hvalues q (List.mem_cons_of_mem _ hq)
    unfold wanted linksFor at hrest ⊢
    cases hends : c.ends? p with
    | none =>
      simp only [List.filterMap_cons, hends, Option.any_none, Bool.false_eq_true, if_false,
        Option.map_none]
      exact hrest
    | some ends =>
      cases hon : onPath reached reaching ends with
      | false =>
        simp only [List.filterMap_cons, hends, Option.any_some, hon, Bool.false_eq_true, if_false,
          Option.map_some, List.filter_cons, LinkBlock.onPath]
        exact hrest
      | true =>
        obtain ⟨block, hblock, hdense⟩ := hvalues p List.mem_cons_self ends hends hon
        simp only [List.filterMap_cons, hends, Option.any_some, hon, if_true, Option.map_some,
          List.filter_cons, LinkBlock.onPath, Option.bind_eq_bind, Option.bind_some, hblock]
        exact .cons (by rw [hdense]; rfl) hrest

/-- Reading blocks as matrices leaves the state alone. -/
theorem perform_mapM_dense (xs : List (Nat × Nat × Block R)) (s : ModelState R M) :
    (xs.mapM (fun x => do
        return ⟨x.1, x.2.1, ← denseOf x.2.2⟩) : ModelWork R M (List (LinkBlock R))).perform s =
      (xs.mapM fun x => .ofOption (x.2.2.toDense?.map (LinkBlock.mk x.1 x.2.1)), s) := by
  have hread : (fun x : Nat × Nat × Block R => (do
      return ⟨x.1, x.2.1, ← denseOf x.2.2⟩ : ModelWork R M (LinkBlock R))) = fun x =>
        Action.ofOutcome (.ofOption (x.2.2.toDense?.map (LinkBlock.mk x.1 x.2.1))) := by
    funext x
    unfold denseOf
    cases x.2.2.toDense? <;> rfl
  rw [hread, Action.mapM_ofOutcome]

/-- **The blocks that a component contributes** are those on a path that it keeps afterwards. -/
theorem componentBlocks_eq (hc : m.components[k]? = some c)
    (hvalues : Keeping values reached reaching c k t) {own : List (LinkBlock R)}
    (h : (m.componentBlocks reached reaching k).perform s = (.ok own, t)) :
    own = (m.linksOf values k).filter (LinkBlock.onPath reached reaching) := by
  rw [linksOf, hc, Option.map_some, Option.getD_some]
  obtain ⟨c', hc', h⟩ := Action.ofOutcome_bind_eq_ok.1 h
  obtain rfl := Option.some.inj (hc.symm.trans ((Outcome.ofOption_eq_ok _ _).1 hc'))
  dsimp only at h
  split at h
  · rename_i hnone
    cases h
    refine (List.filter_eq_nil_iff.2 fun b hb => ?_).symm
    obtain ⟨p, hp, hb⟩ := List.mem_filterMap.1 hb
    obtain ⟨ends, hends, rfl⟩ := Option.map_eq_some_iff.1 hb
    simp only [List.any_map, Bool.not_eq_true', List.any_eq_false, Function.comp_apply, id] at hnone
    simpa [hends, LinkBlock.onPath] using hnone p hp
  · obtain ⟨_, s₁, -, h⟩ := Action.bind_eq_ok.1 h
    obtain ⟨kept, s₂, hkept, h⟩ := Action.bind_eq_ok.1 h
    obtain ⟨hthere, rfl⟩ := Prod.mk.inj hkept
    rw [Outcome.ofOption_eq_ok] at hthere
    rw [wanted_eq, perform_mapM_dense] at h
    obtain ⟨hown, rfl⟩ := Prod.mk.inj h
    have hfound := forall₂_wanted fun p hp ends hends hon => by
      obtain ⟨kept', block, hkept', hblock⟩ := hvalues p hp ends hends hon
      obtain rfl := Option.some.inj (hthere.symm.trans hkept')
      exact ⟨block, hblock⟩
    have hall : List.Forall₂ (fun x b => x.2.2.toDense?.map (LinkBlock.mk x.1 x.2.1) = some b)
        (wanted reached reaching c kept c.partials) own :=
      (Except.mapM_eq_ok.1 hown).imp fun x b hb => (Outcome.ofOption_eq_ok _ _).1 hb
    exact List.right_unique_forall₂'
      (fun x b b' hb hb' => Option.some.inj (hb.symm.trans hb')) hall hfound

end Component

section Schedule

variable [Scalar R] [DirectSolver R]

/-- **A component is left alone** while the blocks of others are collected. -/
theorem keeps_component_collectBlocks {schedule : Schedule R}
    (hplain : ∀ x ∈ schedule.groups, x.1.approximation = none) (hk : k ∉ schedule.components) :
    (m.collectBlocks reached reaching schedule).Keeps fun s => s.components[k]? := by
  intro kept
  induction schedule with
  | done => exact Action.preserves_pure _
  | component c rest ih =>
    obtain ⟨hne, hrest⟩ := not_or.1 (List.mem_cons.not.1 hk)
    have houtside : Outside c fun s : ModelState R M => s.components[k]? :=
      ⟨fun s f => List.getElem?_modify_ne f s.components (Ne.symm hne), fun _ _ => rfl⟩
    refine Action.preserves_bind (m.preserves_componentBlocks (fun relevant =>
      houtside.linearizeAt m relevant none kept) reached reaching) fun _ => ?_
    exact Action.preserves_bind (ih hplain hrest) fun _ => Action.preserves_pure _
  | group g body rest ihBody ihRest =>
    obtain ⟨hbody, hrest⟩ := not_or.1 (List.mem_append.not.1 hk)
    have hg : g.approximation = none := hplain (g, body) List.mem_cons_self
    unfold collectBlocks
    rw [hg]
    refine Action.preserves_bind (ihBody (fun x hx => hplain x ?_) hbody) fun _ =>
      Action.preserves_bind (ihRest (fun x hx => hplain x ?_) hrest) fun _ => Action.preserves_pure _
    · exact List.mem_cons_of_mem _ (List.mem_append_left _ hx)
    · exact List.mem_cons_of_mem _ (List.mem_append_right _ hx)

/-- **What is collected from a schedule** are the blocks of its components that lie on a path. -/
theorem collectBlocks_eq {schedule : Schedule R}
    (hplain : ∀ x ∈ schedule.groups, x.1.approximation = none)
    (hnodup : schedule.components.Nodup)
    (hvalues : ∀ k ∈ schedule.components, ∀ c, m.components[k]? = some c →
      Keeping values reached reaching c k t) {blocks : List (LinkBlock R)}
    (h : (m.collectBlocks reached reaching schedule).perform s = (.ok blocks, t)) :
    blocks = (schedule.components.flatMap (m.linksOf values)).filter
      (LinkBlock.onPath reached reaching) := by
  induction schedule generalizing s t blocks with
  | done =>
    cases h
    rfl
  | component k rest ih =>
    obtain ⟨hk, hnodup⟩ := List.nodup_cons.1 hnodup
    obtain ⟨own, s₁, hown, h⟩ := Action.bind_eq_ok.1 h
    obtain ⟨later, s₂, hlater, h⟩ := Action.bind_eq_ok.1 h
    cases h
    have hrest : ∀ x ∈ rest.groups, x.1.approximation = none := hplain
    have hsame : t.components[k]? = s₁.components[k]? :=
      (keeps_component_collectBlocks hrest hk _).of_ok rfl hlater
    obtain ⟨c, hc, -⟩ := Action.ofOutcome_bind_eq_ok.1 hown
    have hc := (Outcome.ofOption_eq_ok _ _).1 hc
    have hkeeping : Keeping values reached reaching c k s₁ := by
      have ht := hvalues k List.mem_cons_self c hc
      unfold Keeping at ht ⊢
      rwa [hsame] at ht
    rw [componentBlocks_eq hc hkeeping hown,
      ih hplain hnodup (fun j hj => hvalues j (List.mem_cons_of_mem _ hj)) hlater,
      Schedule.components, List.flatMap_cons, List.filter_append]
  | group g body rest ihBody ihRest =>
    obtain ⟨hbody, hrest, hdisjoint⟩ := List.nodup_append.1 hnodup
    have hg : g.approximation = none := hplain (g, body) List.mem_cons_self
    have hplainBody (x : ModelGroup R × Schedule R) (hx : x ∈ body.groups) :
        x.1.approximation = none :=
      hplain x (List.mem_cons_of_mem _ (List.mem_append_left _ hx))
    have hplainRest (x : ModelGroup R × Schedule R) (hx : x ∈ rest.groups) :
        x.1.approximation = none :=
      hplain x (List.mem_cons_of_mem _ (List.mem_append_right _ hx))
    unfold collectBlocks at h
    rw [hg] at h
    obtain ⟨own, s₁, hown, h⟩ := Action.bind_eq_ok.1 h
    obtain ⟨later, s₂, hlater, h⟩ := Action.bind_eq_ok.1 h
    cases h
    have hkeeping (k : Nat) (hk : k ∈ body.components) (c : ModelComponent R M)
        (hc : m.components[k]? = some c) : Keeping values reached reaching c k s₁ := by
      have hsame : t.components[k]? = s₁.components[k]? :=
        (keeps_component_collectBlocks hplainRest (fun hk' => hdisjoint k hk k hk' rfl) _).of_ok rfl
          hlater
      have ht := hvalues k (List.mem_append_left _ hk) c hc
      unfold Keeping at ht ⊢
      rwa [hsame] at ht
    rw [ihBody hplainBody hbody hkeeping hown,
      ihRest hplainRest hrest (fun k hk => hvalues k (List.mem_append_right _ hk)) hlater,
      Schedule.components, List.flatMap_append, List.filter_append]

/-- **The chain rule collects the blocks on a path**, of all blocks of the model, in a model whose
groups do not approximate their derivatives. -/
theorem Consistent.collectBlocks_eq {g : Group R M} (hm : m.Consistent g)
    (hplain : ∀ x ∈ m.schedule.groups, x.1.approximation = none)
    (hvalues : ∀ k c, m.components[k]? = some c → Keeping values reached reaching c k t)
    {blocks : List (LinkBlock R)}
    (h : (m.collectBlocks reached reaching m.schedule).perform s = (.ok blocks, t)) :
    blocks = (m.links values).filter (LinkBlock.onPath reached reaching) := by
  have hcomponents : m.schedule.components = List.range m.components.length := by
    rw [hm.follows.components_eq, Nat.sub_zero, List.range_eq_range']
  have hnodup : m.schedule.components.Nodup := hcomponents ▸ List.nodup_range
  rw [Model.collectBlocks_eq hplain hnodup (fun k _ => hvalues k) h, hcomponents, links]

end Schedule

end Model

end Sensitivity
