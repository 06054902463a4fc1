import Mathlib.Data.List.Perm.Basic
import Mathlib.Data.List.Nodup
import Sensitivity.Proofs.Approximation.Coloring

/-!
# Every column once

A plan neither loses nor doubles what its requests ask for. Each step of building it only moves
things about: the groups hold the requests (`Plan.groups_perm`), colors hold the seeds that they are
given (`Plan.colors_perm`), and the directions hold the seeds of the groups
(`Plan.distributes_arrange`). No two seeds of the groups share a column, so the columns of a plan are
distinct (`Plan.nodup_columns`).

With where a column stands (`Plan.exists_request_of_column`) and which columns a seed has
(`Plan.mem_columns_of_beq`), this makes a plan a cover of the requests (`Plan.covers_of_build`).
-/

namespace Sensitivity

open scoped List

variable {R : Type}

namespace Plan

/-- The columns of all seeds, in order. -/
def columns (p : Plan R) : List Column :=
  p.directions.flatMap fun d => d.seeds.flatMap Seed.columns

section Colors

/-- First fit puts the seed somewhere and leaves the others where they are. -/
theorem firstFit_perm (seed : Seed) (rows : List Nat) (cs : List Color) :
    (firstFit seed rows cs).flatMap Color.seeds ~ cs.flatMap Color.seeds ++ [seed] := by
  rcases firstFit_cases seed rows cs with ⟨before, c, after, rfl, -, -, he⟩ | ⟨-, he⟩ <;> rw [he]
  · simp only [List.flatMap_append, List.flatMap_cons, List.append_assoc]
    have hswap : [seed] ++ after.flatMap Color.seeds ~ after.flatMap Color.seeds ++ [seed] :=
      List.perm_append_comm
    exact (hswap.append_left c.seeds).append_left _
  · simp

/-- **Colors hold the seeds that they are given**, each once. -/
theorem colors_perm (seeds : List (Seed × List Nat)) :
    (colors seeds).flatMap Color.seeds ~ seeds.map Prod.fst := by
  have h (cs : List Color) : (seeds.foldl (fun cs s => firstFit s.1 s.2 cs) cs).flatMap Color.seeds ~
      cs.flatMap Color.seeds ++ seeds.map Prod.fst := by
    induction seeds generalizing cs with
    | nil => simp
    | cons x rest ih =>
      refine (ih _).trans (((firstFit_perm x.1 x.2 cs).append_right _).trans ?_)
      simp
  exact h []

/-- No color is empty. -/
theorem ne_nil_of_mem_colors (seeds : List (Seed × List Nat)) :
    ∀ c ∈ colors seeds, c.seeds ≠ [] := by
  have h (cs : List Color) (hcs : ∀ c ∈ cs, c.seeds ≠ []) :
      ∀ c ∈ seeds.foldl (fun cs s => firstFit s.1 s.2 cs) cs, c.seeds ≠ [] := by
    induction seeds generalizing cs with
    | nil => exact hcs
    | cons x rest ih =>
      refine ih (firstFit x.1 x.2 cs) fun c hc => ?_
      rcases firstFit_cases x.1 x.2 cs with
        ⟨before, m, after, rfl, -, -, he⟩ | ⟨-, he⟩ <;> rw [he] at hc
      · rcases eq_or_mem_of_replaced (a := m) hc with rfl | hc
        · simp
        · exact hcs c hc
      · rcases List.mem_append.1 hc with hc | hc
        · exact hcs c hc
        · cases List.mem_singleton.1 hc
          simp
  exact h [] (by simp)

end Colors

section Groups

variable [Scalar R]

/-- **The groups hold the requests**, each once. -/
theorem groups_perm (requests : List (Request R)) :
    (groups requests).flatMap Group.requests ~ requests.zipIdx.map Prod.swap := by
  have h (xs : List (Request R × Nat)) (gs : List (Group R)) :
      (xs.foldl (fun gs x => addToGroups x.2 x.1 gs) gs).flatMap Group.requests ~
        gs.flatMap Group.requests ++ xs.map Prod.swap := by
    induction xs generalizing gs with
    | nil => simp
    | cons x rest ih =>
      refine (ih (addToGroups x.2 x.1 gs)).trans ?_
      rw [List.map_cons, List.append_cons]
      refine List.Perm.append_right _ ?_
      rcases addToGroups_cases x.2 x.1 gs with ⟨before, g, after, rfl, -, -, he⟩ | ⟨-, he⟩ <;> rw [he]
      · simp only [List.flatMap_append, List.flatMap_cons, List.append_assoc]
        have hswap : [x.swap] ++ after.flatMap Group.requests ~
            after.flatMap Group.requests ++ [x.swap] := List.perm_append_comm
        exact (hswap.append_left g.requests).append_left _
      · simp [Prod.swap]
  exact h requests.zipIdx []

/-- The groups number every request once. -/
theorem nodup_groups (requests : List (Request R)) :
    ((groups requests).flatMap fun g => g.requests.map Prod.fst).Nodup := by
  have h := ((groups_perm requests).map Prod.fst).nodup_iff
  rw [List.map_flatMap] at h
  refine h.2 ?_
  simp [Function.comp_def, List.zipIdx_map_snd, List.nodup_range']

/-- A request is in one group only. -/
theorem group_eq_of_mem {requests : List (Request R)} {g h : Group R} (hg : g ∈ groups requests)
    (hh : h ∈ groups requests) {r : Nat} {p q : Request R} (hp : (r, p) ∈ g.requests)
    (hq : (r, q) ∈ h.requests) : g = h := by
  by_contra hne
  have hsymm : Std.Symm (Function.onFun List.Disjoint fun g : Group R => g.requests.map Prod.fst) :=
    ⟨fun _ _ hdisjoint => hdisjoint.symm⟩
  exact (List.nodup_flatMap.1 (nodup_groups requests)).2.forall hg hh hne
    (List.mem_map.2 ⟨(r, p), hp, rfl⟩) (List.mem_map.2 ⟨(r, q), hq, rfl⟩)

end Groups

section Seeds

variable {sizes : Sizes} {g : Group R} {seeds : List Seed}

/-- Numbered requests have no column in common. -/
theorem nodup_selected {xs : List (Nat × Request R)} {columns : List (List (Nat × Column))}
    (h : xs.mapM (fun x => do
      return (← x.2.cols sizes).mapIdx fun col index => (index, Column.mk x.1 col)) = .ok columns)
    (hnodup : (xs.map Prod.fst).Nodup) :
    (columns.flatten.map Prod.snd).Nodup ∧
      ∀ c ∈ columns.flatten.map Prod.snd, c.request ∈ xs.map Prod.fst := by
  rw [Except.mapM_eq_ok] at h
  induction h with
  | nil => simp
  | @cons x own xs columns hx hrest ih =>
    obtain ⟨cols, -, hown⟩ := Except.bind_eq_ok.1 hx
    cases hown
    obtain ⟨hfirst, hnodup⟩ := List.nodup_cons.1 hnodup
    obtain ⟨hcolumns, hrequests⟩ := ih hnodup
    have hown : (cols.mapIdx fun col index => (index, Column.mk x.1 col)).map Prod.snd =
        (List.range cols.length).map (Column.mk x.1) := by
      refine List.ext_getElem (by simp) fun k _ _ => ?_
      simp
    rw [List.flatten_cons, List.map_append, hown]
    refine ⟨List.nodup_append'.2 ⟨?_, hcolumns, ?_⟩, fun c hc => ?_⟩
    · refine List.nodup_range.map fun a b hab => ?_
      simpa using hab
    · intro c hc hmem
      obtain ⟨k, -, rfl⟩ := List.mem_map.1 hc
      exact hfirst (hrequests _ hmem)
    · rcases List.mem_append.1 hc with hc | hc
      · obtain ⟨k, -, rfl⟩ := List.mem_map.1 hc
        exact List.mem_cons_self
      · exact List.mem_cons_of_mem _ (hrequests c hc)

/-- **The seeds of a group share no column**: they perturb different entries, and a column stands for
one entry only. -/
theorem nodup_groupSeeds (h : groupSeeds sizes g = .ok seeds)
    (hnodup : (g.requests.map Prod.fst).Nodup) : (seeds.flatMap Seed.columns).Nodup := by
  simp only [groupSeeds, Except.bind_eq_ok] at h
  obtain ⟨selected, hselected, h⟩ := h
  cases h
  have hcolumns := (nodup_selected hselected hnodup).1
  refine List.nodup_flatMap.2 ⟨fun s hs => ?_, List.pairwise_filterMap.2 ?_⟩
  · obtain ⟨i, -, hi⟩ := List.mem_filterMap.1 hs
    split at hi
    · cases hi
    · cases hi
      refine (List.Nodup.of_map _ hcolumns).filterMap fun a b c ha hb => ?_
      simp only [Option.mem_def, Option.ite_none_right_eq_some, Option.some.injEq] at ha hb
      exact Prod.ext (ha.1.trans hb.1.symm) (ha.2.trans hb.2.symm)
  · refine List.nodup_range.imp fun {i j} hij s hs t ht c hcs hct => hij ?_
    have hmem {i : Nat} (hc : c ∈ selected.flatten.filterMap fun x =>
        if x.1 = i then some x.2 else none) : (i, c) ∈ selected.flatten := by
      simpa using hc
    split at hs
    · cases hs
    split at ht
    · cases ht
    cases hs
    cases ht
    exact congrArg Prod.fst (List.inj_on_of_nodup_map hcolumns (hmem hcs) (hmem hct) rfl)

/-- Every seed of a group feeds a column. -/
theorem ne_nil_of_mem_groupSeeds (h : groupSeeds sizes g = .ok seeds) :
    ∀ s ∈ seeds, s.columns ≠ [] := by
  obtain ⟨columns, -, rfl⟩ := groupSeeds_eq_ok h
  intro s hs
  obtain ⟨i, -, hi⟩ := List.mem_filterMap.1 hs
  split at hi
  · cases hi
  · cases hi
    assumption

end Seeds

section Arrange

variable [Scalar R] {requests : List (Request R)} {sizes : Sizes}

omit [Scalar R] in
/-- Finding the rows of seeds keeps the seeds. -/
theorem map_fst_of_seedRows {offsets : Table String Nat} {seeds : List Seed}
    {found : List (Seed × List Nat)}
    (h : seeds.mapM (seedRows requests sizes offsets) = .ok found) :
    found.map Prod.fst = seeds := by
  rw [Except.mapM_eq_ok] at h
  induction h with
  | nil => rfl
  | cons hx _ ih => rw [List.map_cons, ih, fst_of_seedRows hx]

/-- Directions hold the seeds of groups, each once, and none of them is empty. -/
def Distributes (gs : List (Group R × List Seed)) (ds : List Direction) : Prop :=
  ds.flatMap Direction.seeds ~ gs.flatMap Prod.snd ∧ ∀ d ∈ ds, d.seeds ≠ []

/-- **Arranging groups distributes their seeds over directions.** -/
theorem distributes_arrange (known : List (Settings R)) (gs : List (Group R × List Seed))
    {result : List (Settings R) × List Direction}
    (h : arrange requests sizes known gs = .ok result) : Distributes gs result.2 := by
  induction known, gs using arrange.induct requests sizes generalizing result with
  | case1 known =>
    rw [arrange] at h
    cases h
    exact ⟨.refl _, by simp⟩
  | case2 known g seeds rest known' number hset hc ih =>
    rw [arrange] at h
    simp only [hset, hc, if_true, Except.bind_eq_ok] at h
    obtain ⟨found, hrows, others, hothers, hresult⟩ := h
    cases hresult
    obtain ⟨hperm, hne⟩ := ih hothers
    have hsplit : joining g rest ++ (remaining g rest).flatMap Prod.snd ~ rest.flatMap Prod.snd := by
      simp only [joining, remaining, ← List.flatMap_append]
      exact (List.filter_append_perm _ rest).flatMap_right Prod.snd
    refine ⟨?_, fun d hd => ?_⟩
    · have hcolored : (colors found).flatMap Color.seeds ~ seeds ++ joining g rest :=
        map_fst_of_seedRows hrows ▸ colors_perm found
      simp only [List.flatMap_append, List.flatMap_map, List.flatMap_cons]
      refine (hcolored.append hperm).trans ?_
      rw [List.append_assoc]
      exact hsplit.append_left seeds
    · rcases List.mem_append.1 hd with hd | hd
      · obtain ⟨c, hc, rfl⟩ := List.mem_map.1 hd
        exact ne_nil_of_mem_colors found c hc
      · exact hne d hd
  | case3 known g seeds rest known' number hset hc ih =>
    rw [arrange] at h
    simp only [hset, hc, Bool.false_eq_true, if_false, Except.bind_eq_ok] at h
    obtain ⟨others, hothers, hresult⟩ := h
    cases hresult
    obtain ⟨hperm, hne⟩ := ih hothers
    refine ⟨?_, fun d hd => ?_⟩
    · simpa [List.flatMap_map] using hperm.append_left seeds
    · rcases List.mem_append.1 hd with hd | hd
      · obtain ⟨s, -, rfl⟩ := List.mem_map.1 hd
        simp
      · exact hne d hd

end Arrange

section Build

variable [Scalar R] {requests : List (Request R)} {sizes : Sizes} {plan : Plan R}

/-- **The columns of a plan are distinct.** -/
theorem nodup_columns (h : build requests sizes = .ok plan) : plan.columns.Nodup := by
  obtain ⟨-, gs, hgroups, hseeds, harrange, -⟩ := exists_arrange_of_build h
  have hperm : plan.columns ~ gs.flatMap fun x => x.2.flatMap Seed.columns := by
    have := (distributes_arrange [] gs harrange).1.flatMap_right Seed.columns
    simpa only [columns, List.flatMap_assoc] using this
  have hrequests := nodup_groups requests
  rw [← hgroups, List.flatMap_map, List.nodup_flatMap] at hrequests
  rw [hperm.nodup_iff, List.nodup_flatMap]
  refine ⟨fun x hx => nodup_groupSeeds (hseeds x hx) (hrequests.1 x hx),
    hrequests.2.imp_of_mem fun {x y} hx hy hdisjoint c hcx hcy => ?_⟩
  -- a column of a group has the number of a request of the group
  have hmem (x : Group R × List Seed) (hx : x ∈ gs) (hc : c ∈ x.2.flatMap Seed.columns) :
      c.request ∈ x.1.requests.map Prod.fst := by
    obtain ⟨s, hs, hc⟩ := List.mem_flatMap.1 hc
    obtain ⟨q, -, hq, -⟩ := ((groupSeeds_columns (hseeds x hx) hs).2 c).1 hc
    exact List.mem_map_of_mem (f := Prod.fst) hq
  exact hdisjoint (hmem x hx hcx) (hmem y hy hcy)

/-- Every seed feeds a column. -/
theorem ne_nil_of_mem_seeds (h : build requests sizes = .ok plan) {d : Direction}
    (hd : d ∈ plan.directions) {s : Seed} (hs : s ∈ d.seeds) : s.columns ≠ [] := by
  obtain ⟨-, gs, -, hseeds, harrange, -⟩ := exists_arrange_of_build h
  have hs := (distributes_arrange [] gs harrange).1.mem_iff.1 (List.mem_flatMap.2 ⟨d, hd, hs⟩)
  obtain ⟨x, hx, hs⟩ := List.mem_flatMap.1 hs
  exact ne_nil_of_mem_groupSeeds (hseeds x hx) s hs

/-- Every direction perturbs something. -/
theorem ne_nil_of_mem_directions (h : build requests sizes = .ok plan) {d : Direction}
    (hd : d ∈ plan.directions) : d.seeds ≠ [] := by
  obtain ⟨-, gs, -, -, harrange, -⟩ := exists_arrange_of_build h
  exact (distributes_arrange [] gs harrange).2 d hd

/-- **There are no more directions than seeds.** -/
theorem length_directions_le (h : build requests sizes = .ok plan) :
    plan.directions.length ≤ plan.columnCount := by
  obtain ⟨-, gs, -, -, harrange, hcount⟩ := exists_arrange_of_build h
  obtain ⟨hperm, hne⟩ := distributes_arrange [] gs harrange
  rw [hcount, ← hperm.length_eq, List.length_flatMap]
  have := List.length_le_sum_of_one_le (plan.directions.map fun d => d.seeds.length) fun n hn => by
    obtain ⟨d, hd, rfl⟩ := List.mem_map.1 hn
    exact List.length_pos_iff.2 (hne d hd)
  simpa using this

variable [LawfulScalar R]

/-- A seed is one of a group with the settings of its direction. -/
theorem exists_group_of_seed (h : build requests sizes = .ok plan) {d : Direction}
    (hd : d ∈ plan.directions) {s : Seed} (hs : s ∈ d.seeds) :
    ∃ σ g seeds, plan.settings[d.settings]? = some σ ∧ g ∈ groups requests ∧
      groupSeeds sizes g = .ok seeds ∧ s ∈ seeds ∧ (σ == g.settings) = true := by
  obtain ⟨hvalid, gs, hgs, -, harranged⟩ := build_eq_ok h
  obtain ⟨u, σ, horigin, hσ, hu⟩ := harranged.origin d hd
  have hself (g : Group R) (seeds : List Seed) (hg : (g, seeds) ∈ gs) :
      (g.settings == g.settings) = true := by
    obtain ⟨q, hq, -, hset⟩ := exists_founder ((hgs g seeds).1 hg).1
    exact hset ▸ Settings.beq_self_of_validate (Request.of_validate (hvalid q hq)).1
  obtain ⟨number, ss⟩ := d
  dsimp only at horigin hs
  cases horigin with
  | @alone g seeds t hg ht =>
    obtain rfl := List.mem_singleton.1 hs
    refine ⟨σ, g, seeds, hσ, ((hgs g seeds).1 hg).1, ((hgs g seeds).1 hg).2, ht, ?_⟩
    rcases hu with rfl | hu
    · exact hself g seeds hg
    · exact hu
  | @together g seeds members hg hm =>
    obtain ⟨x, hx, rfl⟩ := List.mem_map.1 hs
    obtain ⟨-, m, ms, hmem, hxm, -, hmg⟩ := hm x hx
    refine ⟨σ, m, ms, hσ, ((hgs m ms).1 hmem).1, ((hgs m ms).1 hmem).2, hxm, ?_⟩
    have hσg : (σ == g.settings) = true := by
      rcases hu with rfl | hu
      · exact hself g seeds hg
      · exact hu
    rcases hmg with rfl | hmg
    · exact hσg
    · exact BEq.trans hσg (BEq.symm hmg)

/-- **Where a column stands**: its seed perturbs the entry of the variable that the column of its
request selects, in a direction with the settings of the request. -/
theorem exists_request_of_column (h : build requests sizes = .ok plan) {d : Direction}
    (hd : d ∈ plan.directions) {s : Seed} (hs : s ∈ d.seeds) {c : Column} (hc : c ∈ s.columns) :
    ∃ q cols σ, requests[c.request]? = some q ∧ q.cols sizes = .ok cols ∧
      cols[c.col]? = some s.index ∧ s.wrt = q.wrt ∧ plan.settings[d.settings]? = some σ ∧
      (σ == q.settings) = true := by
  obtain ⟨σ, g, seeds, hσ, hg, hseeds, hs, hset⟩ := exists_group_of_seed h hd hs
  obtain ⟨hw, hcolumns⟩ := groupSeeds_columns hseeds hs
  obtain ⟨q, cols, hq, hcols, hk⟩ := (hcolumns c).1 hc
  obtain ⟨-, hqw, hqs⟩ := (grouped_groups requests).mem g hg _ _ hq
  refine ⟨q, cols, σ, getElem?_of_mem_group hg hq, hcols, hk, hw.trans hqw.symm, hσ, ?_⟩
  rcases hqs with hqs | hqs
  · exact hqs ▸ hset
  · exact BEq.trans hset hqs

/-- **A seed has every column that its entry feeds**, in all requests with the settings of its
direction. -/
theorem mem_columns_of_beq (h : build requests sizes = .ok plan) {d : Direction}
    (hd : d ∈ plan.directions) {s : Seed} (hs : s ∈ d.seeds) {σ : Settings R}
    (hσ : plan.settings[d.settings]? = some σ) {r k : Nat} {q : Request R}
    (hq : requests[r]? = some q) (hw : s.wrt = q.wrt) (hset : (σ == q.settings) = true)
    {cols : List Nat} (hcols : q.cols sizes = .ok cols) (hk : cols[k]? = some s.index) :
    ⟨r, k⟩ ∈ s.columns := by
  obtain ⟨τ, g, seeds, hτ, hg, hseeds, hs, hτg⟩ := exists_group_of_seed h hd hs
  obtain rfl := Option.some.inj (hσ.symm.trans hτ)
  obtain ⟨hsw, hcolumns⟩ := groupSeeds_columns hseeds hs
  have hmem := mem_requests_of_beq hg hq (hw.symm.trans hsw) (BEq.trans (BEq.symm hτg) hset)
  exact (hcolumns ⟨r, k⟩).2 ⟨q, cols, hmem, hcols, hk⟩

/-- Seeds by the same entry, in directions with equal settings, share a column. -/
theorem exists_common_column (h : build requests sizes = .ok plan) {d e : Direction}
    (hd : d ∈ plan.directions) (he : e ∈ plan.directions) {s t : Seed} (hs : s ∈ d.seeds)
    (ht : t ∈ e.seeds) (hentry : (s.wrt, s.index) = (t.wrt, t.index)) {σ τ : Settings R}
    (hσ : plan.settings[d.settings]? = some σ) (hτ : plan.settings[e.settings]? = some τ)
    (hset : (σ == τ) = true) : ∃ c ∈ s.columns, c ∈ t.columns := by
  obtain ⟨hw, hi⟩ := Prod.mk.inj hentry
  obtain ⟨c, hc⟩ := List.exists_mem_of_ne_nil _ (ne_nil_of_mem_seeds h he ht)
  obtain ⟨q, cols, τ', hq, hcols, hk, hqw, hτ', hqs⟩ := exists_request_of_column h he ht hc
  obtain rfl := Option.some.inj (hτ.symm.trans hτ')
  refine ⟨c, ?_, hc⟩
  exact mem_columns_of_beq h hd hs hσ hq (hw.trans hqw) (BEq.trans hset hqs) hcols (hi ▸ hk)

/-- **A plan covers requests**: it has every column of every request once and no other column, each
where the request wants it. -/
structure Covers (requests : List (Request R)) (sizes : Sizes) (plan : Plan R) : Prop where
  /-- Every column of a block is in the plan exactly once. -/
  count_column : ∀ r q, requests[r]? = some q → ∃ cols, q.cols sizes = .ok cols ∧
    ∀ c < cols.length, plan.columns.count ⟨r, c⟩ = 1
  /-- A column is one of a block, and its seed perturbs the entry it stands for with the settings of
  its request. -/
  of_column : ∀ d ∈ plan.directions, ∀ s ∈ d.seeds, ∀ c ∈ s.columns, ∃ q cols σ,
    requests[c.request]? = some q ∧ q.cols sizes = .ok cols ∧ cols[c.col]? = some s.index ∧
      s.wrt = q.wrt ∧ plan.settings[d.settings]? = some σ ∧ (σ == q.settings) = true
  /-- No seed is idle. -/
  columns_ne_nil : ∀ d ∈ plan.directions, ∀ s ∈ d.seeds, s.columns ≠ []
  /-- No direction perturbs an entry twice. -/
  nodup_entries : ∀ d ∈ plan.directions, (d.seeds.map fun s => (s.wrt, s.index)).Nodup
  /-- Different directions that perturb the same entry have different settings. -/
  apart : plan.directions.Pairwise fun d e => ∀ s ∈ d.seeds, ∀ t ∈ e.seeds,
    (s.wrt, s.index) = (t.wrt, t.index) → ∀ σ τ, plan.settings[d.settings]? = some σ →
      plan.settings[e.settings]? = some τ → (σ == τ) = false
  length_le : plan.directions.length ≤ plan.columnCount

/-- **Every plan covers its requests.** -/
theorem covers_of_build (h : build requests sizes = .ok plan) : plan.Covers requests sizes := by
  have hnodup := nodup_columns h
  obtain ⟨hwithin, hbetween⟩ := List.nodup_flatMap.1 hnodup
  refine ⟨fun r q hq => ?_, fun d hd s hs c hc => exists_request_of_column h hd hs hc,
    fun d hd s hs => ne_nil_of_mem_seeds h hd hs, fun d hd => ?_, ?_, length_directions_le h⟩
  · obtain ⟨-, -, cols, -, hcols, -⟩ :=
      Request.of_validate ((build_eq_ok h).1 q (List.mem_of_getElem? hq))
    refine ⟨cols, hcols, fun c hc => List.count_eq_one_of_mem hnodup ?_⟩
    obtain ⟨d, hd, s, hs, hmem⟩ :=
      exists_seed_of_column h hq hcols (List.getElem?_eq_getElem hc)
    exact List.mem_flatMap.2 ⟨d, hd, List.mem_flatMap.2 ⟨s, hs, hmem⟩⟩
  · refine List.pairwise_map.2 ((List.nodup_flatMap.1 (hwithin d hd)).2.imp_of_mem ?_)
    intro s t hs ht hdisjoint hentry
    obtain ⟨c, hc⟩ := List.exists_mem_of_ne_nil _ (ne_nil_of_mem_seeds h hd hs)
    obtain ⟨q, -, σ, -, -, -, -, hσ, hset⟩ := exists_request_of_column h hd hs hc
    have hself : (σ == σ) = true := BEq.trans hset (BEq.symm hset)
    obtain ⟨c, hcs, hct⟩ := exists_common_column h hd hd hs ht hentry hσ hσ hself
    exact hdisjoint hcs hct
  · refine hbetween.imp_of_mem fun {d e} hd he hdisjoint s hs t ht hentry σ τ hσ hτ => ?_
    refine Bool.eq_false_iff.2 fun hset => ?_
    obtain ⟨c, hcs, hct⟩ := exists_common_column h hd he hs ht hentry hσ hτ hset
    exact hdisjoint (List.mem_flatMap.2 ⟨s, hs, hcs⟩) (List.mem_flatMap.2 ⟨t, ht, hct⟩)

end Build

section Overlapping

/-- Requests whose columns meet in the entries of `a`, and one whose columns may merge. -/
def overlapping : List (Request Float) :=
  [{ Request.whole "y" "a" .finiteDifference with wrtEntries := some [1, 0, 1] },
    { Request.whole "z" "a" .finiteDifference with wrtEntries := some [1] },
    { Request.whole "y" "b" { Settings.finiteDifference with directional := true } with
      pattern := some ⟨[0, 1], [0, 1]⟩ }]

/-- Two entries of `y`, `a` and `b`, one of `z`. -/
def pairSizes : Sizes := .ofList [("y", 2), ("z", 1), ("a", 2), ("b", 2)]

/-- `a[1]` feeds three columns of two blocks at once, and both columns by `b` share a direction. -/
theorem covers_overlapping :
    ∃ plan, build overlapping pairSizes = .ok plan ∧
      plan.directions = [⟨0, [⟨"a", 0, [⟨0, 1⟩]⟩]⟩, ⟨0, [⟨"a", 1, [⟨0, 0⟩, ⟨0, 2⟩, ⟨1, 0⟩]⟩]⟩,
        ⟨1, [⟨"b", 0, [⟨2, 0⟩]⟩, ⟨"b", 1, [⟨2, 1⟩]⟩]⟩] ∧
      plan.Covers overlapping pairSizes := by
  have hrun : (build overlapping pairSizes).toOption.map directions =
      some [⟨0, [⟨"a", 0, [⟨0, 1⟩]⟩]⟩, ⟨0, [⟨"a", 1, [⟨0, 0⟩, ⟨0, 2⟩, ⟨1, 0⟩]⟩]⟩,
        ⟨1, [⟨"b", 0, [⟨2, 0⟩]⟩, ⟨"b", 1, [⟨2, 1⟩]⟩]⟩] := by decide +kernel
  obtain ⟨plan, hplan, hdirections⟩ := Option.map_eq_some_iff.1 hrun
  have h := Except.eq_ok_of_toOption hplan
  exact ⟨plan, h, hdirections, covers_of_build h⟩

end Overlapping

end Plan

end Sensitivity
