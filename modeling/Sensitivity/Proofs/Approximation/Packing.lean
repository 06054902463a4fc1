import Sensitivity.Proofs.Approximation.Computation
import Sensitivity.Proofs.Approximation.Coverage
import Sensitivity.Proofs.Approximation.Ordering
import Sensitivity.Proofs.Approximation.Stacking

/-!
# No direction is opened before it has to be

Groups that can be coloured and have equal settings share directions (`Plan.sharedWith`). These are
the colors that first fit makes of the seeds of the groups (`Plan.exists_colors_of_arrange`), taken
in column order (`Plan.exists_classes_of_build`). So a seed stands in a later direction only because
every earlier one has a seed that came before it and writes an entry that it writes too.

Seeds that write no common entry therefore share one direction (`Plan.eq_singleton_of_not_meets`).
A seed of the last direction meets an earlier seed in each of the others, which bounds the number of
directions (`Plan.length_le_of_rivals`).
-/

namespace Sensitivity

open scoped List

variable {R : Type} [Scalar R]

/-- The number of seeds, among some, that come before a seed and meet it. -/
def Seed.rivals (requests : List (Request R)) (sizes : Sizes) (σ : Settings R) (seeds : List Seed)
    (s : Seed) : Nat :=
  seeds.countP fun t => t.Precedes requests σ s ∧ t.Meets requests sizes s

namespace Plan

/-- Whether a direction serves a request of a group that is coloured together with `g`. -/
def serves (requests : List (Request R)) (g : Group R) (d : Direction) : Bool :=
  (groups requests).any fun m => g.joins m && m.requests.any fun x => d.requests.contains x.1

/-- The directions of the groups that are coloured together with `g`. -/
def sharedWith (requests : List (Request R)) (p : Plan R) (g : Group R) : List Direction :=
  p.directions.filter (serves requests g)

/-- **Directions filled by first fit** with the columns of the groups that are coloured together
with `g`. -/
structure FirstFit (requests : List (Request R)) (sizes : Sizes) (g : Group R)
    (ds : List Direction) : Prop where
  /-- Every column of the groups is in one of the directions. -/
  covers : ∀ m ∈ groups requests, g.joins m = true → ∀ i c, m.Feeds sizes i c →
    ∃ d ∈ ds, ∃ s ∈ d.seeds, c ∈ s.columns
  /-- The seeds of a direction keep column order. -/
  ordered : ∀ d ∈ ds, d.seeds.Pairwise (Seed.Precedes requests g.settings)
  /-- The seeds of a direction write no common entry. -/
  apart : ∀ d ∈ ds, d.seeds.Pairwise fun s t => ¬ s.Meets requests sizes t
  /-- A seed was kept out of every earlier direction by a seed that came before it. -/
  meets : ds.Pairwise fun d e => ∀ s ∈ e.seeds, ∃ t ∈ d.seeds,
    t.Precedes requests g.settings s ∧ t.Meets requests sizes s
  /-- Seeds that do not meet share one direction. -/
  single : (ds.flatMap Direction.seeds).Pairwise (fun s t => ¬ s.Meets requests sizes t) →
    ∀ d ∈ ds, ds = [d]
  /-- Some seed meets at least as many earlier seeds as there are directions besides its own. -/
  length_le : ∀ n, (∀ s ∈ ds.flatMap Direction.seeds,
    s.rivals requests sizes g.settings (ds.flatMap Direction.seeds) ≤ n) → ds.length ≤ n + 1

section Rivals

variable {requests : List (Request R)} {sizes : Sizes} {σ : Settings R} {ds : List Direction}

omit [Scalar R] in
/-- Where a seed of a later direction meets one of every earlier direction, seeds that do not meet
are in one direction. -/
theorem eq_singleton_of_not_meets (hne : ∀ d ∈ ds, d.seeds ≠ [])
    (hmeets : ds.Pairwise fun d e => ∀ s ∈ e.seeds, ∃ t ∈ d.seeds, t.Meets requests sizes s)
    (h : (ds.flatMap Direction.seeds).Pairwise fun s t => ¬ s.Meets requests sizes t) :
    ∀ d ∈ ds, ds = [d] := by
  match ds with
  | [] => simp
  | [d] => simp
  | d :: e :: rest =>
    obtain ⟨s, hs⟩ := List.exists_mem_of_ne_nil _ (hne e (by simp))
    obtain ⟨t, ht, hts⟩ := (List.pairwise_cons.1 hmeets).1 e List.mem_cons_self s hs
    rw [List.flatMap_cons, List.pairwise_append] at h
    exact absurd hts (h.2.2 t ht s (List.mem_flatMap.2 ⟨e, List.mem_cons_self, hs⟩))

/-- **A seed of the last direction has a rival in every other one.** -/
theorem length_le_of_rivals (hne : ∀ d ∈ ds, d.seeds ≠ [])
    (hmeets : ds.Pairwise fun d e => ∀ s ∈ e.seeds, ∃ t ∈ d.seeds,
      t.Precedes requests σ s ∧ t.Meets requests sizes s) {n : Nat}
    (h : ∀ s ∈ ds.flatMap Direction.seeds,
      s.rivals requests sizes σ (ds.flatMap Direction.seeds) ≤ n) : ds.length ≤ n + 1 := by
  rcases List.eq_nil_or_concat' ds with rfl | ⟨earlier, last, rfl⟩
  · simp
  obtain ⟨s, hs⟩ := List.exists_mem_of_ne_nil _ (hne last (by simp))
  have hrivals (d : Direction) (hd : d ∈ earlier) :
      1 ≤ d.seeds.countP fun t => t.Precedes requests σ s ∧ t.Meets requests sizes s := by
    obtain ⟨t, ht, hts⟩ := (List.pairwise_append.1 hmeets).2.2 d hd last List.mem_cons_self s hs
    exact List.countP_pos_iff.2 ⟨t, ht, by simpa using hts⟩
  have hcount := h s (List.mem_flatMap.2 ⟨last, by simp, hs⟩)
  rw [Seed.rivals, List.flatMap_append, List.countP_append, List.countP_flatMap] at hcount
  have hlength := List.length_le_sum_of_one_le (earlier.map fun d => d.seeds.countP fun t =>
    t.Precedes requests σ s ∧ t.Meets requests sizes s) fun k hk => by
      obtain ⟨d, hd, rfl⟩ := List.mem_map.1 hk
      exact hrivals d hd
  rw [List.length_map] at hlength
  rw [List.length_append, List.length_singleton]
  exact Nat.succ_le_succ (hlength.trans (Nat.le_of_add_right_le hcount))

end Rivals

section Arrange

variable {requests : List (Request R)} {sizes : Sizes} [LawfulScalar R]

/-- Groups that a third one joins join each other. -/
theorem Group.joins_of_joins {g m x : Group R} (hc : m.colorable = true) (hg : g.joins x = true)
    (hm : m.joins x = true) : g.joins m = true :=
  Bool.and_eq_true_iff.2
    ⟨hc, BEq.trans (BEq.symm (Bool.and_eq_true_iff.1 hm).2) (Bool.and_eq_true_iff.1 hg).2⟩

/-- A group is joined by the same groups as one that joins it. -/
theorem Group.joins_congr {g m : Group R} (h : g.joins m = true) (x : Group R) :
    m.joins x = g.joins x := by
  have hset := (Bool.and_eq_true_iff.1 h).2
  refine congrArg (x.colorable && ·) (Bool.eq_iff_iff.2 ⟨fun hx => ?_, fun hx => ?_⟩)
  · exact BEq.trans hx hset
  · exact BEq.trans hx (BEq.symm hset)

/-- **The seeds of a group that can be coloured are coloured together** with those of all groups
that join it. -/
theorem exists_colors_of_arrange (known : List (Settings R)) (gs : List (Group R × List Seed))
    {result : List (Settings R) × List Direction}
    (h : arrange requests sizes known gs = .ok result) {g : Group R} {seeds : List Seed}
    (hg : (g, seeds) ∈ gs) (hself : g.joins g = true) :
    ∃ found number before after,
      (joining g gs).mapM (seedRows requests sizes (rowOffsets requests sizes)) = .ok found ∧
        result.2 = before ++ (colors found).map (fun c => ⟨number, c.seeds⟩) ++ after := by
  -- a group in front that does not join has directions of its own
  have hskip {m : Group R} (hm : ¬ g.joins m = true) (ms : List Seed)
      (rest : List (Group R × List Seed)) : joining g ((m, ms) :: rest) = joining g rest := by
    simp only [joining, List.filter_cons, hm, Bool.false_eq_true, if_false]
  have hbehind {m : Group R} (hm : ¬ g.joins m = true) {ms : List Seed}
      {rest : List (Group R × List Seed)} (hg : (g, seeds) ∈ (m, ms) :: rest) : (g, seeds) ∈ rest :=
    (List.mem_cons.1 hg).resolve_left fun he => hm ((Prod.mk.inj he).1 ▸ hself)
  induction known, gs using arrange.induct requests sizes generalizing result with
  | case1 known => cases hg
  | case2 known m ms rest known' number hset hc ih =>
    rw [arrange] at h
    simp only [hset, hc, if_true, Except.bind_eq_ok] at h
    obtain ⟨found, hrows, others, hothers, hresult⟩ := h
    cases hresult
    by_cases hm : g.joins m = true
    · refine ⟨found, number, [], others.2, ?_, rfl⟩
      have hjoining : joining g ((m, ms) :: rest) = ms ++ joining m rest := by
        simp only [joining, List.filter_cons, hm, if_true, List.flatMap_cons,
          Group.joins_congr hm]
      rw [hjoining]
      exact hrows
    · have hstays (x : Group R × List Seed) (hx : g.joins x.1 = true) : m.joins x.1 = false :=
        Bool.eq_false_iff.2 fun hmx => hm (Group.joins_of_joins hc hx hmx)
      have hremaining : joining g (remaining m rest) = joining g rest := by
        simp only [joining, remaining, List.filter_filter]
        refine congrArg _ (List.filter_congr fun x _ => ?_)
        cases hx : g.joins x.1 with
        | false => rfl
        | true => simp [hstays x hx]
      obtain ⟨own, k, before, after, hown, he⟩ := ih hothers
        (List.mem_filter.2 ⟨hbehind hm hg, by simp [hstays (g, seeds) hself]⟩)
      refine ⟨own, k, (colors found).map (fun c => ⟨number, c.seeds⟩) ++ before, after, ?_, ?_⟩
      · rw [hskip hm, ← hremaining]
        exact hown
      · simp only [he, List.append_assoc]
  | case3 known m ms rest known' number hset hc ih =>
    rw [arrange] at h
    simp only [hset, hc, Bool.false_eq_true, if_false, Except.bind_eq_ok] at h
    obtain ⟨others, hothers, hresult⟩ := h
    cases hresult
    have hm : ¬ g.joins m = true := fun hm => hc (Bool.and_eq_true_iff.1 hm).1
    obtain ⟨own, k, before, after, hown, he⟩ := ih hothers (hbehind hm hg)
    refine ⟨own, k, ms.map (fun s => ⟨number, [s]⟩) ++ before, after, ?_, ?_⟩
    · rw [hskip hm]
      exact hown
    · simp only [he, List.append_assoc]

end Arrange

section Build

variable {requests : List (Request R)} {sizes : Sizes} {plan : Plan R} {g : Group R}

/-- A direction serves the groups that join a group when one of its seeds is a seed of theirs. -/
theorem serves_iff {gs : List (Group R × List Seed)}
    (hgroups : gs.map Prod.fst = groups requests)
    (hseeds : ∀ x ∈ gs, groupSeeds sizes x.1 = .ok x.2)
    (harrange : arrange requests sizes [] gs = .ok (plan.settings, plan.directions)) {d : Direction}
    (hd : d ∈ plan.directions) :
    serves requests g d = true ↔ ∃ s ∈ d.seeds, s ∈ joining g gs := by
  simp only [serves, List.any_eq_true, Bool.and_eq_true, List.contains_iff_mem]
  constructor
  · rintro ⟨m, hm, hjoins, ⟨r, q⟩, hq, hr⟩
    obtain ⟨c, hc, rfl⟩ := Direction.mem_requests.1 hr
    obtain ⟨s, hs, hc⟩ := List.mem_flatMap.1 hc
    obtain ⟨x, hx, hsx⟩ := List.mem_flatMap.1
      ((distributes_arrange [] gs harrange).1.mem_iff.1 (List.mem_flatMap.2 ⟨d, hd, hs⟩))
    obtain ⟨p, -, hp, -⟩ := ((groupSeeds_columns (hseeds x hx) hsx).2 c).1 hc
    obtain rfl := group_eq_of_mem (hgroups ▸ List.mem_map_of_mem hx) hm hp hq
    exact ⟨s, hs, List.mem_flatMap.2 ⟨x, List.mem_filter.2 ⟨hx, hjoins⟩, hsx⟩⟩
  · rintro ⟨s, hs, hjoining⟩
    obtain ⟨x, hx, hsx⟩ := List.mem_flatMap.1 hjoining
    obtain ⟨hx, hjoins⟩ := List.mem_filter.1 hx
    obtain ⟨c, hc⟩ := List.exists_mem_of_ne_nil _ (ne_nil_of_mem_groupSeeds (hseeds x hx) s hsx)
    obtain ⟨q, -, hq, -⟩ := ((groupSeeds_columns (hseeds x hx) hsx).2 c).1 hc
    exact ⟨x.1, hgroups ▸ List.mem_map_of_mem hx, hjoins, (c.request, q), hq,
      Direction.mem_requests.2 ⟨c, List.mem_flatMap.2 ⟨s, hs, hc⟩, rfl⟩⟩

/-- Directions that hold the seeds of the groups that join a group, and no others, are those that
serve them: no column is in two directions. -/
theorem sharedWith_eq (h : build requests sizes = .ok plan) {gs : List (Group R × List Seed)}
    (hgroups : gs.map Prod.fst = groups requests)
    (hseeds : ∀ x ∈ gs, groupSeeds sizes x.1 = .ok x.2)
    (harrange : arrange requests sizes [] gs = .ok (plan.settings, plan.directions))
    {before own after : List Direction} (hsplit : plan.directions = before ++ own ++ after)
    (hown : ∀ d ∈ own, ∃ s ∈ d.seeds, s ∈ joining g gs)
    (hall : ∀ s ∈ joining g gs, ∃ d ∈ own, s ∈ d.seeds) : plan.sharedWith requests g = own := by
  have hserves (d : Direction) (hd : d ∈ before ++ own ++ after) :
      serves requests g d = true ↔ ∃ s ∈ d.seeds, s ∈ joining g gs :=
    serves_iff hgroups hseeds harrange (hsplit ▸ hd)
  have hnodup := (List.nodup_flatMap.1 (nodup_columns h)).2
  rw [hsplit] at hnodup
  obtain ⟨hnodup, -, hafter⟩ := List.pairwise_append.1 hnodup
  obtain ⟨-, -, hbefore⟩ := List.pairwise_append.1 hnodup
  have hother (d : Direction) (hd : d ∈ before ++ own ++ after)
      (hdisjoint : ∀ e ∈ own, List.Disjoint (d.seeds.flatMap Seed.columns)
        (e.seeds.flatMap Seed.columns)) : ¬ serves requests g d = true := by
    intro hd'
    obtain ⟨s, hs, hjoining⟩ := (hserves d hd).1 hd'
    obtain ⟨e, he, hse⟩ := hall s hjoining
    obtain ⟨c, hc⟩ := List.exists_mem_of_ne_nil _ (ne_nil_of_mem_seeds h (hsplit ▸ hd) hs)
    exact hdisjoint e he (List.mem_flatMap.2 ⟨s, hs, hc⟩) (List.mem_flatMap.2 ⟨s, hse, hc⟩)
  rw [sharedWith, hsplit, List.filter_append, List.filter_append,
    List.filter_eq_nil_iff.2 fun d hd => hother d (by simp [hd]) fun e he => hbefore d hd e he,
    List.filter_eq_self.2 fun d hd => (hserves d (by simp [hd])).2 (hown d hd),
    List.filter_eq_nil_iff.2 fun d hd => hother d (by simp [hd]) fun e he =>
      (hafter e (List.mem_append_right _ he) d hd).symm,
    List.nil_append, List.append_nil]

variable [LawfulScalar R]

/-- A group that can be coloured joins itself. -/
theorem joins_self (h : build requests sizes = .ok plan) (hg : g ∈ groups requests)
    (hc : g.colorable = true) : g.joins g = true := by
  obtain ⟨q, hq, -, hs⟩ := exists_founder hg
  have hvalid := (Request.of_validate ((build_eq_ok h).1 q hq)).1
  exact Bool.and_eq_true_iff.2 ⟨hc, hs ▸ Settings.beq_self_of_validate hvalid⟩

/-- **The directions that groups share** are what first fit makes of their seeds in column order. -/
theorem exists_classes_of_build (h : build requests sizes = .ok plan) (hg : g ∈ groups requests)
    (hc : g.colorable = true) : ∃ found classes number,
      plan.sharedWith requests g = classes.map (fun c => ⟨number, c.map Prod.fst⟩) ∧
        Fitted found classes ∧ (found.map Prod.fst).Pairwise (Seed.Precedes requests g.settings) ∧
          ∀ x ∈ found, seedRows requests sizes (rowOffsets requests sizes) x.1 = .ok x ∧
            Colored requests sizes x.1 := by
  obtain ⟨-, gs, hgroups, hseeds, harrange, -⟩ := exists_arrange_of_build h
  obtain ⟨⟨m, seeds⟩, hmem, hm⟩ := List.mem_map.1 (hgroups ▸ hg)
  obtain rfl : g = m := hm.symm
  obtain ⟨found, number, before, after, hfound, hsplit⟩ :=
    exists_colors_of_arrange [] gs harrange hmem (joins_self h hg hc)
  obtain ⟨classes, hcolors, hfitted⟩ := exists_fitted found
  have hseen : found.map Prod.fst = joining g gs := map_fst_of_seedRows hfound
  refine ⟨found, classes, number, ?_, hfitted, ?_, fun x hx => ?_⟩
  · have hdirections : plan.directions =
        before ++ classes.map (fun c => ⟨number, c.map Prod.fst⟩) ++ after := by
      simpa [hcolors, Color.ofMembers, Function.comp_def] using hsplit
    refine sharedWith_eq h hgroups hseeds harrange hdirections (fun d hd => ?_) fun s hs => ?_
    · have hne := ne_nil_of_mem_directions h (d := d) (by simp [hdirections, hd])
      obtain ⟨c, hc, rfl⟩ := List.mem_map.1 hd
      obtain ⟨s, hs⟩ := List.exists_mem_of_ne_nil _ hne
      exact ⟨s, hs, hseen ▸ ((hfitted.sublist c hc).map Prod.fst).subset hs⟩
    · obtain ⟨x, hx, rfl⟩ := List.mem_map.1 (hseen ▸ hs)
      obtain ⟨c, hc, hxc⟩ := hfitted.exists_mem x hx
      exact ⟨_, List.mem_map_of_mem hc, List.mem_map_of_mem hxc⟩
  · rw [hseen]
    exact sorted_joining hgroups hseeds _
  · obtain ⟨s, hs, hx⟩ := (Except.mem_mapM hfound).1 hx
    obtain rfl := fst_of_seedRows hx
    obtain ⟨⟨m, ms⟩, hm, hs⟩ := List.mem_flatMap.1 hs
    obtain ⟨hm, hjoins⟩ := List.mem_filter.1 hm
    exact ⟨hx, m, hgroups ▸ List.mem_map_of_mem (f := Prod.fst) hm,
      (Bool.and_eq_true_iff.1 hjoins).1, ms, hseeds _ hm, hs⟩

/-- **First fit fills the directions of a plan**: no seed opens one that could have joined one
before it. -/
theorem firstFit_of_build (h : build requests sizes = .ok plan) (hg : g ∈ groups requests)
    (hc : g.colorable = true) : FirstFit requests sizes g (plan.sharedWith requests g) := by
  obtain ⟨found, classes, number, hshared, hfitted, hsorted, hfound⟩ :=
    exists_classes_of_build h hg hc
  have hmem {c : List (Seed × List Nat)} (hc : c ∈ classes) {x : Seed × List Nat} (hx : x ∈ c) :=
    hfound x ((hfitted.sublist c hc).subset hx)
  have hmeets : (plan.sharedWith requests g).Pairwise fun d e => ∀ s ∈ e.seeds, ∃ t ∈ d.seeds,
      t.Precedes requests g.settings s ∧ t.Meets requests sizes s := by
    rw [hshared]
    refine List.pairwise_map.2 (hfitted.bars.imp_of_mem fun {c d} hc hd hbars s hs => ?_)
    obtain ⟨y, hy, rfl⟩ := List.mem_map.1 hs
    obtain ⟨x, hx, hxy, hr⟩ := hbars y hy
    refine ⟨x.1, List.mem_map_of_mem hx, ?_, ?_⟩
    · exact List.pairwise_pair.1 (hsorted.sublist (hxy.map Prod.fst))
    · exact (meets_iff (hmem hc hx).2 (hmem hd hy).2 (hmem hc hx).1 (hmem hd hy).1).2 hr
  have hne (d : Direction) (hd : d ∈ plan.sharedWith requests g) : d.seeds ≠ [] :=
    ne_nil_of_mem_directions h (List.mem_filter.1 hd).1
  refine ⟨fun m hm hjoins i c hc => ?_, ?_, ?_, hmeets, ?_, fun n hn =>
    length_le_of_rivals hne hmeets hn⟩
  · obtain ⟨q, cols, hq, hcols, hk⟩ := hc
    obtain ⟨d, hd, s, hs, hcs⟩ := exists_seed_of_column h (getElem?_of_mem_group hm hq) hcols hk
    have hserves : serves requests g d = true := by
      refine List.any_eq_true.2 ⟨m, hm, Bool.and_eq_true_iff.2 ⟨hjoins, ?_⟩⟩
      exact List.any_eq_true.2 ⟨_, hq, List.contains_iff_mem.2
        (Direction.mem_requests.2 ⟨c, List.mem_flatMap.2 ⟨s, hs, hcs⟩, rfl⟩)⟩
    exact ⟨d, List.mem_filter.2 ⟨hd, hserves⟩, s, hs, hcs⟩
  · rw [hshared]
    refine List.forall_mem_map.2 fun c hc => ?_
    exact hsorted.sublist ((hfitted.sublist c hc).map Prod.fst)
  · rw [hshared]
    refine List.forall_mem_map.2 fun c hc => List.pairwise_map.2 ?_
    refine (hfitted.apart c hc).imp_of_mem fun {x y} hx hy hxy hmeets => ?_
    obtain ⟨r, hry, hrx⟩ :=
      (meets_iff (hmem hc hx).2 (hmem hc hy).2 (hmem hc hx).1 (hmem hc hy).1).1 hmeets
    exact hxy r hry hrx
  · refine eq_singleton_of_not_meets hne (hmeets.imp fun {d e} h s hs => ?_)
    obtain ⟨t, ht, -, hts⟩ := h s hs
    exact ⟨t, ht, hts⟩

end Build

section Staggered

/-- Requests by `a` and `b` whose columns may share directions, the one by `a` for some entries of
`y` in another order, and one by `c` with the same settings but without a pattern. -/
def staggered : List (Request Float) :=
  [{ Request.whole "y" "a" merging with
      pattern := some ⟨[0, 1, 0], [0, 1, 2]⟩
      ofEntries := some [2, 0] },
    { Request.whole "z" "b" merging with pattern := some ⟨[0], [0]⟩ },
    { Request.whole "y" "b" merging with pattern := some ⟨[0], [0]⟩ },
    Request.whole "z" "c" merging]

/-- Three entries of `y` and `a`, one of the others. -/
def staggeredSizes : Sizes := .ofList [("y", 3), ("z", 1), ("a", 3), ("b", 1), ("c", 1)]

/-- `a[0]` and `a[2]` both write `y[2]`, `a[1]` and `b[0]` both write `y[0]`: the second of each
pair goes into a second direction, and none shares one with `c[0]`. -/
theorem firstFit_staggered :
    ∃ plan g, build staggered staggeredSizes = .ok plan ∧ g ∈ groups staggered ∧
      g.colorable = true ∧ plan.directions.length = 3 ∧
      plan.sharedWith staggered g = [⟨0, [⟨"a", 0, [⟨0, 0⟩]⟩, ⟨"a", 1, [⟨0, 1⟩]⟩]⟩,
        ⟨0, [⟨"a", 2, [⟨0, 2⟩]⟩, ⟨"b", 0, [⟨1, 0⟩, ⟨2, 0⟩]⟩]⟩] ∧
      FirstFit staggered staggeredSizes g (plan.sharedWith staggered g) := by
  have hrun : ((build staggered staggeredSizes).toOption.bind fun plan =>
      (groups staggered).head?.map fun g =>
        (g.colorable, plan.directions.length, plan.sharedWith staggered g)) =
      some (true, 3, [⟨0, [⟨"a", 0, [⟨0, 0⟩]⟩, ⟨"a", 1, [⟨0, 1⟩]⟩]⟩,
        ⟨0, [⟨"a", 2, [⟨0, 2⟩]⟩, ⟨"b", 0, [⟨1, 0⟩, ⟨2, 0⟩]⟩]⟩]) := by decide +kernel
  obtain ⟨plan, hplan, hrun⟩ := Option.bind_eq_some_iff.1 hrun
  obtain ⟨g, hg, hrun⟩ := Option.map_eq_some_iff.1 hrun
  obtain ⟨hc, hrun⟩ := Prod.mk.inj hrun
  obtain ⟨hlength, hshared⟩ := Prod.mk.inj hrun
  have h := Except.eq_ok_of_toOption hplan
  have hg := List.mem_of_head? hg
  exact ⟨plan, g, h, hg, hc, hlength, hshared, firstFit_of_build h hg hc⟩

/-- `a[2]` and `b[0]` have one rival each, so that two directions are as many as can be. -/
example : ((build staggered staggeredSizes).toOption.bind fun plan =>
    (groups staggered).head?.map fun g =>
      let seeds := (plan.sharedWith staggered g).flatMap Direction.seeds
      seeds.map (Seed.rivals staggered staggeredSizes g.settings seeds)) = some [0, 0, 1, 1] := by
  decide +kernel

end Staggered

end Plan

end Sensitivity
