import Sensitivity.Proofs.Approximation.Grouping

/-!
# Where the directions of a plan come from

First fit keeps seeds with a common row apart: the seeds of a color write disjoint rows, and every
seed is in some color. No color is opened before it has to be: each seed of a color meets a seed of
every earlier color that came before it (`Plan.exists_fitted`).

A direction of a plan is either one seed of a group, or a color of seeds whose groups can all be
coloured and have equal settings (`Plan.Origin`); every seed of every group is in some direction
(`Plan.arranged_arrange`). A plan is what arranging the groups of its requests yields
(`Plan.build_eq_ok`).
-/

namespace Sensitivity

open scoped List

variable {R : Type}

namespace Plan

section Colors

/-- A seed joins the first color that writes none of its rows, or founds one behind all others. -/
theorem firstFit_cases (seed : Seed) (rows : List Nat) (cs : List Color) :
    (∃ before c after, cs = before ++ c :: after ∧ (∀ b ∈ before, ∃ r ∈ rows, r ∈ b.used) ∧
      (∀ r ∈ rows, r ∉ c.used) ∧
        firstFit seed rows cs = before ++ ⟨c.used ++ rows, c.seeds ++ [seed]⟩ :: after) ∨
    ((∀ c ∈ cs, ∃ r ∈ rows, r ∈ c.used) ∧ firstFit seed rows cs = cs ++ [⟨rows, [seed]⟩]) := by
  induction cs with
  | nil => exact .inr ⟨by simp, rfl⟩
  | cons c rest ih =>
    by_cases hc : (rows.all fun r => !c.used.contains r) = true
    · refine .inl ⟨[], c, rest, rfl, by simp, ?_,
        by simp only [firstFit, hc, if_true, List.nil_append]⟩
      simpa using hc
    · have hstep : firstFit seed rows (c :: rest) = c :: firstFit seed rows rest := by
        simp only [firstFit, hc, Bool.false_eq_true, if_false]
      have hmeets : ∃ r ∈ rows, r ∈ c.used := by simpa using hc
      rcases ih with ⟨before, m, after, rfl, hbefore, hdisj, he⟩ | ⟨hall, he⟩
      · exact .inl ⟨c :: before, m, after, rfl, List.forall_mem_cons.2 ⟨hmeets, hbefore⟩, hdisj,
          by rw [hstep, he]; rfl⟩
      · exact .inr ⟨List.forall_mem_cons.2 ⟨hmeets, hall⟩, by rw [hstep, he]; rfl⟩

/-- The color of some seeds, given with their rows. -/
def Color.ofMembers (members : List (Seed × List Nat)) : Color :=
  ⟨members.flatMap Prod.snd, members.map Prod.fst⟩

/-- The members of one color keep those of a later one out: each of the later ones has a row in
common with one of the former that was seen before it. -/
def Bars (seen c d : List (Seed × List Nat)) : Prop :=
  ∀ y ∈ d, ∃ x ∈ c, [x, y] <+ seen ∧ ∃ r ∈ y.2, r ∈ x.2

theorem Bars.mono {seen seen' c c' d : List (Seed × List Nat)} (h : Bars seen c d)
    (hseen : seen <+ seen') (hc : c ⊆ c') : Bars seen' c' d := by
  intro y hy
  obtain ⟨x, hx, hxy, hr⟩ := h y hy
  exact ⟨x, hc hx, hxy.trans hseen, hr⟩

theorem Bars.append {seen c d e : List (Seed × List Nat)} (hd : Bars seen c d)
    (he : Bars seen c e) : Bars seen c (d ++ e) :=
  List.forall_mem_append.2 ⟨hd, he⟩

/-- A seed that meets a color is kept out by it. -/
theorem bars_singleton {seen c : List (Seed × List Nat)} {x : Seed × List Nat} (hc : c <+ seen)
    (h : ∃ r ∈ x.2, r ∈ (Color.ofMembers c).used) : Bars (seen ++ [x]) c [x] := by
  intro y hy
  cases List.mem_singleton.1 hy
  obtain ⟨r, hr, hrc⟩ := h
  obtain ⟨z, hz, hrz⟩ := List.mem_flatMap.1 hrc
  exact ⟨z, hz, (List.singleton_sublist.2 (hc.subset hz)).append (.refl [x]), r, hr, hrz⟩

/-- What first fit maintains: the members of each color are seeds seen so far, in the order in which
they were seen, and write disjoint rows; each color keeps those of later ones out; and no seed is
lost. -/
structure Fitted (seen : List (Seed × List Nat)) (classes : List (List (Seed × List Nat))) :
    Prop where
  sublist : ∀ c ∈ classes, c <+ seen
  apart : ∀ c ∈ classes, c.Pairwise fun a b => ∀ r ∈ b.2, r ∉ a.2
  bars : classes.Pairwise (Bars seen)
  exists_mem : ∀ x ∈ seen, ∃ c ∈ classes, x ∈ c

theorem Fitted.add {seen : List (Seed × List Nat)} {classes : List (List (Seed × List Nat))}
    (h : Fitted seen classes) (x : Seed × List Nat) :
    ∃ next, firstFit x.1 x.2 (classes.map Color.ofMembers) = next.map Color.ofMembers ∧
      Fitted (seen ++ [x]) next := by
  have hgrow : seen <+ seen ++ [x] := List.sublist_append_left _ _
  have hmono (c d : List (Seed × List Nat)) (hcd : Bars seen c d) : Bars (seen ++ [x]) c d :=
    hcd.mono hgrow (List.Subset.refl c)
  rcases firstFit_cases x.1 x.2 (classes.map Color.ofMembers) with
    ⟨_, _, _, hsplit, hbefore, hdisj, he⟩ | ⟨hall, he⟩ <;> rw [he]
  · obtain ⟨before, rest, rfl, rfl, hrest⟩ := List.map_eq_append_iff.1 hsplit
    obtain ⟨c, after, rfl, rfl, rfl⟩ := List.map_eq_cons_iff.1 hrest
    have hc : c ∈ before ++ c :: after := by simp
    obtain ⟨hbars, hrest, hcross⟩ := List.pairwise_append.1 h.bars
    obtain ⟨hafter, hrest⟩ := List.pairwise_cons.1 hrest
    refine ⟨before ++ (c ++ [x]) :: after, by simp [Color.ofMembers], ?_, ?_, ?_, ?_⟩
    · intro d hd
      rcases eq_or_mem_of_replaced (a := c) hd with rfl | hd
      · exact (h.sublist c hc).append (.refl [x])
      · exact (h.sublist d hd).trans hgrow
    · intro d hd
      rcases eq_or_mem_of_replaced (a := c) hd with rfl | hd
      · refine List.pairwise_append.2
          ⟨h.apart c hc, List.pairwise_singleton _ _, fun a ha b hb r hr hra => ?_⟩
        cases List.mem_singleton.1 hb
        exact hdisj r hr (List.mem_flatMap.2 ⟨a, ha, hra⟩)
      · exact h.apart d hd
    · -- only the colors before the one that takes the seed have to keep it out
      refine List.pairwise_append.2 ⟨hbars.imp (hmono _ _), List.pairwise_cons.2
        ⟨fun d hd => (hafter d hd).mono hgrow (List.subset_append_left _ _), hrest.imp (hmono _ _)⟩,
        fun b hb => List.forall_mem_cons.2 ⟨?_, fun d hd => ?_⟩⟩
      · exact (hmono b c (hcross b hb c List.mem_cons_self)).append
          (bars_singleton (h.sublist b (List.mem_append_left _ hb))
            (hbefore _ (List.mem_map_of_mem hb)))
      · exact hmono b d (hcross b hb d (List.mem_cons_of_mem _ hd))
    · refine List.forall_mem_append.2 ⟨fun y hy => ?_, List.forall_mem_singleton.2 ?_⟩
      · obtain ⟨d, hd, hyd⟩ := h.exists_mem y hy
        rcases eq_or_mem_of_replaced (a := c ++ [x]) hd with rfl | hd
        · exact ⟨d ++ [x], by simp, List.mem_append_left _ hyd⟩
        · exact ⟨d, hd, hyd⟩
      · exact ⟨c ++ [x], by simp, by simp⟩
  · refine ⟨classes ++ [[x]], by simp [Color.ofMembers], ?_, ?_, ?_, ?_⟩
    · exact List.forall_mem_append.2 ⟨fun d hd => (h.sublist d hd).trans hgrow,
        List.forall_mem_singleton.2 (List.sublist_append_right _ _)⟩
    · exact List.forall_mem_append.2 ⟨h.apart,
        List.forall_mem_singleton.2 (List.pairwise_singleton _ _)⟩
    · exact List.pairwise_append.2 ⟨h.bars.imp (hmono _ _), List.pairwise_singleton _ _,
        fun d hd => List.forall_mem_singleton.2
          (bars_singleton (h.sublist d hd) (hall _ (List.mem_map_of_mem hd)))⟩
    · refine List.forall_mem_append.2 ⟨fun y hy => ?_, List.forall_mem_singleton.2 ?_⟩
      · obtain ⟨d, hd, hyd⟩ := h.exists_mem y hy
        exact ⟨d, List.mem_append_left _ hd, hyd⟩
      · exact ⟨[x], by simp, by simp⟩

/-- **First fit keeps seeds with a common row apart**, uses no color before it has to, and loses no
seed. -/
theorem exists_fitted (seeds : List (Seed × List Nat)) :
    ∃ classes, colors seeds = classes.map Color.ofMembers ∧ Fitted seeds classes := by
  have h (done rest : List (Seed × List Nat)) (classes : List (List (Seed × List Nat)))
      (hc : Fitted done classes) :
      ∃ last, rest.foldl (fun cs s => firstFit s.1 s.2 cs) (classes.map Color.ofMembers) =
        last.map Color.ofMembers ∧ Fitted (done ++ rest) last := by
    induction rest generalizing done classes with
    | nil => exact ⟨classes, rfl, by simpa using hc⟩
    | cons x rest ih =>
      obtain ⟨next, he, hnext⟩ := hc.add x
      rw [List.foldl_cons, he]
      simpa using ih (done ++ [x]) next hnext
  exact h [] seeds [] ⟨by simp, by simp, .nil, by simp⟩

end Colors

section Arrange

variable [Scalar R] {requests : List (Request R)} {sizes : Sizes}

/-- The number of settings is the place of equal settings, and earlier places stay. -/
theorem settingsIndex_spec (known : List (Settings R)) (s : Settings R) :
    known <+: (settingsIndex known s).1 ∧ (∀ t ∈ (settingsIndex known s).1, t ∈ known ∨ t = s) ∧
      ∃ t, (settingsIndex known s).1[(settingsIndex known s).2]? = some t ∧
        (t = s ∨ (t == s) = true) := by
  unfold settingsIndex
  split
  · rename_i i hi
    obtain ⟨hlt, heq, -⟩ := List.findIdx?_eq_some_iff_getElem.1 hi
    exact ⟨List.prefix_rfl, fun _ => .inl, known[i], List.getElem?_eq_getElem hlt, .inr heq⟩
  · exact ⟨List.prefix_append _ _, by simp, s, by simp, .inl rfl⟩

/-- Where the seeds of a direction come from. `alone`: one seed of a group. `together`: seeds with
disjoint rows, of groups that can be coloured and whose settings equal those of the first. -/
inductive Origin (requests : List (Request R)) (sizes : Sizes) (gs : List (Group R × List Seed)) :
    Settings R → List Seed → Prop
  | alone {g : Group R} {seeds : List Seed} {s : Seed} (hg : (g, seeds) ∈ gs) (hs : s ∈ seeds) :
      Origin requests sizes gs g.settings [s]
  | together {g : Group R} {seeds : List Seed} {members : List (Seed × List Nat)}
      (hg : (g, seeds) ∈ gs)
      (hm : ∀ x ∈ members, seedRows requests sizes (rowOffsets requests sizes) x.1 = .ok x ∧
        ∃ m ms, (m, ms) ∈ gs ∧ x.1 ∈ ms ∧ m.colorable = true ∧
          (m = g ∨ (m.settings == g.settings) = true))
      (apart : members.Pairwise fun a b => ∀ r ∈ b.2, r ∉ a.2) :
      Origin requests sizes gs g.settings (members.map Prod.fst)

theorem Origin.exists_group {gs : List (Group R × List Seed)} {σ : Settings R} {seeds : List Seed}
    (h : Origin requests sizes gs σ seeds) {s : Seed} (hs : s ∈ seeds) :
    ∃ g ms, (g, ms) ∈ gs ∧ s ∈ ms := by
  cases h with
  | alone hg hseed => exact ⟨_, _, hg, List.mem_singleton.1 hs ▸ hseed⟩
  | together hg hm apart =>
    obtain ⟨x, hx, rfl⟩ := List.mem_map.1 hs
    obtain ⟨-, m, ms, hm, hxm, -⟩ := hm x hx
    exact ⟨m, ms, hm, hxm⟩

theorem Origin.mono {gs hs : List (Group R × List Seed)} (h : ∀ x ∈ gs, x ∈ hs)
    {s : Settings R} {seeds : List Seed} (ho : Origin requests sizes gs s seeds) :
    Origin requests sizes hs s seeds := by
  cases ho with
  | alone hg hs => exact .alone (h _ hg) hs
  | together hg hm apart =>
    refine .together (h _ hg) (fun x hx => ?_) apart
    obtain ⟨hrows, m, ms, hmem, hrest⟩ := hm x hx
    exact ⟨hrows, m, ms, h _ hmem, hrest⟩

/-- What arranging groups yields: the known settings stay in their places, every direction comes
from the groups and has settings equal to theirs, and every seed is in a direction. -/
structure Arranged (requests : List (Request R)) (sizes : Sizes) (gs : List (Group R × List Seed))
    (known : List (Settings R)) (result : List (Settings R) × List Direction) : Prop where
  known_stays : known <+: result.1
  mem_settings : ∀ s ∈ result.1, s ∈ known ∨ ∃ g seeds, (g, seeds) ∈ gs ∧ g.settings = s
  origin : ∀ d ∈ result.2, ∃ s t, Origin requests sizes gs s d.seeds ∧
    result.1[d.settings]? = some t ∧ (t = s ∨ (t == s) = true)
  exists_mem : ∀ g seeds, (g, seeds) ∈ gs → ∀ s ∈ seeds, ∃ d ∈ result.2, s ∈ d.seeds

/-- A group put in front with directions of its own that hold all its seeds. -/
theorem Arranged.cons {g : Group R} (seeds : List Seed) (rest : List (Group R × List Seed))
    (own : List (List Seed)) {some : List (Group R × List Seed)} {known : List (Settings R)}
    {found : List (Settings R) × List Direction} (hsub : ∀ x ∈ some, x ∈ rest)
    (h : Arranged requests sizes some (settingsIndex known g.settings).1 found)
    (hown : ∀ ss ∈ own, Origin requests sizes ((g, seeds) :: rest) g.settings ss)
    (hseeds : ∀ s ∈ seeds, ∃ ss ∈ own, s ∈ ss)
    (hrest : ∀ m ms, (m, ms) ∈ rest → (m, ms) ∈ some ∨ ∀ s ∈ ms, ∃ ss ∈ own, s ∈ ss) :
    Arranged requests sizes ((g, seeds) :: rest) known
      (found.1, own.map (fun ss => ⟨(settingsIndex known g.settings).2, ss⟩) ++ found.2) := by
  obtain ⟨hfirst, hknown, t, ht, heq⟩ := settingsIndex_spec known g.settings
  have hmem (s : Seed) (hs : ∃ ss ∈ own, s ∈ ss) :
      ∃ d ∈ own.map (fun ss => (⟨(settingsIndex known g.settings).2, ss⟩ : Direction)) ++ found.2,
        s ∈ d.seeds := by
    obtain ⟨ss, hss, hs⟩ := hs
    exact ⟨_, List.mem_append_left _ (List.mem_map.2 ⟨ss, hss, rfl⟩), hs⟩
  refine ⟨hfirst.trans h.known_stays, fun s hs => ?_, fun d hd => ?_, fun m ms hm s hs => ?_⟩
  · rcases h.mem_settings s hs with hs | ⟨m, ms, hm, hs⟩
    · rcases hknown s hs with hs | rfl
      · exact .inl hs
      · exact .inr ⟨g, seeds, List.mem_cons_self, rfl⟩
    · exact .inr ⟨m, ms, List.mem_cons_of_mem _ (hsub _ hm), hs⟩
  · rcases List.mem_append.1 hd with hd | hd
    · obtain ⟨ss, hss, rfl⟩ := List.mem_map.1 hd
      obtain ⟨hlt, rfl⟩ := List.getElem?_eq_some_iff.1 ht
      refine ⟨g.settings, _, hown ss hss, ?_, heq⟩
      exact List.getElem?_eq_some_iff.2
        ⟨Nat.lt_of_lt_of_le hlt h.known_stays.length_le, (h.known_stays.getElem hlt).symm⟩
    · obtain ⟨s, u, ho, hu⟩ := h.origin d hd
      exact ⟨s, u, ho.mono fun x hx => List.mem_cons_of_mem _ (hsub x hx), hu⟩
  · rcases List.mem_cons.1 hm with hm | hm
    · cases hm
      exact hmem s (hseeds s hs)
    · rcases hrest m ms hm with hm | hm
      · obtain ⟨d, hd, hsd⟩ := h.exists_mem m ms hm s hs
        exact ⟨d, List.mem_append_right _ hd, hsd⟩
      · exact hmem s (hm s hs)

omit [Scalar R] in
/-- Finding the rows of a seed keeps the seed. -/
theorem fst_of_seedRows {offsets : Table String Nat} {s : Seed} {x : Seed × List Nat}
    (h : seedRows requests sizes offsets s = .ok x) : x.1 = s := by
  obtain ⟨rows, -, hx⟩ := Except.bind_eq_ok.1 h
  cases hx
  rfl

/-- **What arranging yields.** -/
theorem arranged_arrange (known : List (Settings R)) (gs : List (Group R × List Seed))
    {result : List (Settings R) × List Direction}
    (h : arrange requests sizes known gs = .ok result) :
    Arranged requests sizes gs known result := by
  induction known, gs using arrange.induct requests sizes generalizing result with
  | case1 known =>
    rw [arrange] at h
    cases h
    exact ⟨List.prefix_rfl, fun _ => .inl, by simp, by simp⟩
  | case2 known g seeds rest known' number hset hc ih =>
    rw [arrange] at h
    simp only [hset, hc, if_true, Except.bind_eq_ok] at h
    obtain ⟨found, hrows, others, hothers, hresult⟩ := h
    cases hresult
    obtain ⟨classes, hcolors, hfitted⟩ := exists_fitted found
    rw [hcolors]
    have hcolored (s : Seed) (hs : s ∈ seeds ++ joining g rest) :
        ∃ ss ∈ (classes.map Color.ofMembers).map Color.seeds, s ∈ ss := by
      obtain ⟨x, hx⟩ := Except.exists_of_mapM hrows hs
      obtain ⟨c, hc, hmem⟩ := hfitted.exists_mem x ((Except.mem_mapM hrows).2 ⟨s, hs, hx⟩)
      exact ⟨c.map Prod.fst, List.mem_map_of_mem (List.mem_map_of_mem hc),
        fst_of_seedRows hx ▸ List.mem_map_of_mem hmem⟩
    have hrest := Arranged.cons seeds rest ((classes.map Color.ofMembers).map Color.seeds)
      (fun x hx => (List.mem_filter.1 hx).1)
      (show Arranged requests sizes _ (settingsIndex known g.settings).1 _ by
        rw [hset]; exact ih hothers) ?_ (fun s hs => hcolored s (List.mem_append_left _ hs)) ?_
    · simpa [hset, Function.comp_def] using hrest
    · intro ss hss
      obtain ⟨_, hcolor, rfl⟩ := List.mem_map.1 hss
      obtain ⟨members, hmembers, rfl⟩ := List.mem_map.1 hcolor
      have hg : (g, seeds) ∈ (g, seeds) :: rest := List.mem_cons_self
      refine .together hg (fun x hx => ?_) (hfitted.apart members hmembers)
      obtain ⟨s, hs, hx⟩ := (Except.mem_mapM hrows).1 ((hfitted.sublist members hmembers).subset hx)
      obtain rfl := fst_of_seedRows hx
      refine ⟨hx, ?_⟩
      rcases List.mem_append.1 hs with hs | hs
      · exact ⟨g, seeds, by simp, hs, hc, .inl rfl⟩
      · obtain ⟨⟨m, ms⟩, hm, hs⟩ := List.mem_flatMap.1 hs
        obtain ⟨hm, hjoins⟩ := List.mem_filter.1 hm
        obtain ⟨hcol, hset⟩ := Bool.and_eq_true_iff.1 hjoins
        exact ⟨m, ms, List.mem_cons_of_mem _ hm, hs, hcol, .inr hset⟩
    · intro m ms hm
      by_cases hjoins : g.joins m = true
      · refine .inr fun s hs => hcolored s (List.mem_append_right _ ?_)
        exact List.mem_flatMap.2 ⟨(m, ms), List.mem_filter.2 ⟨hm, hjoins⟩, hs⟩
      · exact .inl (List.mem_filter.2 ⟨hm, by simpa using hjoins⟩)
  | case3 known g seeds rest known' number hset hc ih =>
    rw [arrange] at h
    simp only [hset, hc, Bool.false_eq_true, if_false, Except.bind_eq_ok] at h
    obtain ⟨others, hothers, hresult⟩ := h
    cases hresult
    have hrest := Arranged.cons seeds rest (seeds.map fun s => [s]) (fun x hx => hx)
      (show Arranged requests sizes _ (settingsIndex known g.settings).1 _ by
        rw [hset]; exact ih hothers) ?_ ?_ fun m ms hm => .inl hm
    · simpa [hset, Function.comp_def] using hrest
    · intro ss hss
      obtain ⟨s, hs, rfl⟩ := List.mem_map.1 hss
      exact .alone (List.mem_cons_self : (g, seeds) ∈ (g, seeds) :: rest) hs
    · exact fun s hs => ⟨[s], List.mem_map_of_mem hs, by simp⟩

end Arrange

section Build

variable [Scalar R] {requests : List (Request R)} {sizes : Sizes} {plan : Plan R}

/-- The groups of some requests, each with its seeds. -/
def WithSeeds (requests : List (Request R)) (sizes : Sizes) (gs : List (Group R × List Seed)) :
    Prop :=
  ∀ g seeds, (g, seeds) ∈ gs ↔ g ∈ groups requests ∧ groupSeeds sizes g = .ok seeds

/-- How a plan is built: the groups of valid requests, each with its seeds, are arranged. -/
theorem exists_arrange_of_build (h : build requests sizes = .ok plan) :
    (∀ q ∈ requests, q.validate sizes = .ok ()) ∧
    ∃ gs : List (Group R × List Seed), gs.map Prod.fst = groups requests ∧
      (∀ x ∈ gs, groupSeeds sizes x.1 = .ok x.2) ∧
      arrange requests sizes [] gs = .ok (plan.settings, plan.directions) ∧
      plan.columnCount = (gs.flatMap Prod.snd).length := by
  simp only [build, Except.bind_eq_ok] at h
  obtain ⟨⟨⟩, hvalid, gs, hgs, result, hresult, hplan⟩ := h
  cases hplan
  have hseeds := Except.mapM_eq_ok.1 hgs
  refine ⟨fun q hq => ?_, gs, ?_, fun x hx => ?_, hresult, rfl⟩
  · exact (Outcome.ofExcept_eq_ok _ _).1 (Except.of_forIn_eq_ok hvalid q hq)
  · clear hgs hresult
    generalize groups requests = all at hseeds ⊢
    induction hseeds with
    | nil => rfl
    | cons hx _ ih =>
      obtain ⟨seeds, -, he⟩ := Except.bind_eq_ok.1 hx
      cases he
      rw [List.map_cons, ih]
  · obtain ⟨g, -, hg⟩ := (Except.mem_mapM hgs).1 hx
    obtain ⟨seeds, hseeds, he⟩ := Except.bind_eq_ok.1 hg
    cases he
    exact (Outcome.ofExcept_eq_ok _ _).1 hseeds

/-- **What a plan is made of**: valid requests, whose groups were arranged. -/
theorem build_eq_ok (h : build requests sizes = .ok plan) :
    (∀ q ∈ requests, q.validate sizes = .ok ()) ∧
    ∃ gs, WithSeeds requests sizes gs ∧ (∀ g ∈ groups requests, ∃ seeds, (g, seeds) ∈ gs) ∧
      Arranged requests sizes gs [] (plan.settings, plan.directions) := by
  obtain ⟨hvalid, gs, hgroups, hseeds, harrange, -⟩ := exists_arrange_of_build h
  have hmem (g : Group R) (hg : g ∈ groups requests) : ∃ seeds, (g, seeds) ∈ gs := by
    obtain ⟨⟨_, seeds⟩, hx, rfl⟩ := List.mem_map.1 (hgroups ▸ hg)
    exact ⟨seeds, hx⟩
  refine ⟨hvalid, gs, fun g seeds => ⟨fun hg => ?_, fun ⟨hg, h⟩ => ?_⟩, hmem,
    arranged_arrange [] gs harrange⟩
  · exact ⟨hgroups ▸ List.mem_map_of_mem (f := Prod.fst) hg, hseeds _ hg⟩
  · obtain ⟨found, hfound⟩ := hmem g hg
    obtain rfl := Except.ok.inj (h.symm.trans (hseeds _ hfound))
    exact hfound

/-- The settings of a plan are those of requests. -/
theorem exists_request_of_settings (h : build requests sizes = .ok plan) {σ : Settings R}
    (hσ : σ ∈ plan.settings) : ∃ q ∈ requests, q.settings = σ := by
  obtain ⟨-, gs, hgs, -, harranged⟩ := build_eq_ok h
  rcases harranged.mem_settings σ hσ with hσ | ⟨g, seeds, hg, rfl⟩
  · cases hσ
  · obtain ⟨q, hq, -, hs⟩ := exists_founder ((hgs g seeds).1 hg).1
    exact ⟨q, hq, hs⟩

section Sizes

variable {sizes' : Sizes} (h : ∀ n, sizes'.get? n = sizes.get? n)

include h

theorem arrange_congr (known : List (Settings R)) (gs : List (Group R × List Seed)) :
    arrange requests sizes' known gs = arrange requests sizes known gs := by
  have hrows : seedRows requests sizes' (rowOffsets requests sizes') =
      seedRows requests sizes (rowOffsets requests sizes) := by
    have hcolumn (offsets : Table String Nat) :
        columnRows requests sizes' offsets = columnRows requests sizes offsets := by
      funext c
      simp only [columnRows, Request.rows_congr h]
    funext s
    simp only [seedRows, rowOffsets, hcolumn, h]
  induction known, gs using arrange.induct requests sizes with
  | case1 known => rw [arrange, arrange]
  | case2 known g seeds rest known' number hset hc ih =>
    rw [arrange, arrange]
    simp only [hset, hc, if_true, hrows, ih]
  | case3 known g seeds rest known' number hset hc ih =>
    rw [arrange, arrange]
    simp only [hset, hc, Bool.false_eq_true, if_false, ih]

/-- **A plan depends on what the sizes say of the variables**, not on their order. -/
theorem build_congr (requests : List (Request R)) :
    build requests sizes' = build requests sizes := by
  have hseeds : groupSeeds (R := R) sizes' = groupSeeds sizes := by
    funext g
    simp only [groupSeeds, Request.cols_congr h, h]
  simp only [build, Request.validate_congr h, hseeds, arrange_congr h]

end Sizes

variable {d : Direction} {s : Seed}

/-- A seed perturbs the variable of a request. -/
theorem exists_request_of_seed (h : build requests sizes = .ok plan) (hd : d ∈ plan.directions)
    (hs : s ∈ d.seeds) : ∃ q ∈ requests, q.wrt = s.wrt := by
  obtain ⟨-, gs, hgs, -, harranged⟩ := build_eq_ok h
  obtain ⟨σ, τ, horigin, -⟩ := harranged.origin d hd
  obtain ⟨g, seeds, hg, hmem⟩ := horigin.exists_group hs
  obtain ⟨hgroup, hseeds⟩ := (hgs g seeds).1 hg
  obtain ⟨q, hq, hw, -⟩ := exists_founder hgroup
  exact ⟨q, hq, hw.trans (groupSeeds_columns hseeds hmem).1.symm⟩

/-- **A column of a seed is one of a request**, which selects the entry that the seed perturbs. -/
theorem request_of_mem_columns (h : build requests sizes = .ok plan) (hd : d ∈ plan.directions)
    (hs : s ∈ d.seeds) {c : Column} (hc : c ∈ s.columns) : ∃ q cols,
      requests[c.request]? = some q ∧ q.wrt = s.wrt ∧ q.cols sizes = .ok cols ∧
        cols[c.col]? = some s.index := by
  obtain ⟨-, gs, hgs, -, harranged⟩ := build_eq_ok h
  obtain ⟨σ, τ, horigin, -⟩ := harranged.origin d hd
  obtain ⟨g, seeds, hg, hmem⟩ := horigin.exists_group hs
  obtain ⟨hgroup, hseeds⟩ := (hgs g seeds).1 hg
  obtain ⟨hw, hcolumns⟩ := groupSeeds_columns hseeds hmem
  obtain ⟨q, cols, hq, hcols, hcol⟩ := (hcolumns c).1 hc
  obtain ⟨-, hqw, -⟩ := (grouped_groups requests).mem g hgroup _ _ hq
  exact ⟨q, cols, getElem?_of_mem_group hgroup hq, hqw.trans hw.symm, hcols, hcol⟩

/-- A column of a seed is selected by its request: the seed perturbs the entry that the column
stands for. -/
theorem cols_of_mem_columns (h : build requests sizes = .ok plan) (hd : d ∈ plan.directions)
    (hs : s ∈ d.seeds) {c : Column} (hc : c ∈ s.columns) {q : Request R}
    (hq : requests[c.request]? = some q) :
    q.wrt = s.wrt ∧ ∃ cols, q.cols sizes = .ok cols ∧ cols[c.col]? = some s.index := by
  obtain ⟨p, cols, hp, hwrt, hcols, hcol⟩ := request_of_mem_columns h hd hs hc
  obtain rfl := Option.some.inj (hq.symm.trans hp)
  exact ⟨hwrt, cols, hcols, hcol⟩

/-- **Every column of every request is fed by a seed.** -/
theorem exists_seed_of_column (h : build requests sizes = .ok plan) {r : Nat} {q : Request R}
    (hq : requests[r]? = some q) {cols : List Nat} (hcols : q.cols sizes = .ok cols) {k i : Nat}
    (hk : cols[k]? = some i) : ∃ d ∈ plan.directions, ∃ s ∈ d.seeds, ⟨r, k⟩ ∈ s.columns := by
  obtain ⟨-, gs, hgs, hall, harranged⟩ := build_eq_ok h
  obtain ⟨g, hgroup, hmem⟩ :=
    (grouped_groups requests).exists_mem q r (List.mem_zipIdx_iff_getElem?.2 hq)
  obtain ⟨seeds, hg⟩ := hall g hgroup
  obtain ⟨-, hseeds⟩ := (hgs g seeds).1 hg
  have hfeeds : g.Feeds sizes i ⟨r, k⟩ := ⟨q, cols, hmem, hcols, hk⟩
  have hi : i < (sizes.get? g.wrt).getD 0 := by
    obtain ⟨-, hw, -⟩ := (grouped_groups requests).mem g hgroup r q hmem
    rw [← hw]
    exact Request.lt_of_mem_select hcols (List.mem_of_getElem? hk)
  obtain ⟨s, hs, rfl⟩ := exists_groupSeeds hseeds hfeeds hi
  obtain ⟨d, hd, hsd⟩ := harranged.exists_mem g seeds hg s hs
  exact ⟨d, hd, s, hsd, ((groupSeeds_columns hseeds hs).2 ⟨r, k⟩).2 hfeeds⟩

end Build

end Plan

end Sensitivity
