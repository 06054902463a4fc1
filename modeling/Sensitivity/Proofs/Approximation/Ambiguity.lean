import Sensitivity.Proofs.Approximation.Coloring

/-!
# Rows that merged columns share

Perturbing several entries at once is right only where no row that one of them writes depends on
another. What depends on what is declared by requests: a pattern declares its coordinates, a request
without one declares all of its block (`Request.Declares`). A direction is clear of a request when
the request declares no dependency of a row that one seed writes on the entry of another seed
(`Direction.ClearOf`).

The seeds of a direction are apart for the requests with its own settings (`Plan.pairwise_apart`), so
that it is clear of them (`Plan.clearOf_of_beq`). Requests with
other settings are not looked at when seeds are merged, so a direction may meet them
(`Plan.exists_not_unambiguous`): they alone decide whether a plan is unambiguous
(`Plan.unambiguous_iff`).
-/

namespace Sensitivity

variable {R : Type}

/-- A request declares that entry `i` of `of` depends on entry `j` of `wrt`. -/
def Request.Declares (q : Request R) (sizes : Sizes) (of : String) (i : Nat) (wrt : String)
    (j : Nat) : Prop :=
  q.of = of ∧ q.wrt = wrt ∧ ∃ rows cols r k, q.rows sizes = .ok rows ∧ q.cols sizes = .ok cols ∧
    rows[r]? = some i ∧ cols[k]? = some j ∧ ∀ p, q.pattern = some p → p.contains r k = true

/-- A seed writes entry `i` of `of`: a column that it feeds has a coordinate in that row. -/
def Seed.Writes (requests : List (Request R)) (sizes : Sizes) (s : Seed) (of : String) (i : Nat) :
    Prop :=
  ∃ c ∈ s.columns, ∃ q rows r, requests[c.request]? = some q ∧ q.of = of ∧
    q.rows sizes = .ok rows ∧ rows[r]? = some i ∧
    ∀ p, q.pattern = some p → p.contains r c.col = true

/-- No row that the seed `s` writes is declared by `q` to depend on the entry that `t` perturbs. -/
def Seed.Apart (requests : List (Request R)) (sizes : Sizes) (q : Request R) (s t : Seed) : Prop :=
  ∀ of i, s.Writes requests sizes of i → ¬ q.Declares sizes of i t.wrt t.index

/-- No row that one seed of a direction writes is declared by `q` to depend on the entry that
another one perturbs. -/
def Direction.ClearOf (requests : List (Request R)) (sizes : Sizes) (d : Direction)
    (q : Request R) : Prop :=
  ∀ s ∈ d.seeds, ∀ t ∈ d.seeds, s ≠ t → ∀ of i, s.Writes requests sizes of i →
    ¬ q.Declares sizes of i t.wrt t.index

namespace Plan

variable [Scalar R] {requests : List (Request R)} {sizes : Sizes} {plan : Plan R}

/-- Every direction is clear of every request. -/
def Unambiguous (requests : List (Request R)) (sizes : Sizes) (plan : Plan R) : Prop :=
  ∀ d ∈ plan.directions, ∀ q ∈ requests, d.ClearOf requests sizes q

omit [Scalar R] in
/-- The row of a listed coordinate is among the rows of its column. -/
theorem mem_columnRows {offsets : Table String Nat} {c : Column} {found : List Nat}
    (h : columnRows requests sizes offsets c = .ok found) {q : Request R} {rows : List Nat}
    {p : Pattern} {r i : Nat} (hq : requests[c.request]? = some q) (hrows : q.rows sizes = .ok rows)
    (hp : q.pattern = some p) (hr : p.contains r c.col = true) (hi : rows[r]? = some i) :
    ∃ offset, offsets.get? q.of = some offset ∧ offset + i ∈ found := by
  simp only [columnRows, Except.bind_eq_ok, Outcome.ofOption_eq_ok, Outcome.ofExcept_eq_ok, hq,
    Option.some.injEq] at h
  obtain ⟨_, rfl, _, hrows', offset, hoffset, h⟩ := h
  obtain rfl := Except.ok.inj (hrows.symm.trans hrows')
  simp only [hp] at h
  refine ⟨offset, hoffset, (Except.mem_mapM h).2 ⟨r, ?_, ?_⟩⟩
  · have hmem : (r, c.col) ∈ p.coordinates := by simpa [Pattern.contains] using hr
    exact List.mem_map.2 ⟨(r, c.col), List.mem_filter.2 ⟨hmem, by simp⟩, rfl⟩
  · rw [hi]
    rfl

omit [Scalar R] in
/-- The row of a listed coordinate is among the rows of a seed with its column. -/
theorem mem_seedRows {offsets : Table String Nat} {s : Seed} {x : Seed × List Nat}
    (h : seedRows requests sizes offsets s = .ok x) {c : Column} (hc : c ∈ s.columns)
    {q : Request R} {rows : List Nat} {p : Pattern} {r i : Nat}
    (hq : requests[c.request]? = some q) (hrows : q.rows sizes = .ok rows)
    (hp : q.pattern = some p) (hr : p.contains r c.col = true) (hi : rows[r]? = some i) :
    ∃ offset, offsets.get? q.of = some offset ∧ offset + i ∈ x.2 := by
  obtain ⟨found, hfound, hx⟩ := Except.bind_eq_ok.1 h
  cases hx
  obtain ⟨own, hown⟩ := Except.exists_of_mapM hfound hc
  obtain ⟨offset, hoffset, hmem⟩ := mem_columnRows hown hq hrows hp hr hi
  exact ⟨offset, hoffset, List.mem_flatten.2 ⟨own, (Except.mem_mapM hfound).2 ⟨c, hc, hown⟩, hmem⟩⟩

omit [Scalar R] in
/-- Every request of a group that can be coloured has a pattern. -/
theorem Group.exists_pattern {g : Group R} (h : g.colorable = true) {r : Nat} {q : Request R}
    (hq : (r, q) ∈ g.requests) : ∃ p, q.pattern = some p := by
  obtain ⟨-, hall⟩ := Bool.and_eq_true_iff.1 h
  exact Option.isSome_iff_exists.1 (List.all_eq_true.1 hall (r, q) hq)

section Rows

variable {offsets : Table String Nat} {g : Group R} {seeds : List Seed} {s : Seed}
  {x : Seed × List Nat} {of : String} {i : Nat}

/-- A seed has the rows that it writes among its rows. -/
theorem mem_rows_of_writes (hg : g ∈ groups requests) (hseeds : groupSeeds sizes g = .ok seeds)
    (hc : g.colorable = true) (hs : s ∈ seeds) (hx : seedRows requests sizes offsets s = .ok x)
    (h : s.Writes requests sizes of i) :
    ∃ offset, offsets.get? of = some offset ∧ offset + i ∈ x.2 := by
  obtain ⟨c, hmem, q, rows, r, hq, rfl, hrows, hi, hp⟩ := h
  obtain ⟨p, cols, hpmem, -⟩ := ((groupSeeds_columns hseeds hs).2 c).1 hmem
  obtain rfl := Option.some.inj (hq.symm.trans (getElem?_of_mem_group hg hpmem))
  obtain ⟨pattern, hpattern⟩ := Group.exists_pattern hc hpmem
  exact mem_seedRows hx hmem hq hrows hpattern (hp pattern hpattern) hi

/-- A seed has among its rows what a request of its group declares to depend on its entry. -/
theorem mem_rows_of_declares (hg : g ∈ groups requests)
    (hseeds : groupSeeds sizes g = .ok seeds) (hc : g.colorable = true) (hs : s ∈ seeds)
    (hx : seedRows requests sizes offsets s = .ok x) {n : Nat} {q : Request R}
    (hq : (n, q) ∈ g.requests) (h : q.Declares sizes of i s.wrt s.index) :
    ∃ offset, offsets.get? of = some offset ∧ offset + i ∈ x.2 := by
  obtain ⟨rfl, -, rows, cols, r, k, hrows, hcols, hi, hk, hp⟩ := h
  have hmem : ⟨n, k⟩ ∈ s.columns :=
    ((groupSeeds_columns hseeds hs).2 ⟨n, k⟩).2 ⟨q, cols, hq, hcols, hk⟩
  obtain ⟨pattern, hpattern⟩ := Group.exists_pattern hc hq
  exact mem_seedRows hx hmem (getElem?_of_mem_group hg hq) hrows hpattern (hp pattern hpattern) hi

end Rows

variable [LawfulScalar R]

/-- The seeds of a direction are apart for every request whose settings equal its own, even two equal
seeds at different places. -/
theorem pairwise_apart (h : build requests sizes = .ok plan) {d : Direction}
    (hd : d ∈ plan.directions) {σ : Settings R} (hσ : plan.settings[d.settings]? = some σ)
    {q : Request R} (hq : q ∈ requests) (hs : (σ == q.settings) = true) :
    d.seeds.Pairwise fun s t => s.Apart requests sizes q t ∧ t.Apart requests sizes q s := by
  obtain ⟨-, gs, hgs, -, harranged⟩ := build_eq_ok h
  obtain ⟨u, v, horigin, hv, huv⟩ := harranged.origin d hd
  obtain rfl := Option.some.inj (hσ.symm.trans hv)
  obtain ⟨number, seeds⟩ := d
  dsimp only at horigin ⊢
  cases horigin with
  | alone hg hseed => exact List.pairwise_singleton _ _
  | @together g seeds members hg hm apart =>
    have hclear (x : Seed × List Nat) (hx : x ∈ members) (y : Seed × List Nat) (hy : y ∈ members)
        (hxy : ∀ r ∈ y.2, r ∉ x.2) : x.1.Apart requests sizes q y.1 := by
      intro of i hwrites hdeclares
      obtain ⟨hxrows, a, as, ha, hxa, hacol, -⟩ := hm x hx
      obtain ⟨hyrows, b, bs, hb, hyb, hbcol, hbg⟩ := hm y hy
      obtain ⟨hamem, haseeds⟩ := (hgs a as).1 ha
      obtain ⟨hbmem, hbseeds⟩ := (hgs b bs).1 hb
      obtain ⟨offset, hoffset, hix⟩ := mem_rows_of_writes hamem haseeds hacol hxa hxrows hwrites
      obtain ⟨n, hn⟩ := List.mem_iff_getElem?.1 hq
      have hgq : (g.settings == q.settings) = true := by
        rcases huv with rfl | hvg
        · assumption
        · exact BEq.trans (BEq.symm hvg) ‹_›
      have hbq : (b.settings == q.settings) = true := by
        rcases hbg with rfl | hbg
        · exact hgq
        · exact BEq.trans hbg hgq
      have hqb : (n, q) ∈ b.requests := by
        refine mem_requests_of_beq hbmem hn ?_ hbq
        exact hdeclares.2.1.trans (groupSeeds_columns hbseeds hyb).1
      obtain ⟨offset', hoffset', hiy⟩ :=
        mem_rows_of_declares hbmem hbseeds hbcol hyb hyrows hqb hdeclares
      obtain rfl := Option.some.inj (hoffset.symm.trans hoffset')
      exact hxy _ hiy hix
    refine List.pairwise_map.2 (apart.imp_of_mem fun {x y} hx hy hxy => ?_)
    exact ⟨hclear x hx y hy hxy, hclear y hy x hx fun r hr hr' => hxy r hr' hr⟩

/-- **Requests with equal settings never meet**: a direction of a plan is clear of every request
whose settings equal its own. -/
theorem clearOf_of_beq (h : build requests sizes = .ok plan) {d : Direction}
    (hd : d ∈ plan.directions) {σ : Settings R} (hσ : plan.settings[d.settings]? = some σ)
    {q : Request R} (hq : q ∈ requests) (hs : (σ == q.settings) = true) :
    d.ClearOf requests sizes q := by
  intro s hs' t ht hne
  have hsymm : Std.Symm fun s t : Seed =>
      s.Apart requests sizes q t ∧ t.Apart requests sizes q s := ⟨fun _ _ => And.symm⟩
  exact ((pairwise_apart h hd hσ hq hs).forall hs' ht hne).1

/-- **Only requests with other settings make a plan ambiguous**: it is unambiguous exactly when
each of its directions is clear of the requests whose settings differ from those of the
direction. -/
theorem unambiguous_iff (h : build requests sizes = .ok plan) :
    plan.Unambiguous requests sizes ↔
      ∀ d ∈ plan.directions, ∀ σ, plan.settings[d.settings]? = some σ →
        ∀ q ∈ requests, (σ == q.settings) = false → d.ClearOf requests sizes q := by
  constructor
  · exact fun hall d hd _ _ q hq _ => hall d hd q hq
  · intro hother d hd q hq
    obtain ⟨-, gs, -, -, harranged⟩ := build_eq_ok h
    obtain ⟨_, σ, -, hσ, -⟩ := harranged.origin d hd
    cases hs : σ == q.settings with
    | true => exact clearOf_of_beq h hd hσ hq hs
    | false => exact hother d hd σ hσ q hq hs

section Mixed

/-- Settings of requests whose columns may merge. -/
def merging : Settings Float :=
  { Settings.finiteDifference with step := some 0.5, directional := true }

/-- Requests of `y` by `a` and of `z` by `b`, whose columns may merge. -/
def mergingRequests : List (Request Float) :=
  [{ Request.whole "y" "a" merging with pattern := some ⟨[0], [0]⟩ },
    { Request.whole "z" "b" merging with pattern := some ⟨[0], [0]⟩ }]

/-- Settings of a request by itself. -/
def separate : Settings Float := { Settings.finiteDifference with step := some 0.25 }

/-- The same with `z` by `a`, requested with settings of its own: now a row of `z` depends on both
inputs. -/
def mixedRequests : List (Request Float) := mergingRequests ++ [Request.whole "z" "a" separate]

/-- Variables of one entry each. -/
def unitSizes : Sizes := .ofList [("y", 1), ("z", 1), ("a", 1), ("b", 1)]

/-- Requests with the same settings: `a` and `b` share a direction, and nothing is ambiguous. -/
theorem unambiguous_mergingRequests :
    ∃ plan, build mergingRequests unitSizes = .ok plan ∧ (plan.directions.any (·.isColored)) = true ∧
      plan.Unambiguous mergingRequests unitSizes := by
  have hrun : (build mergingRequests unitSizes).toOption.map (fun plan =>
      plan.directions.any (·.isColored) && plan.settings.all fun σ =>
        mergingRequests.all fun q => σ == q.settings) = some true := by decide +kernel
  obtain ⟨plan, hplan, hcheck⟩ := Option.map_eq_some_iff.1 hrun
  have h := Except.eq_ok_of_toOption hplan
  obtain ⟨hcolored, hsettings⟩ := Bool.and_eq_true_iff.1 hcheck
  refine ⟨plan, h, hcolored, (unambiguous_iff h).2 fun d _ σ hσ q hq hne => ?_⟩
  have heq := List.all_eq_true.1 (List.all_eq_true.1 hsettings σ (List.mem_of_getElem? hσ)) q hq
  rw [heq] at hne
  cases hne

/-- **A request with other settings is not looked at**: `a` and `b` share a direction although a
row of `z` that `b` writes is declared to depend on `a`. -/
theorem exists_not_unambiguous :
    ∃ plan, build mixedRequests unitSizes = .ok plan ∧
      ¬ plan.Unambiguous mixedRequests unitSizes := by
  have hrun : (build mixedRequests unitSizes).toOption.map directions =
      some [⟨0, [⟨"a", 0, [⟨0, 0⟩]⟩, ⟨"b", 0, [⟨1, 0⟩]⟩]⟩, ⟨1, [⟨"a", 0, [⟨2, 0⟩]⟩]⟩] := by
    decide +kernel
  obtain ⟨plan, hplan, hdirections⟩ := Option.map_eq_some_iff.1 hrun
  have h := Except.eq_ok_of_toOption hplan
  refine ⟨plan, h, fun hall => ?_⟩
  refine hall ⟨0, [⟨"a", 0, [⟨0, 0⟩]⟩, ⟨"b", 0, [⟨1, 0⟩]⟩]⟩ (by simp [hdirections])
    (Request.whole "z" "a" separate) (by simp [mixedRequests])
    ⟨"b", 0, [⟨1, 0⟩]⟩ (by simp) ⟨"a", 0, [⟨0, 0⟩]⟩ (by simp) (by simp) "z" 0 ?_ ?_
  · exact ⟨⟨1, 0⟩, by simp, { Request.whole "z" "b" merging with pattern := some ⟨[0], [0]⟩ }, [0], 0,
      rfl, rfl, rfl, rfl, by rintro p ⟨⟩; decide⟩
  · exact ⟨rfl, rfl, [0], [0], 0, 0, rfl, rfl, rfl, rfl, by rintro p ⟨⟩⟩

end Mixed

end Plan

end Sensitivity
