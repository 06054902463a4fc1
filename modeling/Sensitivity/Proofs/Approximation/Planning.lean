import Sensitivity.Proofs.Approximation.Delivering
import Sensitivity.Proofs.Replying

/-!
# Plans that can be made

Valid requests have a plan (`Plan.exists_build`): the rows that their patterns list are rows of their
blocks, whose variables all have places among the stacked rows, so nothing that could be missing is
asked for. And a plan refers to nothing that is not there (`Plan.inRange_of_build`). On a target that
tells the sizes of its variables, and what lies between them, a scheme takes a plan, and sets out on
its directions (`Scheme.exists_takePlan_of_apt`, `Scheme.exists_frameAt`).
-/

namespace Sensitivity

variable {R σ : Type} [Scalar R]

/-- A loop of checks that all pass. -/
theorem Except.forIn_eq_ok {ε α : Type} {f : α → Except ε Unit} {xs : List α}
    (h : ∀ x ∈ xs, f x = .ok ()) :
    (forIn xs PUnit.unit fun x _ => do f x; pure (ForInStep.yield PUnit.unit)) = .ok () := by
  induction xs with
  | nil => rfl
  | cons x rest ih =>
    rw [List.forIn_cons, h x List.mem_cons_self]
    exact ih fun y hy => h y (List.mem_cons_of_mem x hy)

namespace Plan

variable {requests : List (Request R)} {sizes : Sizes}

omit [Scalar R] in
/-- The variables of requests have places among the stacked rows. -/
theorem mem_keys_rowOffsets {q : Request R} (hq : q ∈ requests) :
    q.of ∈ (rowOffsets requests sizes).keys := by
  have hfold (rs : List (Request R)) (x : Table String Nat × Nat) (h : q.of ∈ x.1.keys ∨ q ∈ rs) :
      q.of ∈ (rs.foldl (fun x q => if x.1.contains q.of then x
        else (x.1.insert q.of x.2, x.2 + (sizes.get? q.of).getD 0)) x).1.keys := by
    induction rs generalizing x with
    | nil => exact h.resolve_right List.not_mem_nil
    | cons r rest ih =>
      rw [List.foldl_cons]
      refine ih _ ?_
      have hinsert (n : Nat) : q.of ∈ x.1.keys ∨ q.of = r.of → q.of ∈ (x.1.insert r.of n).keys := by
        rw [Table.keys_insert]
        split
        · rename_i hmem
          rintro (h | h)
          · exact h
          · rwa [h]
        · rintro (h | h)
          · exact List.mem_append_left _ h
          · exact List.mem_append_right _ (List.mem_singleton.2 h)
      split
      · rename_i hknown
        rcases h with h | h
        · exact .inl h
        · rcases List.mem_cons.1 h with rfl | h
          · exact .inl (List.contains_iff_mem.1 hknown)
          · exact .inr h
      · rcases h with h | h
        · exact .inl (hinsert _ (.inl h))
        · rcases List.mem_cons.1 h with rfl | h
          · exact .inl (hinsert _ (.inr rfl))
          · exact .inr h
  exact hfold requests (∅, 0) (.inr hq)

/-- The rows that a column of a valid request writes are rows of its block. -/
theorem exists_columnRows {c : Column} {q : Request R} (hq : requests[c.request]? = some q)
    (hvalid : q.validate sizes = .ok ()) :
    ∃ written, columnRows requests sizes (rowOffsets requests sizes) c = .ok written := by
  obtain ⟨-, rows, cols, hrows, -, hfits⟩ := Request.of_validate hvalid
  obtain ⟨offset, hoffset⟩ : ∃ offset, (rowOffsets requests sizes).get? q.of = some offset := by
    refine Option.ne_none_iff_exists'.1 fun hnone => ?_
    exact (Table.get?_eq_none_iff _ _).1 hnone (mem_keys_rowOffsets (List.mem_of_getElem? hq))
  have hread {written : List Nat} {f : Request R → List Nat → Nat → Outcome (ApproximationError R) _}
      (h : f q rows offset = .ok written) : (Outcome.ofOption requests[c.request]? >>= fun q =>
        Outcome.ofExcept (q.rows sizes) >>= fun rows =>
          Outcome.ofOption ((rowOffsets requests sizes).get? q.of) >>= f q rows) = .ok written :=
    Except.bind_eq_ok.2 ⟨q, (Outcome.ofOption_eq_ok _ _).2 hq, Except.bind_eq_ok.2 ⟨rows,
      (Outcome.ofExcept_eq_ok _ _).2 hrows, Except.bind_eq_ok.2 ⟨offset,
        (Outcome.ofOption_eq_ok _ _).2 hoffset, h⟩⟩⟩
  cases hp : q.pattern with
  | none => exact ⟨[], hread (by rw [hp]; rfl)⟩
  | some p =>
    obtain ⟨written, hwritten⟩ : ∃ written, (p.rowsInCol c.col).mapM (fun r => do
        return offset + (← Outcome.ofOption rows[r]?)) =
          (.ok written : Outcome (ApproximationError R) (List Nat)) := by
      refine Except.exists_mapM fun r hr => ?_
      obtain ⟨place, hplace, rfl⟩ := List.mem_map.1 hr
      have hlt := (Pattern.fits_iff.1 (hfits p hp)).2.1 _
        (List.of_mem_zip (List.mem_filter.1 hplace).1).1
      exact ⟨offset + rows[place.1], by rw [List.getElem?_eq_getElem hlt]; rfl⟩
    exact ⟨written, hread (by rw [hp]; exact hwritten)⟩

/-- Groups whose seeds write rows that exist can be arranged. -/
theorem exists_arrange (known : List (Settings R)) (gs : List (Group R × List Seed))
    (h : ∀ x ∈ gs, ∀ s ∈ x.2, ∃ y,
      seedRows requests sizes (rowOffsets requests sizes) s = .ok y) :
    ∃ result, arrange requests sizes known gs = .ok result := by
  induction known, gs using arrange.induct requests sizes with
  | case1 known => exact ⟨(known, []), by rw [arrange]; rfl⟩
  | case2 known g seeds rest known' number hset hc ih =>
    obtain ⟨found, hfound⟩ : ∃ found, (seeds ++ joining g rest).mapM
        (seedRows requests sizes (rowOffsets requests sizes)) = .ok found := by
      refine Except.exists_mapM fun s hs => ?_
      rcases List.mem_append.1 hs with hs | hs
      · exact h (g, seeds) List.mem_cons_self s hs
      · obtain ⟨x, hx, hs⟩ := List.mem_flatMap.1 hs
        exact h x (List.mem_cons_of_mem _ (List.mem_filter.1 hx).1) s hs
    obtain ⟨others, hothers⟩ := ih fun x hx =>
      h x (List.mem_cons_of_mem _ (List.mem_filter.1 hx).1)
    rw [arrange]
    simp only [hset, hc, if_true, hfound, hothers]
    exact ⟨_, rfl⟩
  | case3 known g seeds rest known' number hset hc ih =>
    obtain ⟨others, hothers⟩ := ih fun x hx => h x (List.mem_cons_of_mem _ hx)
    rw [arrange]
    simp only [hset, hc, Bool.false_eq_true, if_false, hothers]
    exact ⟨_, rfl⟩

omit [Scalar R] in
theorem exists_groupSeeds_of_cols {g : Group R}
    (h : ∀ x ∈ g.requests, ∃ cols, x.2.cols sizes = .ok cols) :
    ∃ seeds, groupSeeds sizes g = .ok seeds := by
  obtain ⟨columns, hcolumns⟩ : ∃ columns, g.requests.mapM (fun x => do
      return (← x.2.cols sizes).mapIdx fun col index => (index, Column.mk x.1 col)) = .ok columns :=
    Except.exists_mapM fun x hx => by
      obtain ⟨cols, hcols⟩ := h x hx
      exact ⟨_, Except.bind_eq_ok.2 ⟨cols, hcols, rfl⟩⟩
  exact ⟨_, Except.bind_eq_ok.2 ⟨columns, hcolumns, rfl⟩⟩

/-- **Valid requests have a plan.** -/
theorem exists_build (hvalid : ∀ q ∈ requests, q.validate sizes = .ok ()) :
    ∃ plan, build requests sizes = .ok plan := by
  have hmem {g : Group R} (hg : g ∈ groups requests) {x : Nat × Request R} (hx : x ∈ g.requests) :
      x.2 ∈ requests :=
    List.mem_of_getElem? (getElem?_of_mem_group hg hx)
  obtain ⟨grouped, hgrouped⟩ : ∃ grouped, (groups requests).mapM (fun g => do
      return (g, ← (Outcome.ofExcept (groupSeeds sizes g) : Outcome (ApproximationError R) _))) =
        .ok grouped :=
    Except.exists_mapM fun g hg => by
      obtain ⟨seeds, hseeds⟩ := exists_groupSeeds_of_cols fun x hx => by
        obtain ⟨-, -, cols, -, hcols, -⟩ := Request.of_validate (hvalid x.2 (hmem hg hx))
        exact ⟨cols, hcols⟩
      exact ⟨(g, seeds), Except.bind_eq_ok.2 ⟨seeds, (Outcome.ofExcept_eq_ok _ _).2 hseeds, rfl⟩⟩
  obtain ⟨result, hresult⟩ : ∃ result, arrange requests sizes [] grouped = .ok result := by
    refine exists_arrange [] grouped fun x hx s hs => ?_
    obtain ⟨g, hg, hx⟩ := (Except.mem_mapM hgrouped).1 hx
    obtain ⟨seeds, hseeds, hx⟩ := Except.bind_eq_ok.1 hx
    cases hx
    obtain ⟨rows, hrows⟩ : ∃ rows, s.columns.mapM
        (columnRows requests sizes (rowOffsets requests sizes)) = .ok rows := by
      refine Except.exists_mapM fun c hc => ?_
      obtain ⟨q, cols, hq, -⟩ :=
        ((groupSeeds_columns ((Outcome.ofExcept_eq_ok _ _).1 hseeds) hs).2 c).1 hc
      exact exists_columnRows (getElem?_of_mem_group hg hq) (hvalid q (hmem hg hq))
    exact ⟨_, Except.bind_eq_ok.2 ⟨rows, hrows, rfl⟩⟩
  refine ⟨⟨result.1, result.2, (grouped.flatMap Prod.snd).length⟩, ?_⟩
  refine Except.bind_eq_ok.2 ⟨⟨⟩, Except.forIn_eq_ok fun q hq =>
    (Outcome.ofExcept_eq_ok _ _).2 (hvalid q hq), ?_⟩
  exact Except.bind_eq_ok.2 ⟨grouped, hgrouped, Except.bind_eq_ok.2 ⟨result, hresult, rfl⟩⟩

/-- The settings of a direction are among those of its plan. -/
theorem exists_settings_of_direction {plan : Plan R} (h : build requests sizes = .ok plan)
    {d : Direction} (hd : d ∈ plan.directions) : ∃ own, plan.settings[d.settings]? = some own := by
  obtain ⟨-, gs, -, -, harranged⟩ := build_eq_ok h
  obtain ⟨-, own, -, hown, -⟩ := harranged.origin d hd
  exact ⟨own, hown⟩

/-- All that a plan refers to is there: the settings and the requests of its directions, the entries
that its seeds perturb, and the columns of the blocks that they feed. -/
structure InRange (requests : List (Request R)) (sizes : Sizes) (p : Plan R) : Prop where
  settings : ∀ d ∈ p.directions, d.settings < p.settings.length
  request : ∀ d ∈ p.directions, ∀ r ∈ d.requests, r < requests.length
  seed : ∀ d ∈ p.directions, ∀ s ∈ d.seeds,
    (∃ q ∈ requests, q.wrt = s.wrt) ∧ ∃ n, sizes.get? s.wrt = some n ∧ s.index < n
  column : ∀ d ∈ p.directions, ∀ s ∈ d.seeds, ∀ c ∈ s.columns, ∃ q rows cols,
    requests[c.request]? = some q ∧ q.rows sizes = .ok rows ∧ q.cols sizes = .ok cols ∧
      c.col < cols.length ∧ ∀ i ∈ rows, ∃ n, sizes.get? q.of = some n ∧ i < n

/-- **A plan refers to nothing that is not there.** -/
theorem inRange_of_build {plan : Plan R} (h : build requests sizes = .ok plan) :
    plan.InRange requests sizes := by
  have hselect {name : String} {entries : Option (List Nat)} {is : List Nat}
      (hselected : Request.select (R := R) name entries sizes = .ok is) (i : Nat) (hi : i ∈ is) :
      ∃ n, sizes.get? name = some n ∧ i < n := by
    have hlt := Request.lt_of_mem_select hselected hi
    cases hn : sizes.get? name with
    | none => simp [hn] at hlt
    | some n => exact ⟨n, rfl, by simpa [hn] using hlt⟩
  refine ⟨fun d hd => ?_, fun d hd r hr => ?_, fun d hd s hs => ?_, fun d hd s hs c hc => ?_⟩
  · obtain ⟨own, hown⟩ := exists_settings_of_direction h hd
    exact (List.getElem?_eq_some_iff.1 hown).1
  · obtain ⟨c, hc, rfl⟩ := Direction.mem_requests.1 hr
    obtain ⟨s, hs, hc⟩ := List.mem_flatMap.1 hc
    obtain ⟨q, -, hq, -⟩ := request_of_mem_columns h hd hs hc
    exact (List.getElem?_eq_some_iff.1 hq).1
  · obtain ⟨c, hc⟩ := List.exists_mem_of_ne_nil _ (ne_nil_of_mem_seeds h hd hs)
    obtain ⟨q, cols, hq, hwrt, hcols, hcol⟩ := request_of_mem_columns h hd hs hc
    exact ⟨⟨q, List.mem_of_getElem? hq, hwrt⟩,
      hwrt ▸ hselect hcols s.index (List.mem_of_getElem? hcol)⟩
  · obtain ⟨q, cols, hq, -, hcols, hcol⟩ := request_of_mem_columns h hd hs hc
    obtain ⟨-, rows, -, hrows, -⟩ :=
      Request.of_validate ((build_eq_ok h).1 q (List.mem_of_getElem? hq))
    exact ⟨q, rows, cols, hq, hrows, hcols, (List.getElem?_eq_some_iff.1 hcol).1, hselect hrows⟩

end Plan

/-- The step of an entry that a variable has. -/
theorem Steps.exists_at? {values : List R} {i : Nat} (hi : i < values.length) (rule : StepRule)
    (base minimum : R) : ∃ h, (compute values rule base minimum).at? i = some h := by
  cases rule with
  | absolute | relative | relativeLegacy | relativeMean => exact ⟨_, rfl⟩
  | relativeEntry =>
    exact ⟨_, List.getElem?_eq_getElem (by rwa [List.length_map])⟩

omit [Scalar R] in
/-- Entries that a variable has can be selected. -/
theorem Request.exists_select {name : String} {entries : Option (List Nat)} {sizes : Sizes} {n : Nat}
    (h : sizes.get? name = some n) (hentries : ∀ is, entries = some is → ∀ i ∈ is, i < n) :
    ∃ is, (select name entries sizes : Except (ApproximationError R) _) = .ok is ∧ ∀ i ∈ is, i < n := by
  cases entries with
  | none => exact ⟨List.range n, by simp only [select, h], fun i hi => List.mem_range.1 hi⟩
  | some is =>
    refine ⟨is, ?_, hentries is rfl⟩
    have hgood : is.find? (n ≤ ·) = none := List.find?_eq_none.2 fun i hi => by
      simpa using hentries is rfl i hi
    simp only [select, h, hgood]

/-- A request, with valid settings, for a dense block of entries that two variables have. -/
structure Request.Apt (extent : String → Option Nat) (q : Request R) : Prop where
  valid : q.settings.validate = .ok ()
  pattern : q.pattern = none
  of : ∃ n, extent q.of = some n ∧ ∀ is, q.ofEntries = some is → ∀ i ∈ is, i < n
  wrt : ∃ n, extent q.wrt = some n ∧ ∀ is, q.wrtEntries = some is → ∀ i ∈ is, i < n

/-- A request, with valid settings, for the dense block of all entries of two variables. -/
structure Request.Entire (q : Request R) : Prop where
  valid : q.settings.validate = .ok ()
  pattern : q.pattern = none
  ofEntries : q.ofEntries = none
  wrtEntries : q.wrtEntries = none

namespace Request.Entire

variable {q : Request R} {sizes : Sizes} {n k : Nat}

theorem apt (hq : q.Entire) {extent : String → Option Nat} (hof : extent q.of = some n)
    (hwrt : extent q.wrt = some k) : q.Apt extent :=
  ⟨hq.valid, hq.pattern, ⟨n, hof, fun _ h => nomatch hq.ofEntries.symm.trans h⟩,
    k, hwrt, fun _ h => nomatch hq.wrtEntries.symm.trans h⟩

theorem rows_eq (hq : q.Entire) (hof : sizes.get? q.of = some n) :
    q.rows sizes = .ok (List.range n) := by
  simp only [rows, select, hq.ofEntries, hof]

theorem cols_eq (hq : q.Entire) (hwrt : sizes.get? q.wrt = some k) :
    q.cols sizes = .ok (List.range k) := by
  simp only [cols, select, hq.wrtEntries, hwrt]

end Request.Entire

namespace Request.Apt

variable {extent : String → Option Nat} {q : Request R} {sizes : Sizes}

theorem exists_rows (hq : q.Apt extent)
    (hof : ∀ n, extent q.of = some n → sizes.get? q.of = some n) :
    ∃ n rows, extent q.of = some n ∧ q.rows sizes = .ok rows ∧ ∀ i ∈ rows, i < n := by
  obtain ⟨n, hn, hentries⟩ := hq.of
  obtain ⟨rows, hrows⟩ := exists_select (hof n hn) hentries
  exact ⟨n, rows, hn, hrows⟩

theorem exists_cols (hq : q.Apt extent)
    (hwrt : ∀ n, extent q.wrt = some n → sizes.get? q.wrt = some n) :
    ∃ n cols, extent q.wrt = some n ∧ q.cols sizes = .ok cols ∧ ∀ j ∈ cols, j < n := by
  obtain ⟨n, hn, hentries⟩ := hq.wrt
  obtain ⟨cols, hcols⟩ := exists_select (hwrt n hn) hentries
  exact ⟨n, cols, hn, hcols⟩

/-- Such a request is valid where its variables have the sizes of their extents. -/
theorem validate_eq_ok (hq : q.Apt extent)
    (hof : ∀ n, extent q.of = some n → sizes.get? q.of = some n)
    (hwrt : ∀ n, extent q.wrt = some n → sizes.get? q.wrt = some n) :
    q.validate sizes = .ok () := by
  obtain ⟨_, rows, -, hrows, -⟩ := hq.exists_rows hof
  obtain ⟨_, cols, -, hcols, -⟩ := hq.exists_cols hwrt
  have hshape : q.shape sizes = .ok (rows.length, cols.length) :=
    Except.bind_eq_ok.2 ⟨rows, hrows, Except.bind_eq_ok.2 ⟨cols, hcols, rfl⟩⟩
  unfold validate
  rw [hq.valid]
  refine Except.bind_eq_ok.2 ⟨_, hshape, ?_⟩
  rw [hq.pattern]
  rfl

end Request.Apt

/-- A target whose graph, if it has one, stays the same, and says what lies between variables that
have an extent. -/
structure Target.Charted (T : Target R σ) (extent : String → Option Nat) : Prop where
  constant : ∀ t u, T.graph t = T.graph u
  answers : ∀ {t graph}, T.graph t = some graph → ∀ {perturbed requested : List String},
    (∀ name ∈ perturbed ++ requested, ∃ n, extent name = some n) →
      ∃ active, graph.activeComponents? perturbed requested = some active

omit [Scalar R] in
/-- A target without a graph. -/
theorem Target.charted_of_none {T : Target R σ} (h : ∀ t, T.graph t = none)
    (extent : String → Option Nat) : T.Charted extent :=
  ⟨fun t u => (h t).trans (h u).symm, fun {t _} hgraph => nomatch (h t).symm.trans hgraph⟩

namespace Scheme

variable {T : Target R σ} {s : Scheme R} {t : σ}

omit [Scalar R] in
theorem mem_variableNames {q : Request R} (hq : q ∈ s.requests) :
    q.of ∈ s.variableNames ∧ q.wrt ∈ s.variableNames := by
  simp only [variableNames, List.mem_eraseDups, List.mem_flatMap]
  exact ⟨⟨q, hq, by simp⟩, ⟨q, hq, by simp⟩⟩

omit [Scalar R] in
/-- Sizes of a scheme hold those of all its variables. -/
theorem get?_of_mem_variableNames {sizes : Sizes} (h : s.sizes T t = .ok sizes) {name : String}
    (hname : name ∈ s.variableNames) : ∃ n, sizes.get? name = some n ∧ T.size t name = .ok n := by
  have hsizes := h
  obtain ⟨entries, hentries, h⟩ := Except.bind_eq_ok.1 h
  cases h
  obtain ⟨y, hy⟩ := Except.exists_of_mapM hentries hname
  obtain ⟨n, -, he⟩ := Except.bind_eq_ok.1 hy
  cases he
  have hmem : name ∈ (Table.ofList entries).keys :=
    Table.mem_keys_ofList.2 (List.mem_map_of_mem (f := Prod.fst) ((Except.mem_mapM hentries).2
      ⟨name, hname, hy⟩))
  cases hget : (Table.ofList entries).get? name with
  | none => exact absurd hmem ((Table.get?_eq_none_iff _ _).1 hget)
  | some k => exact ⟨k, rfl, size_of_sizes hsizes hget⟩

omit [Scalar R] in
/-- A scheme has sizes of its variables when its target has them. -/
theorem exists_sizes (h : ∀ name ∈ s.variableNames, ∃ n, T.size t name = .ok n) :
    ∃ sizes, s.sizes T t = .ok sizes := by
  obtain ⟨entries, hentries⟩ : ∃ entries, s.variableNames.mapM (fun name => do
      return (name, ← T.size t name)) = .ok entries :=
    Except.exists_mapM fun name hname => by
      obtain ⟨n, hn⟩ := h name hname
      exact ⟨(name, n), Except.bind_eq_ok.2 ⟨n, hn, rfl⟩⟩
  exact ⟨.ofList entries, Except.bind_eq_ok.2 ⟨entries, hentries, rfl⟩⟩

/-- A plan holds the sizes of all variables. -/
theorem Planned.get?_sizes {c : CachedPlan R} (h : Planned T s t c) {name : String}
    (hname : name ∈ s.variableNames) {n : Nat} (hn : T.size t name = .ok n) :
    c.sizes.get? name = some n := by
  obtain ⟨sizes, hsizes, hget⟩ := h.sizes
  obtain ⟨k, hk, hsize⟩ := get?_of_mem_variableNames hsizes hname
  rw [hget, hk, Except.ok.inj (hsize.symm.trans hn)]

/-- There is something to run for every direction of a plan. -/
theorem Planned.length_active {c : CachedPlan R} (h : Planned T s t c) :
    c.active.length = c.plan.directions.length := by
  obtain ⟨u, hu⟩ := h.made
  obtain ⟨plan, -, hactive⟩ := Except.bind_eq_ok.1 hu
  obtain ⟨active, hactive, hc⟩ := Except.bind_eq_ok.1 hactive
  rw [← Except.ok.inj hc]
  exact (Except.mapM_eq_ok.1 hactive).length_eq.symm

/-- That holds of each direction by itself. -/
theorem Planned.exists_active {c : CachedPlan R} (h : Planned T s t c) {d : Direction × Nat}
    (hd : d ∈ c.plan.directions.zipIdx) : ∃ active, c.active[d.2]? = some active := by
  refine ⟨_, List.getElem?_eq_getElem ?_⟩
  rw [h.length_active]
  exact (List.getElem?_eq_some_iff.1 (List.mem_zipIdx_iff_getElem?.1 hd)).1

omit [Scalar R] in
/-- The variables that directions are measured for are those of requests. -/
theorem exists_request_of_mem_ofNames {rs : List Nat} {name : String} (h : name ∈ s.ofNames rs) :
    ∃ q ∈ s.requests, name = q.of := by
  simp only [ofNames, List.mem_eraseDups, List.mem_filterMap] at h
  obtain ⟨r, -, hr⟩ := h
  obtain ⟨q, hq, rfl⟩ := Option.map_eq_some_iff.1 hr
  exact ⟨q, List.mem_of_getElem? hq, rfl⟩

variable {w : Session R σ} {extent : String → Option Nat}

/-- **Requests for entries that are there have a plan** on a target that is charted. -/
theorem exists_takePlan_of_apt (hT : T.Charted extent) (hw : w.scheme.Current T)
    (hapt : ∀ q ∈ w.scheme.requests, q.Apt extent)
    (hsize : ∀ name n, extent name = some n → T.size w.target name = .ok n) :
    ∃ c v, (takePlan T).perform w = (.ok c, v) := by
  obtain ⟨sizes, hsizes⟩ : ∃ sizes, w.scheme.sizes T w.target = .ok sizes := by
    refine exists_sizes fun name hname => ?_
    simp only [variableNames, List.mem_eraseDups, List.mem_flatMap] at hname
    obtain ⟨q, hq, hname⟩ := hname
    obtain ⟨n, hn⟩ : ∃ n, extent name = some n := by
      simp only [List.mem_cons, List.not_mem_nil, or_false] at hname
      rcases hname with rfl | rfl
      · exact (hapt q hq).of.imp fun _ h => h.1
      · exact (hapt q hq).wrt.imp fun _ h => h.1
    exact ⟨n, hsize name n hn⟩
  have hget {name : String} (hname : name ∈ w.scheme.variableNames) (n : Nat)
      (hn : extent name = some n) : sizes.get? name = some n := by
    obtain ⟨k, hk, hsize'⟩ := get?_of_mem_variableNames hsizes hname
    rw [hk, Except.ok.inj (hsize'.symm.trans (hsize name n hn))]
  obtain ⟨plan, hplan⟩ : ∃ plan, Plan.build w.scheme.requests sizes = .ok plan :=
    Plan.exists_build fun q hq =>
      (hapt q hq).validate_eq_ok (hget (mem_variableNames hq).1) (hget (mem_variableNames hq).2)
  obtain ⟨active, hactive⟩ : ∃ active,
      plan.directions.mapM (w.scheme.activeSet (T.graph w.target)) = .ok active := by
    refine Except.exists_mapM fun d hd => ?_
    unfold activeSet
    split
    · exact ⟨.all, rfl⟩
    · rename_i graph hgraph
      have hnames : ∀ name ∈ d.perturbed ++ w.scheme.ofNames d.requests,
          ∃ n, extent name = some n := by
        intro name hname
        rcases List.mem_append.1 hname with hname | hname
        · simp only [Direction.perturbed, List.mem_eraseDups, List.mem_map] at hname
          obtain ⟨seed, hseed, rfl⟩ := hname
          obtain ⟨q, hq, hwrt⟩ := ((Plan.inRange_of_build hplan).seed d hd seed hseed).1
          exact hwrt ▸ (hapt q hq).wrt.imp fun _ h => h.1
        · obtain ⟨q, hq, rfl⟩ := exists_request_of_mem_ofNames hname
          exact (hapt q hq).of.imp fun _ h => h.1
      obtain ⟨active, hactive⟩ := hT.answers hgraph hnames
      exact ⟨active, (Outcome.ofOption_eq_ok _ _).2 hactive⟩
  have hprospect : prospect T w.scheme w.target = .ok (sizes, plan, active) :=
    Except.bind_eq_ok.2 ⟨sizes, hsizes, Except.bind_eq_ok.2 ⟨plan, hplan,
      Except.bind_eq_ok.2 ⟨active, hactive, rfl⟩⟩⟩
  have halike := alike_takePlan hT.constant hw
  rw [hprospect] at halike
  generalize (takePlan T).perform w = r at halike ⊢
  cases halike
  exact ⟨_, _, rfl⟩

section Frame

/-- A variable is read unless it is known. -/
def Read (T : Target R σ) (t : σ) (name : String) (known known' : Table String (List R)) : Prop :=
  (known.contains name = true ∧ known' = known) ∨
    (known.contains name = false ∧ ∃ vs, T.values t name .real = .ok vs ∧
      known' = known.insert name vs)

omit [Scalar R] in
/-- What comes after a variable that is read unless it is known. -/
theorem gives_read_bind {α : Type} {name : String} {Q : α → Prop} {E : ApproximationError R → Prop}
    (h : (T.values t name .real).Gives (fun _ => True) E) (known : Table String (List R))
    {f : Table String (List R) → Outcome (ApproximationError R) α}
    (hf : ∀ known', Read T t name known known' → (f known').Gives Q E) :
    (if known.contains name then pure known >>= f
      else T.values t name .real >>= fun vs => pure (known.insert name vs) >>= f).Gives Q E := by
  cases hname : known.contains name with
  | true => exact hf known (.inl ⟨hname, rfl⟩)
  | false =>
    refine Outcome.gives_bind (h.and (K := fun vs => T.values t name .real = .ok vs) fun _ => id)
      fun vs hvs => ?_
    exact hf _ (.inr ⟨hname, vs, hvs.2, rfl⟩)

omit [Scalar R] in
/-- A variable that was read is known, and so is what was known before. -/
theorem Read.mem_keys {name : String} {known known' : Table String (List R)}
    (h : Read T t name known known') {n : String} (hn : n = name ∨ n ∈ known.keys) :
    n ∈ known'.keys := by
  rcases h with ⟨hname, rfl⟩ | ⟨-, vs, -, rfl⟩
  · rcases hn with rfl | hn
    · exact List.contains_iff_mem.1 hname
    · exact hn
  · rw [Table.keys_insert]
    split
    · rename_i hname
      rcases hn with rfl | hn
      · exact hname
      · exact hn
    · exact List.mem_append.2 (hn.symm.imp_right List.mem_singleton.2)

omit [Scalar R] in
/-- The variables of requests are read, one after another, as long as they have values. -/
theorem gives_readValues {requests : List (Request R)} {E : ApproximationError R → Prop}
    (h : ∀ q ∈ requests, (T.values t q.of .real).Gives (fun _ => True) E ∧
      (T.values t q.wrt .real).Gives (fun _ => True) E) :
    (readValues T requests t).Gives
      (fun x => ∀ q ∈ requests, q.wrt ∈ x.1.keys ∧ q.of ∈ x.2.keys) E := by
  refine (Outcome.gives_foldlM fun q hq (nominal, baseline) => ?_).mono (fun _ h => h.1) fun _ h => h
  refine gives_read_bind (h q hq).2 nominal fun nominal' hwrt => ?_
  refine gives_read_bind (h q hq).1 baseline fun baseline' hof => ?_
  exact ⟨⟨hwrt.mem_keys (.inl rfl), hof.mem_keys (.inl rfl)⟩,
    fun r hr => ⟨hwrt.mem_keys (.inr hr.1), hof.mem_keys (.inr hr.2)⟩⟩

/-- The settings that are used have a stencil, or need none, where settings are valid. -/
theorem exists_stencil {own : Settings R} (h : own.validate = .ok ()) :
    ∃ found, stencil (settingsAt T t own) = .ok found := by
  have hform {form : Form} {order : Nat} (horder : form.orders.contains order = true) :
      ∃ st : Stencil R, Stencil.ofForm form order = .ok st := by
    cases form <;> simp [Form.orders] at horder <;> rcases horder with rfl | rfl <;>
      exact ⟨_, rfl⟩
  have horder : own.method = .finiteDifference → own.form.orders.contains own.resolvedOrder = true := by
    intro hmethod
    unfold Settings.validate at h
    split at h
    · cases h
    · split at h
      · cases h
      · split at h
        · cases h
        · split at h
          · cases h
          · rename_i hrefused
            simpa [hmethod] using hrefused
  unfold settingsAt
  split
  · rename_i hmethod
    obtain ⟨st, hst⟩ := hform (horder hmethod)
    exact ⟨some st, by simp only [stencil, hmethod, hst]; rfl⟩
  · split
    · exact ⟨_, rfl⟩
    · rename_i hmethod _
      cases hcomplex : own.method with
      | finiteDifference => exact absurd hcomplex hmethod
      | complexStep => exact ⟨none, by simp only [stencil, hcomplex]⟩

/-- Every settings of a plan for valid requests has a stencil, or needs none. -/
theorem exists_methods {c : CachedPlan R} (hc : Planned T s t c)
    (hvalid : ∀ q ∈ s.requests, q.settings.validate = .ok ()) :
    ∃ methods, (c.plan.settings.map (settingsAt T t)).mapM (fun v => do return (v, ← stencil v)) =
      .ok methods :=
  Except.exists_mapM fun v hv => by
    obtain ⟨own, hown, rfl⟩ := List.mem_map.1 hv
    obtain ⟨q, hq, rfl⟩ := Plan.exists_request_of_settings hc.build hown
    obtain ⟨found, hfound⟩ := exists_stencil (hvalid q hq)
    exact ⟨_, Except.bind_eq_ok.2 ⟨found, hfound, rfl⟩⟩

/-- **The directions of a plan for valid requests can be set out on** when the values of all
variables can be read. -/
theorem exists_frameAt {c : CachedPlan R} (hc : Planned T s t c)
    (hvalid : ∀ q ∈ s.requests, q.settings.validate = .ok ())
    (hvalues : ∀ q ∈ s.requests, (∃ vs, T.values t q.of .real = .ok vs) ∧
      ∃ vs, T.values t q.wrt .real = .ok vs) :
    ∃ methods nominal baseline, frameAt T c s t = .ok ⟨c, methods, nominal, baseline⟩ ∧
      (c.plan.settings.map (settingsAt T t)).mapM (fun v => do return (v, ← stencil v)) =
        .ok methods ∧
      readValues T s.requests t = .ok (nominal, baseline) ∧
      ∀ q ∈ s.requests, q.wrt ∈ nominal.keys ∧ q.of ∈ baseline.keys := by
  obtain ⟨methods, hmethods⟩ := exists_methods hc hvalid
  have hgives {name : String} (h : ∃ vs, T.values t name .real = .ok vs) :
      (T.values t name .real).Gives (fun _ => True) fun _ => False := by
    obtain ⟨vs, hvs⟩ := h
    exact Outcome.gives_of_eq_ok hvs trivial
  obtain ⟨⟨nominal, baseline⟩, hread, hknown⟩ := (gives_readValues fun q hq =>
    ⟨hgives (hvalues q hq).1, hgives (hvalues q hq).2⟩).exists_eq_ok
  refine ⟨methods, nominal, baseline, ?_, hmethods, hread, hknown⟩
  exact Except.bind_eq_ok.2 ⟨methods, (Outcome.ofExcept_eq_ok _ _).2 hmethods,
    Except.bind_eq_ok.2 ⟨_, hread, rfl⟩⟩

end Frame

end Scheme

end Sensitivity
