import Sensitivity.Proofs.Approximation.Quotients
import Sensitivity.Proofs.Approximation.Shapes

/-!
# What a pattern does to a block

Where no direction serves several seeds, a plan does not depend on the patterns of its requests
(`Plan.eq_of_unmasked`), so two schemes that ask for the same blocks with different patterns measure
the same. A sparse block holds the measured value of a coordinate once for each time that its pattern
lists the coordinate, and the matrix that it means adds them up: a coordinate that is listed once has
the value of the block without a pattern, one that is not listed is zero
(`Scheme.masked_of_computeJacobian`), and one that is listed twice is doubled
(`Scheme.exists_doubled_entry`).
-/

namespace Sensitivity

variable {R σ γ : Type}

/-- A request for the same block without its pattern. -/
def Request.unmasked (q : Request R) : Request R := { q with pattern := none }

namespace Block

section Repeated

variable [Scalar R] {p : Pattern} {values : List R} {rows cols : Nat}

omit [Scalar R] in
/-- What is listed at a coordinate: as many values as the pattern lists it. -/
theorem length_terms_filter (hlength : values.length = p.coordinates.length) (k l : Nat) :
    ((terms p values).filter fun t => t.1 = (k, l)).length = p.coordinates.count (k, l) := by
  have hfst : (terms p values).map Prod.fst = p.coordinates :=
    List.map_fst_zip (Nat.le_of_eq hlength.symm)
  rw [← List.countP_eq_length_filter, List.count, ← hfst, List.countP_map]
  refine List.countP_congr fun t _ => ?_
  simp

omit [Scalar R] in
theorem foldl_replicate {g : R → R → R} (n : Nat) (v x : R) :
    (List.replicate n v).foldl g x = (fun y => g y v)^[n] x := by
  induction n generalizing x with
  | zero => rfl
  | succ n ih =>
    rw [List.replicate_succ, List.foldl_cons, ih, Function.iterate_succ_apply]

/-- **A sparse block with one value at all listings of each coordinate** means the matrix that has
the value added up there, as often as the coordinate is listed. -/
theorem exists_toDense (hfits : p.fits rows cols = true) (hlength : values.length = p.count)
    (value : Nat → Nat → R) (hvalue : ∀ x k l : Nat, p.rows[x]? = some k → p.cols[x]? = some l →
      values[x]? = some (value k l)) :
    ∃ d, (sparse p values rows cols).toDense? = some d ∧ d.rows = rows ∧ d.cols = cols ∧
      ∀ k < rows, ∀ l < cols, d.entry k l =
        (fun y => y + value k l)^[p.coordinates.count (k, l)] 0 := by
  obtain ⟨hpaired, hrows, hcols⟩ := Pattern.fits_iff.1 hfits
  have hcount : values.length = p.coordinates.length := by
    rw [hlength, Pattern.count, Pattern.coordinates, List.length_zip, ← hpaired, Nat.min_self]
  have hterm {t : (Nat × Nat) × R} (ht : t ∈ terms p values) :
      t.1.1 < rows ∧ t.1.2 < cols ∧ t.2 = value t.1.1 t.1.2 := by
    obtain ⟨x, hx⟩ := List.mem_iff_getElem?.1 ht
    obtain ⟨hplace, hv⟩ := List.getElem?_zip_eq_some.1 hx
    obtain ⟨hk, hl⟩ := List.getElem?_zip_eq_some.1 hplace
    refine ⟨hrows _ (List.mem_of_getElem? hk), hcols _ (List.mem_of_getElem? hl), ?_⟩
    exact Option.some.inj (hv.symm.trans (hvalue x _ _ hk hl))
  obtain ⟨d, hd⟩ : ∃ d, addTerms? id 0 0 (terms p values) (.zeros rows cols) = some d :=
    exists_addTerms fun t ht => by
      obtain ⟨hr, hc, -⟩ := hterm ht
      rw [Nat.zero_add, Nat.zero_add]
      exact ⟨hr, hc⟩
  obtain ⟨hdrows, hdcols⟩ := shape_of_addTerms hd
  refine ⟨d, hd, hdrows, hdcols, fun k hk l hl => DenseMatrix.entry_eq ?_⟩
  rw [get?_of_addTerms hd, DenseMatrix.zeros, DenseMatrix.get?_tabulate, if_pos ⟨hk, hl⟩,
    Option.map_some]
  have hlisted : ((terms p values).filter fun t => (0 + t.1.1, 0 + t.1.2) = (k, l)).map
      (fun t => id t.2) = List.replicate (p.coordinates.count (k, l)) (value k l) := by
    have hfilter : ((terms p values).filter fun t => (0 + t.1.1, 0 + t.1.2) = (k, l)) =
        (terms p values).filter fun t => t.1 = (k, l) :=
      List.filter_congr fun t _ => by rw [Nat.zero_add, Nat.zero_add]
    rw [hfilter]
    refine List.eq_replicate_iff.2 ⟨?_, fun v hv => ?_⟩
    · rw [List.length_map, length_terms_filter hcount]
    · obtain ⟨t, ht, rfl⟩ := List.mem_map.1 hv
      obtain ⟨ht, hplace⟩ := List.mem_filter.1 ht
      have hplace : t.1 = (k, l) := by simpa using hplace
      have hv := (hterm ht).2.2
      rw [hplace] at hv
      exact hv
  rw [hlisted, foldl_replicate]

end Repeated

end Block

namespace Plan

section Unmasked

/-- A group whose requests have no patterns. -/
def Group.unmasked (g : Group R) : Group R :=
  { g with requests := g.requests.map fun x => (x.1, x.2.unmasked) }

theorem groupSeeds_unmasked (sizes : Sizes) (g : Group R) :
    groupSeeds sizes g.unmasked = groupSeeds sizes g := by
  simp only [groupSeeds, Group.unmasked, List.mapM_map]
  rfl

variable [Scalar R]

theorem addToGroups_unmasked (i : Nat) (q : Request R) (gs : List (Group R)) :
    addToGroups i q.unmasked (gs.map Group.unmasked) = (addToGroups i q gs).map Group.unmasked := by
  induction gs with
  | nil => rfl
  | cons g rest ih =>
    rw [List.map_cons, addToGroups, addToGroups]
    change (if (g.wrt == q.wrt && g.settings == q.settings) = true then _ else _) = _
    split
    · simp [Group.unmasked]
    · rw [ih, List.map_cons]

/-- Patterns play no part in grouping. -/
theorem groups_unmasked (requests : List (Request R)) :
    groups (requests.map Request.unmasked) = (groups requests).map Group.unmasked := by
  rw [groups, groups, List.zipIdx_map, List.foldl_map]
  have hfold (xs : List (Request R × Nat)) (gs : List (Group R)) :
      xs.foldl (fun gs x => addToGroups x.2 x.1.unmasked gs) (gs.map Group.unmasked) =
        (xs.foldl (fun gs x => addToGroups x.2 x.1 gs) gs).map Group.unmasked :=
    List.foldl_hom _ fun gs x => addToGroups_unmasked x.2 x.1 gs
  exact hfold requests.zipIdx []

/-- The directions of groups whose seeds are on their own. -/
def apart (known : List (Settings R)) :
    List (Settings R × List Seed) → List (Settings R) × List Direction
  | [] => (known, [])
  | (s, seeds) :: rest =>
    let (known, number) := settingsIndex known s
    let (known, others) := apart known rest
    (known, seeds.map (fun seed => ⟨number, [seed]⟩) ++ others)

/-- Groups that do not ask for shared directions are arranged one seed at a time. -/
theorem arrange_eq_apart {requests : List (Request R)} {sizes : Sizes}
    {gs : List (Group R × List Seed)} (h : ∀ x ∈ gs, x.1.settings.directional = false)
    (known : List (Settings R)) :
    arrange requests sizes known gs = .ok (apart known (gs.map fun x => (x.1.settings, x.2))) := by
  induction gs generalizing known with
  | nil =>
    rw [arrange]
    rfl
  | cons x rest ih =>
    obtain ⟨g, seeds⟩ := x
    have hplain : g.colorable = false := by
      rw [Group.colorable, h (g, seeds) List.mem_cons_self, Bool.false_and]
    rw [arrange]
    simp only [hplain, Bool.false_eq_true, if_false,
      ih (fun y hy => h y (List.mem_cons_of_mem _ hy)), List.map_cons, apart]
    rfl

/-- **A plan does not depend on patterns** where no request asks for shared directions. -/
theorem eq_of_unmasked {requests requests' : List (Request R)} {sizes sizes' : Sizes}
    {plan plan' : Plan R} (h : build requests sizes = .ok plan)
    (h' : build requests' sizes' = .ok plan') (hsizes : ∀ n, sizes'.get? n = sizes.get? n)
    (hrequests : requests'.map Request.unmasked = requests.map Request.unmasked)
    (hplain : ∀ q ∈ requests, q.settings.directional = false) : plan' = plan := by
  rw [build_congr hsizes] at h'
  obtain ⟨-, gs, hgs, hseeds, harrange, hcount⟩ := exists_arrange_of_build h
  obtain ⟨-, gs', hgs', hseeds', harrange', hcount'⟩ := exists_arrange_of_build h'
  have hgroups : (gs'.map fun x => x.1.unmasked) = gs.map fun x => x.1.unmasked := by
    have hall := congrArg groups hrequests
    rw [groups_unmasked, groups_unmasked, ← hgs, ← hgs', List.map_map, List.map_map] at hall
    exact hall
  -- equal groups have equal seeds, since these come from the selected entries
  have hpairs : (gs'.map fun x => (x.1.settings, x.2)) = gs.map fun x => (x.1.settings, x.2) := by
    have hlength : gs'.length = gs.length := by simpa using congrArg List.length hgroups
    refine List.ext_getElem (by simpa using hlength) fun i hi hi' => ?_
    rw [List.length_map] at hi hi'
    have hgroup : gs'[i].1.unmasked = gs[i].1.unmasked := by
      have := congrArg (·[i]?) hgroups
      simpa [hi, hi'] using this
    have hseed := hseeds gs[i] (List.getElem_mem hi')
    have hseed' := hseeds' gs'[i] (List.getElem_mem hi)
    rw [← groupSeeds_unmasked] at hseed hseed'
    rw [hgroup, hseed] at hseed'
    have hsettings : gs'[i].1.settings = gs[i].1.settings := (congrArg Group.settings hgroup :)
    rw [List.getElem_map, List.getElem_map, hsettings, Except.ok.inj hseed']
  have hdirectional {reqs : List (Request R)} {xs : List (Group R × List Seed)}
      (hreqs : ∀ q ∈ reqs, q.settings.directional = false) (hxs : xs.map Prod.fst = groups reqs) :
      ∀ x ∈ xs, x.1.settings.directional = false := by
    intro x hx
    obtain ⟨q, hq, -, hsettings⟩ := exists_founder (hxs ▸ List.mem_map_of_mem hx)
    rw [← hsettings]
    exact hreqs q hq
  have hplain' : ∀ q ∈ requests', q.settings.directional = false := by
    intro q hq
    have hmem : q.unmasked ∈ requests.map Request.unmasked :=
      hrequests ▸ List.mem_map_of_mem hq
    obtain ⟨p, hp, hpq⟩ := List.mem_map.1 hmem
    have hsettings : p.settings = q.settings := (congrArg Request.settings hpq :)
    rw [← hsettings]
    exact hplain p hp
  rw [arrange_eq_apart (hdirectional hplain hgs)] at harrange
  rw [arrange_eq_apart (hdirectional hplain' hgs'), hpairs] at harrange'
  have hcounts : plan'.columnCount = plan.columnCount := by
    have hflat : gs'.flatMap Prod.snd = gs.flatMap Prod.snd := by
      have := congrArg (List.flatMap Prod.snd) hpairs
      simpa [List.flatMap_map] using this
    rw [hcount', hcount, hflat]
  obtain ⟨hsettings, hdirections⟩ := Prod.mk.inj (Except.ok.inj (harrange'.symm.trans harrange))
  obtain ⟨settings, directions, count⟩ := plan
  obtain ⟨settings', directions', count'⟩ := plan'
  simp only at hsettings hdirections hcounts
  rw [hsettings, hdirections, hcounts]

end Unmasked

end Plan

namespace Scheme

variable [Scalar R] {T : Target R σ} {view : σ → γ}

/-- Schemes of one scope that ask for the same blocks, with whatever patterns. -/
structure SameBlocks (a b : Scheme R) : Prop where
  owner_eq : b.owner = a.owner
  site_eq : b.site = a.site
  requests_eq : b.requests.map Request.unmasked = a.requests.map Request.unmasked

omit [Scalar R] in
theorem SameBlocks.sameVariables {a b : Scheme R} (h : SameBlocks a b) : SameVariables a b := by
  have hpairs (s : Scheme R) : s.requests.map (fun q => (q.of, q.wrt)) =
      (s.requests.map Request.unmasked).map fun q => (q.of, q.wrt) := by
    rw [List.map_map]
    rfl
  rw [SameVariables, hpairs, hpairs, h.requests_eq]

section Measured

variable {a b : Scheme R} {t : σ} {c c' : CachedPlan R} {frame frame' : Frame R}

/-- Schemes that ask for the same blocks have the same plan. -/
theorem SameBlocks.plan_eq (h : SameBlocks a b) (hgraph : ∀ t u, T.graph t = T.graph u)
    (hplain : ∀ q ∈ a.requests, q.settings.directional = false) (hc : Planned T a t c)
    (hc' : Planned T b t c') : Same c c' := by
  obtain ⟨sizes, hsizes, hget⟩ := hc.sizes
  obtain ⟨sizes', hsizes', hget'⟩ := hc'.sizes
  rw [h.sameVariables.sizes_eq, hsizes] at hsizes'
  obtain rfl := Except.ok.inj hsizes'
  have hsame (n : String) : c'.sizes.get? n = c.sizes.get? n := (hget' n).trans (hget n).symm
  have hplan := Plan.eq_of_unmasked hc.build hc'.build hsame h.requests_eq hplain
  refine ⟨hsame, hplan, ?_⟩
  obtain ⟨u, hu⟩ := hc.made
  obtain ⟨plan, hbuild, hu⟩ := Except.bind_eq_ok.1 hu
  obtain ⟨active, hactive, hu⟩ := Except.bind_eq_ok.1 hu
  obtain ⟨u', hu'⟩ := hc'.made
  obtain ⟨plan', hbuild', hu'⟩ := Except.bind_eq_ok.1 hu'
  obtain ⟨active', hactive', hu'⟩ := Except.bind_eq_ok.1 hu'
  obtain rfl : plan' = plan := by
    rw [← Except.ok.inj hu, ← Except.ok.inj hu'] at hplan
    exact hplan
  rw [hgraph u' u, h.sameVariables.activeSet_eq, hactive] at hactive'
  rw [← Except.ok.inj hu, ← Except.ok.inj hu', Except.ok.inj hactive']

/-- Schemes that ask for the same blocks deliver the same. -/
theorem SameBlocks.deliveries_eq (h : SameBlocks a b) (hsame : Same c c') {d d' : Diagnostics}
    (hframe : frameAt T c a t = .ok frame) (hframe' : frameAt T c' b t = .ok frame')
    {ds : List (Direction × Nat)} (hds : ∀ x ∈ ds, ∃ e, delivery T frame ⟨a, d, t⟩ x = .ok e)
    (hds' : ∀ x ∈ ds, ∃ e, delivery T frame' ⟨b, d', t⟩ x = .ok e) :
    deliveries T frame' ⟨b, d', t⟩ ds = deliveries T frame ⟨a, d, t⟩ ds := by
  obtain ⟨methods, hmethods, hframe⟩ := Except.bind_eq_ok.1 hframe
  obtain ⟨values, hvalues, hframe⟩ := Except.bind_eq_ok.1 hframe
  cases hframe
  obtain ⟨methods', hmethods', hframe'⟩ := Except.bind_eq_ok.1 hframe'
  obtain ⟨values', hvalues', hframe'⟩ := Except.bind_eq_ok.1 hframe'
  cases hframe'
  rw [hsame.plan, hmethods] at hmethods'
  obtain rfl := Except.ok.inj hmethods'
  rw [h.sameVariables.readValues_eq, hvalues] at hvalues'
  obtain rfl := Except.ok.inj hvalues'
  refine List.filterMap_congr fun x hx => congrArg Except.toOption ?_
  obtain ⟨e, he⟩ := hds x hx
  obtain ⟨e', he'⟩ := hds' x hx
  rw [he, he']
  obtain ⟨v, found, perturbations, active, numerators, u, hmethod, hperturbations, hactive,
    hmeasure, rfl⟩ := measured_of_delivery he
  obtain ⟨v', found', perturbations', active', numerators', u', hmethod', hperturbations',
    hactive', hmeasure', rfl⟩ := measured_of_delivery he'
  dsimp only at hmethod hperturbations hactive hmeasure hmethod' hperturbations' hactive' hmeasure'
  obtain ⟨rfl, rfl⟩ := Prod.mk.inj (Option.some.inj (hmethod'.symm.trans hmethod))
  rw [h.site_eq, hperturbations] at hperturbations'
  obtain rfl := Except.ok.inj hperturbations'
  rw [hsame.active, hactive] at hactive'
  obtain rfl := Option.some.inj hactive'
  rw [h.owner_eq, h.sameVariables.ofNames_eq, hmeasure] at hmeasure'
  cases hmeasure'
  rfl

end Measured

section Masked

variable {a b : Scheme R}

/-- The block of a request is the one of its slot, where pairs are distinct. -/
theorem get?_of_slots {requests : List (Request R)} {sizes : Sizes} {tolerance : R} {count : Nat}
    {es : List (Delivery R)} {x : Assembler R} (hx : x.Received requests sizes tolerance count es)
    (hdistinct : (requests.map fun q => (q.of, q.wrt)).Nodup) {r : Nat} {q : Request R}
    {slot : AssemblySlot R} (hslot : x.slots[r]? = some slot) {f : Nat → Option (Source R)}
    (hfilled : slot.FilledBy sizes tolerance q f) :
    (Table.ofList (x.slots.map fun s => ((s.of, s.wrt), s.block))).get? (q.of, q.wrt) =
      some slot.block := by
  have hentry : ((q.of, q.wrt), slot.block) ∈ x.slots.map fun s => ((s.of, s.wrt), s.block) :=
    List.mem_map.2 ⟨slot, List.mem_of_getElem? hslot, by rw [hfilled.of_eq, hfilled.wrt_eq]⟩
  have hkeys := hx.map_keys ▸ hdistinct
  exact (Table.get?_ofList hkeys _).trans (Table.find_of_mem hkeys hentry)

/-- **A pattern masks a block, as often as it lists a coordinate.** A scheme whose request has a
pattern computes a block that means the matrix without the pattern where coordinates are listed once,
and zero where they are not listed. -/
theorem masked_of_computeJacobian (hT : T.Exact view) (hgraph : ∀ t u, T.graph t = T.graph u)
    (hab : SameBlocks a b) (ha : a.Current T) (hb : b.Current T)
    (hdistinct : (a.requests.map fun q => (q.of, q.wrt)).Nodup)
    (hplain : ∀ q ∈ a.requests, q.settings.directional = false) {t : σ} {d d' : Diagnostics}
    {masked full : Jacobian R} {w w' : Session R σ}
    (h : (computeJacobian T).perform ⟨a, d, t⟩ = (.ok masked, w))
    (h' : (computeJacobian T).perform ⟨b, d', t⟩ = (.ok full, w')) {q : Request R} {p : Pattern}
    (hq : q ∈ a.requests) (hp : q.pattern = some p) (hfull : q.unmasked ∈ b.requests) :
    ∃ block matrix dense, masked.get? (q.of, q.wrt) = some block ∧
      full.get? (q.of, q.wrt) = some (.dense dense) ∧ block.toDense? = some matrix ∧
      matrix.rows = dense.rows ∧ matrix.cols = dense.cols ∧
      ∀ k < dense.rows, ∀ l < dense.cols, matrix.entry k l =
        (fun v => v + dense.entry k l)^[p.coordinates.count (k, l)] 0 := by
  obtain ⟨c, frame, x, hc, hframe, hdelivers, hx, rfl⟩ := received_of_computeJacobian hT
    (fun {u v} _ => hgraph u v) ha h
  obtain ⟨c', frame', x', hc', hframe', hdelivers', hx', rfl⟩ := received_of_computeJacobian hT
    (fun {u v} _ => hgraph u v) hb h'
  have hsame := hab.plan_eq hgraph hplain hc hc'
  have hkeys (s : Scheme R) : (s.requests.map fun q => (q.of, q.wrt)) =
      (s.requests.map Request.unmasked).map fun q => (q.of, q.wrt) := by
    rw [List.map_map]
    rfl
  have hdistinct' : (b.requests.map fun q => (q.of, q.wrt)).Nodup := by
    rw [hkeys, hab.requests_eq, ← hkeys]
    exact hdistinct
  -- the two requests have one number
  obtain ⟨r, hr⟩ := List.mem_iff_getElem?.1 hq
  obtain ⟨q', hr', hqq'⟩ : ∃ q', b.requests[r]? = some q' ∧ q'.unmasked = q.unmasked := by
    have hat := congrArg (·[r]?) hab.requests_eq
    simp only [List.getElem?_map, hr, Option.map_some] at hat
    exact Option.map_eq_some_iff.1 hat
  obtain rfl : q' = q.unmasked := by
    refine List.inj_on_of_nodup_map hdistinct' (List.mem_of_getElem? hr') hfull ?_
    exact (congrArg (fun q => (q.of, q.wrt)) hqq' :)
  obtain ⟨slot, hslot, hfilled⟩ := hx.slot r q hr
  obtain ⟨slot', hslot', hfilled'⟩ := hx'.slot r q.unmasked hr'
  rw [hsame.plan] at hdelivers' hfilled'
  rw [hab.deliveries_eq hsame hframe hframe' hdelivers hdelivers'] at hfilled'
  obtain ⟨cols, hcols, hblock⟩ := hfilled.block
  obtain ⟨cols', hcols', hblock'⟩ := hfilled'.block
  have hrows := hfilled.rows_eq
  have hrows' := hfilled'.rows_eq
  rw [Request.rows_congr hsame.sizes] at hrows'
  rw [Request.cols_congr hsame.sizes] at hcols'
  obtain hslots : slot'.rows = slot.rows := Except.ok.inj (hrows'.symm.trans hrows)
  obtain rfl : cols' = cols := Except.ok.inj (hcols'.symm.trans hcols)
  rw [hp] at hblock
  obtain ⟨values, hvalues, hlength, hcells⟩ := hblock
  obtain ⟨dense, hdense, hdrows, hdcols, hentries⟩ := hblock'
  rw [hslots] at hdrows hentries
  obtain ⟨-, rows, cols, hrows₁, hcols₁, hfits⟩ :=
    Request.of_validate ((Plan.build_eq_ok hc.build).1 q hq)
  obtain rfl := Except.ok.inj (hrows₁.symm.trans hrows)
  obtain rfl := Except.ok.inj (hcols₁.symm.trans hcols)
  obtain ⟨hpaired, hlrows, hlcols⟩ := Pattern.fits_iff.1 (hfits p hp)
  obtain ⟨matrix, hmatrix, hmrows, hmcols, hmentries⟩ := Block.exists_toDense (hfits p hp) hlength
    dense.entry fun y k l hk hl => by
      have hk' : k < dense.rows := hdrows ▸ hlrows k (List.mem_of_getElem? hk)
      have hl' : l < dense.cols := hdcols ▸ hlcols l (List.mem_of_getElem? hl)
      obtain ⟨v, hv⟩ := Option.isSome_iff_exists.1 ((dense.isSome_get? k l).2 ⟨hk', hl'⟩)
      rw [hcells y k l hk hl, DenseMatrix.entry_eq hv, ← hv]
      exact (hentries k hk' l hl').symm
  refine ⟨slot.block, matrix, dense, get?_of_slots hx hdistinct hslot hfilled, ?_, hvalues ▸ hmatrix,
    hmrows.trans hdrows.symm, hmcols.trans hdcols.symm, fun k hk l hl => ?_⟩
  · exact (get?_of_slots hx' hdistinct' hslot' hfilled').trans (congrArg some hdense)
  · exact hmentries k (hdrows ▸ hk) l (hdcols ▸ hl)

end Masked

section Listed

/-- A request for `y` by `x`, both with two entries, by steps of a half. Its pattern lists the first
entry of the diagonal twice. -/
def listedRequest : Request Float :=
  { Request.whole "y" "x" { Settings.finiteDifference with step := some 0.5 } with
    pattern := some ⟨[0, 0, 1], [0, 0, 1]⟩ }

/-- The scheme of the request. -/
def listed : Scheme Float := { empty "model" .group .warn with requests := [listedRequest] }

/-- The same scheme without the pattern. -/
def unlisted : Scheme Float := { listed with requests := [listedRequest.unmasked] }

theorem sameBlocks_listed : SameBlocks listed unlisted := ⟨rfl, rfl, rfl⟩

/-- What a scheme computes for the squares of three and five. -/
def squareBlocks (a : Scheme Float) : Outcome (ApproximationError Float) (Jacobian Float) :=
  ((computeJacobian squares).perform ⟨a, default, [3.0, 5.0]⟩).1

/-- The blocks with the pattern. -/
def listedBlocks : Jacobian Float := (squareBlocks listed).toOption.get (by decide +kernel)

/-- The blocks without the pattern. -/
def unlistedBlocks : Jacobian Float := (squareBlocks unlisted).toOption.get (by decide +kernel)

theorem exists_computeJacobian {a : Scheme Float} (h : (squareBlocks a).toOption.isSome = true) :
    ∃ w, (computeJacobian squares).perform ⟨a, default, [3.0, 5.0]⟩ =
      (.ok ((squareBlocks a).toOption.get h), w) :=
  ⟨_, Action.perform_eq_ok (Except.eq_ok_of_toOption (Option.some_get h).symm)⟩

theorem exists_listed : ∃ w, (computeJacobian squares).perform ⟨listed, default, [3.0, 5.0]⟩ =
    (.ok listedBlocks, w) := exists_computeJacobian _

theorem exists_unlisted : ∃ w, (computeJacobian squares).perform ⟨unlisted, default, [3.0, 5.0]⟩ =
    (.ok unlistedBlocks, w) := exists_computeJacobian _

/-- The first entry of the diagonal is added up twice, the second one once. -/
theorem masked_squares : ∃ masked full w w',
    (computeJacobian squares).perform ⟨listed, default, [3.0, 5.0]⟩ = (.ok masked, w) ∧
    (computeJacobian squares).perform ⟨unlisted, default, [3.0, 5.0]⟩ = (.ok full, w') ∧
    ∃ block matrix dense, masked.get? ("y", "x") = some block ∧
      full.get? ("y", "x") = some (.dense dense) ∧ block.toDense? = some matrix ∧
      matrix.rows = dense.rows ∧ matrix.cols = dense.cols ∧
      ∀ k < dense.rows, ∀ l < dense.cols, matrix.entry k l = (fun v => v + dense.entry k l)^[
        (⟨[0, 0, 1], [0, 0, 1]⟩ : Pattern).coordinates.count (k, l)] 0 := by
  obtain ⟨w, h⟩ := exists_listed
  obtain ⟨w', h'⟩ := exists_unlisted
  exact ⟨_, _, w, w', h, h', masked_of_computeJacobian squares_exact (fun _ _ => rfl)
    sameBlocks_listed (fun _ hc => nomatch hc) (fun _ hc => nomatch hc) (by decide)
    (by decide) h h' (List.mem_singleton_self listedRequest) rfl
    (List.mem_singleton_self _)⟩

/-- **A coordinate that a pattern lists twice is doubled**: the scheme without the pattern has the
quotient six and a half where the one with the pattern has thirteen. -/
theorem exists_doubled_entry : ∃ (a b : Scheme Float) (t : List Float) (masked full : Jacobian Float)
    (w w' : Session Float (List Float)), squares.Exact id ∧ (∀ t u, squares.graph t = squares.graph u) ∧
      SameBlocks a b ∧ a.Current squares ∧ b.Current squares ∧
      (a.requests.map fun q => (q.of, q.wrt)).Nodup ∧
      (∀ q ∈ a.requests, q.settings.directional = false) ∧
      (computeJacobian squares).perform ⟨a, default, t⟩ = (.ok masked, w) ∧
      (computeJacobian squares).perform ⟨b, default, t⟩ = (.ok full, w') ∧
      ∃ q ∈ a.requests, ∃ p, q.pattern = some p ∧ q.unmasked ∈ b.requests ∧
      ∃ block matrix dense k l, masked.get? (q.of, q.wrt) = some block ∧
        block.toDense? = some matrix ∧ full.get? (q.of, q.wrt) = some (.dense dense) ∧
        p.contains k l = true ∧ matrix.entry k l ≠ dense.entry k l := by
  obtain ⟨w, h⟩ := exists_listed
  obtain ⟨w', h'⟩ := exists_unlisted
  have hmasked : (listedBlocks.get? ("y", "x")).bind
      (fun b => b.toDense?.map fun m => m.entry 0 0) = some 13.0 := by decide +kernel
  have hfull : (unlistedBlocks.get? ("y", "x")).bind
      (fun b => match b with
        | .dense m => some (m.entry 0 0)
        | .sparse .. => none) = some 6.5 := by decide +kernel
  obtain ⟨block, hblock, hmatrix⟩ := Option.bind_eq_some_iff.1 hmasked
  obtain ⟨matrix, hmatrix, hthirteen⟩ := Option.map_eq_some_iff.1 hmatrix
  obtain ⟨found, hfound, hdense⟩ := Option.bind_eq_some_iff.1 hfull
  cases found with
  | sparse => cases hdense
  | dense m =>
    refine ⟨listed, unlisted, [3.0, 5.0], _, _, w, w', squares_exact, fun _ _ => rfl,
      sameBlocks_listed, (fun _ hc => nomatch hc), (fun _ hc => nomatch hc), by decide,
      by decide, h, h', listedRequest, List.mem_singleton_self _, _, rfl,
      List.mem_singleton_self _, block, matrix, m, 0, 0, hblock, hmatrix, hfound, by decide, ?_⟩
    rw [hthirteen, Option.some.inj hdense]
    decide +kernel

end Listed

end Scheme

end Sensitivity
