import Sensitivity.Proofs.Approximation.Delivering

/-!
# Partitioned computations

The directions of a plan can be evaluated by several ranks, each into its own assembler
(`Scheme.computePartitions`), and the assemblers merged (`Assembler.mergeAll`). On an exact target
and with exact zeros neither the order of the ranks nor that of the merges matters: merged
assemblers that hold all directions of the plan are finished into the blocks that a computation
without ranks yields, and others are incomplete (`Scheme.finish_of_partitions`).
-/

namespace Sensitivity

variable {R σ γ : Type}

namespace Plan

/-- Whether each direction is one of some ranks. -/
def Served (p : Plan R) (members : List Nat) (ranks : Nat) : Prop :=
  ∀ d ∈ p.directions.zipIdx, ∃ rank ∈ members, d ∈ p.directionsFor rank ranks

/-- The directions of some ranks, each once. -/
def servedDirections (p : Plan R) (members : List Nat) (ranks : Nat) : List (Direction × Nat) :=
  p.directions.zipIdx.filter fun d => members.any fun rank => d ∈ p.directionsFor rank ranks

variable {p : Plan R} {members : List Nat} {ranks : Nat}

theorem mem_directionsFor {rank : Nat} {d : Direction × Nat} :
    d ∈ p.directionsFor rank ranks ↔ d ∈ p.directions.zipIdx ∧ d.2 % max ranks 1 = rank := by
  simp [directionsFor]

/-- A computation without ranks is that of a single rank. -/
theorem directionsFor_zero_one (p : Plan R) : p.directionsFor 0 1 = p.directions.zipIdx :=
  List.filter_eq_self.2 fun d _ => by simp [Nat.mod_one]

theorem nodup_map_snd_zipIdx (p : Plan R) : (p.directions.zipIdx.map Prod.snd).Nodup := by
  rw [List.zipIdx_map_snd]
  exact List.nodup_range'

theorem nodup_zipIdx (p : Plan R) : p.directions.zipIdx.Nodup := p.nodup_map_snd_zipIdx.of_map _

/-- Different ranks have no direction in common. -/
theorem nodup_directionsFor (h : members.Nodup) :
    (members.flatMap fun rank => p.directionsFor rank ranks).Nodup := by
  refine List.nodup_flatMap.2 ⟨fun rank _ => p.nodup_zipIdx.filter _, h.imp fun hne d hd hd' => ?_⟩
  exact hne ((mem_directionsFor.1 hd).2.symm.trans (mem_directionsFor.1 hd').2)

/-- The directions of several ranks, one rank after another. -/
theorem perm_servedDirections (h : members.Nodup) :
    (members.flatMap fun rank => p.directionsFor rank ranks).Perm
      (p.servedDirections members ranks) := by
  refine (List.perm_ext_iff_of_nodup (nodup_directionsFor h) (p.nodup_zipIdx.filter _)).2 fun d => ?_
  simp only [List.mem_flatMap, List.mem_filter, List.any_eq_true,
    decide_eq_true_eq]
  exact ⟨fun ⟨rank, hrank, hd⟩ => ⟨(mem_directionsFor.1 hd).1, rank, hrank, hd⟩, And.right⟩

/-- All ranks together have all directions. -/
theorem served_of_forall_mem (hranks : 0 < ranks) (h : ∀ rank < ranks, rank ∈ members) :
    p.Served members ranks := fun d hd =>
  ⟨d.2 % max ranks 1, h _ (by rw [Nat.max_eq_left hranks]; exact Nat.mod_lt _ hranks),
    mem_directionsFor.2 ⟨hd, rfl⟩⟩

theorem servedDirections_eq_iff :
    p.servedDirections members ranks = p.directions.zipIdx ↔ p.Served members ranks := by
  rw [servedDirections, List.filter_eq_self]
  simp [Served]

/-- Ranks have all directions when they have as many as there are. -/
theorem length_servedDirections_eq_iff :
    (p.servedDirections members ranks).length = p.directions.length ↔ p.Served members ranks := by
  rw [← servedDirections_eq_iff]
  constructor
  · intro h
    exact List.filter_sublist.eq_of_length (by rwa [List.length_zipIdx])
  · intro h
    rw [h, List.length_zipIdx]

end Plan

namespace Assembler

variable [Scalar R] {requests : List (Request R)} {sizes : Sizes} {tolerance : R} {count : Nat}

/-- Adds what other assemblers of the same plan hold, one after another. -/
def mergeAll (others : List (Assembler R)) : Action (Assembler R) (ApproximationError R) Unit :=
  Action.forEach others merge

/-- **Merging adds all deliveries**, as long as no column is in two of the assemblers. -/
theorem Received.mergeAll (hzero : ∀ v : R, v + 0 = v ∧ 0 + v = v) {α : Type}
    {assembler : α → Assembler R} {log : α → List (Delivery R)} {x : α} {xs : List α}
    (h : ∀ y ∈ x :: xs, (assembler y).Received requests sizes tolerance count (log y))
    (hnodup : ((((x :: xs).flatMap log).flatMap Delivery.columns).map Prod.fst).Nodup) :
    ∃ a, (Assembler.mergeAll (xs.map assembler)).perform (assembler x) = (.ok (), a) ∧
      a.Received requests sizes tolerance count ((x :: xs).flatMap log) := by
  suffices hall : ∀ (done : List (Delivery R)) (a : Assembler R) (xs : List α),
      a.Received requests sizes tolerance count done →
      (∀ y ∈ xs, (assembler y).Received requests sizes tolerance count (log y)) →
      (((done ++ xs.flatMap log).flatMap Delivery.columns).map Prod.fst).Nodup →
      ∃ b, (Assembler.mergeAll (xs.map assembler)).perform a = (.ok (), b) ∧
        b.Received requests sizes tolerance count (done ++ xs.flatMap log) by
    rw [List.flatMap_cons] at hnodup ⊢
    exact hall (log x) (assembler x) xs (h x List.mem_cons_self)
      (fun y hy => h y (List.mem_cons_of_mem _ hy)) hnodup
  intro done a xs ha hxs hnodup
  induction xs generalizing done a with
  | nil => exact ⟨a, rfl, by simpa using ha⟩
  | cons y rest ih =>
    rw [List.flatMap_cons, ← List.append_assoc] at hnodup ⊢
    obtain ⟨b, hb, hbr⟩ := ha.merge hzero (hxs y List.mem_cons_self) (by
      rw [List.flatMap_append, List.map_append] at hnodup
      exact hnodup.of_append_left)
    obtain ⟨c, hc, hcr⟩ := ih (done ++ log y) b hbr (fun z hz => hxs z (List.mem_cons_of_mem _ hz))
      hnodup
    refine ⟨c, ?_, hcr⟩
    rw [← hc, List.map_cons, Assembler.mergeAll, Action.forEach, Action.perform_bind, hb]
    rfl

end Assembler

namespace Scheme

variable [Scalar R] {T : Target R σ} {view : σ → γ}

/-- Evaluates the directions of some ranks one after another, each into an assembler of its own. -/
def computePartitions (T : Target R σ) (ranks : Nat) (order : List Nat) :
    Work R σ (List (Nat × Assembler R)) :=
  order.mapM fun rank => do return (rank, ← computePartition T rank ranks)

variable {c : CachedPlan R} {w₀ w v : Session R σ} {a : Assembler R} {rank ranks : Nat}

/-- The plan that is taken has the version of the requests and the current sizes. -/
theorem fits_of_takePlan (h : (takePlan T).perform w = (.ok c, v)) :
    c.version = w.scheme.version ∧ ∃ sizes, w.scheme.sizes T w.target = .ok sizes ∧
      c.sizes.sameEntries sizes = true := by
  unfold takePlan at h
  rw [Action.perform_get_bind] at h
  obtain ⟨sizes, hsizes, h⟩ := Action.ofOutcome_bind_eq_ok.1 h
  obtain ⟨⟨⟩, u, hmodify, h⟩ := Action.bind_eq_ok.1 h
  cases hmodify
  dsimp only at h
  split at h
  · rename_i found hfound
    cases h
    obtain ⟨-, hfits⟩ := Option.filter_eq_some_iff.1 hfound
    obtain ⟨hversion, hsame⟩ := Bool.and_eq_true_iff.1 hfits
    exact ⟨by simpa using hversion, sizes, hsizes, hsame⟩
  · obtain ⟨made, hmade, h⟩ := Action.ofOutcome_bind_eq_ok.1 h
    obtain ⟨⟨⟩, u, hmodify, h⟩ := Action.bind_eq_ok.1 h
    cases h
    obtain ⟨plan, hplan, hactive⟩ := Except.bind_eq_ok.1 hmade
    obtain ⟨active, hactive, hc⟩ := Except.bind_eq_ok.1 hactive
    cases hc
    exact ⟨rfl, sizes, hsizes, Table.sameEntries_self sizes⟩

/-- A plan that fits is taken out. -/
theorem takePlan_of_fits {sizes : Sizes} (hcache : w.scheme.cache = some c)
    (hversion : c.version = w.scheme.version)
    (hsizes : w.scheme.sizes T w.target = .ok sizes) (hsame : c.sizes.sameEntries sizes = true) :
    (takePlan T).perform w = (.ok c, { w with scheme := { w.scheme with cache := none } }) := by
  have hfound : (w.scheme.cache.filter fun c =>
      c.version = w.scheme.version && c.sizes.sameEntries sizes) = some c := by
    rw [hcache, Option.filter_some, if_pos]
    simp [hversion, hsame]
  unfold takePlan
  rw [Action.perform_get_bind]
  refine Action.ofOutcome_bind_eq_ok.2 ⟨sizes, hsizes, ?_⟩
  rw [modifyScheme, Action.perform_bind, Action.perform_modify]
  dsimp only
  rw [hfound]
  rfl

/-- A plan that was taken and put back is taken again. -/
theorem takePlan_of_cache (hT : T.Exact view) {u : Session R σ}
    (h : (takePlan T).perform w = (.ok c, u)) (hv : onSession view v = onSession view w)
    (hcache : v.scheme.cache = some c) : ∃ u', (takePlan T).perform v = (.ok c, u') := by
  obtain ⟨hversion, sizes, hsizes, hsame⟩ := fits_of_takePlan h
  obtain ⟨hidentity, hview⟩ := Prod.mk.inj hv
  simp only [identity, Prod.mk.injEq] at hidentity
  obtain ⟨-, -, hrequests, hversion', -⟩ := hidentity
  have hsizes' : v.scheme.sizes T v.target = .ok sizes := by
    rw [← hsizes]
    simp only [Scheme.sizes, variableNames, hrequests, hT.size hview]
  exact ⟨_, takePlan_of_fits hcache (hversion.trans hversion'.symm) hsizes' hsame⟩

/-- What directions deliver at a session. -/
def deliveries (T : Target R σ) (frame : Frame R) (w : Session R σ) (ds : List (Direction × Nat)) :
    List (Delivery R) := ds.filterMap fun d => (delivery T frame w d).toOption

theorem deliveries_cons {frame : Frame R} {d : Direction × Nat} {e : Delivery R}
    (h : delivery T frame w d = .ok e) (rest : List (Direction × Nat)) :
    deliveries T frame w (d :: rest) = e :: deliveries T frame w rest :=
  List.filterMap_cons_some (by rw [h]; rfl)

/-- Directions that all deliver hand over their deliveries, in order. -/
theorem forall₂_deliveries {frame : Frame R} {ds : List (Direction × Nat)}
    (h : ∀ d ∈ ds, ∃ e, delivery T frame w d = .ok e) :
    List.Forall₂ (fun d e => delivery T frame w d = .ok e) ds (deliveries T frame w ds) := by
  induction ds with
  | nil => exact .nil
  | cons d rest ih =>
    obtain ⟨e, he⟩ := h d List.mem_cons_self
    rw [deliveries_cons he]
    exact .cons he (ih fun d hd => h d (List.mem_cons_of_mem _ hd))

/-- Directions that all deliver hand over their columns. -/
theorem map_fst_columns_deliveries {frame : Frame R} {ds : List (Direction × Nat)}
    (h : ∀ d ∈ ds, ∃ e, delivery T frame w d = .ok e) :
    ((deliveries T frame w ds).flatMap Delivery.columns).map Prod.fst =
      ds.flatMap fun d => d.1.seeds.flatMap Seed.columns :=
  map_fst_columns_of_forall₂ (fun _ _ => map_fst_columns_of_delivery) (forall₂_deliveries h)

/-- Directions that all deliver hand over their numbers. -/
theorem map_index_deliveries {frame : Frame R} {ds : List (Direction × Nat)}
    (h : ∀ d ∈ ds, ∃ e, delivery T frame w d = .ok e) :
    (deliveries T frame w ds).map Delivery.index = ds.map Prod.snd := by
  induction ds with
  | nil => rfl
  | cons d rest ih =>
    obtain ⟨e, he⟩ := h d List.mem_cons_self
    obtain ⟨x, -, hx⟩ := delivery_eq_ok.1 he
    rw [deliveries_cons he, List.map_cons, List.map_cons,
      ih fun d hd => h d (List.mem_cons_of_mem _ hd), hx]

/-- A rank with its assembler, which has received what the directions of the rank deliver at a
session. Every other assembler for the same requests takes the same deliveries. -/
def Gathered (T : Target R σ) (c : CachedPlan R) (w₀ : Session R σ) (frame : Frame R)
    (a₀ : Assembler R) (ranks : Nat) (x : Nat × Assembler R) : Prop :=
  (∀ d ∈ c.plan.directionsFor x.1 ranks, ∃ e, delivery T frame w₀ d = .ok e ∧
    (deposited e a₀).1 = .ok ()) ∧
  x.2.Received w₀.scheme.requests c.sizes w₀.scheme.tolerance c.plan.directions.length
    (deliveries T frame w₀ (c.plan.directionsFor x.1 ranks))

section Exact

variable {frame : Frame R} {a₀ : Assembler R} (hT : T.Exact view)
  (hgraph : ∀ {s t}, view s = view t → T.graph s = T.graph t)

include hT in
/-- What evaluating a rank leaves behind. -/
theorem onSession_of_computePartition (h : (computePartition T rank ranks).perform w = (.ok a, v)) :
    onSession view v = onSession view w := by
  have := keeps_computePartition hT.toRestoring rank ranks _ w rfl (by rw [h]; simp)
  rwa [h] at this

include hT hgraph

/-- **A rank gathers the deliveries of its directions**, wherever it comes in the order. -/
theorem gathered_of_computePartition (hw : onSession view w = onSession view w₀) {u : Session R σ}
    (htake : (takePlan T).perform w = (.ok c, u)) (hnodup : c.plan.columns.Nodup)
    (h : (computePartition T rank ranks).perform w = (.ok a, v)) :
    v.scheme.cache = some c ∧ ∃ a₀ frame,
      Assembler.start w₀.scheme.requests c.sizes c.plan = .ok a₀ ∧
      frameAt T c w₀.scheme w₀.target = .ok frame ∧
      Gathered T c w₀ frame { a₀ with tolerance := w₀.scheme.tolerance } ranks (rank, a) := by
  obtain ⟨c', u', u'', htake', hrun, rfl⟩ := computePartition_eq_ok.1 h
  cases htake.symm.trans htake'
  have hu : onSession view u = onSession view w₀ :=
    (onSession_eq (keeps_takePlan : Action.Keeps (onSession view) _) htake).trans hw
  obtain ⟨-, a₀, frame, es, hstart, hframe, hes, htaken, ha⟩ :=
    received_of_evaluateRank hT hgraph hu hnodup hrun
  refine ⟨rfl, a₀, frame, hstart, hframe, fun d hd => ?_, ?_⟩
  · obtain ⟨e, he⟩ := Except.exists_of_mapM hes hd
    exact ⟨e, he, htaken e ((Except.mem_mapM hes).2 ⟨d, hd, he⟩)⟩
  · rw [deliveries, Except.mapM_eq_filterMap hes]
    exact ha

/-- **Ranks that are evaluated one after another gather their deliveries**, in any order. -/
theorem gathered_of_computePartitions (hnodup : c.plan.columns.Nodup) {order : List Nat}
    {parts : List (Nat × Assembler R)} (hw : onSession view w = onSession view w₀) {u : Session R σ}
    (htake : (takePlan T).perform w = (.ok c, u))
    (h : (computePartitions T ranks order).perform w = (.ok parts, v)) :
    onSession view v = onSession view w₀ ∧ (order ≠ [] → v.scheme.cache = some c) ∧
      parts.map Prod.fst = order ∧ ∀ x ∈ parts, ∃ a₀ frame,
        Assembler.start w₀.scheme.requests c.sizes c.plan = .ok a₀ ∧
        frameAt T c w₀.scheme w₀.target = .ok frame ∧
        Gathered T c w₀ frame { a₀ with tolerance := w₀.scheme.tolerance } ranks x := by
  induction order generalizing w u parts with
  | nil =>
    cases h
    exact ⟨hw, fun h => absurd rfl h, rfl, by simp⟩
  | cons rank rest ih =>
    rw [computePartitions, List.mapM_cons] at h
    obtain ⟨x, w₁, hx, h⟩ := Action.bind_eq_ok.1 h
    obtain ⟨a, w₁, hpart, hpair⟩ := Action.bind_eq_ok.1 hx
    cases hpair
    obtain ⟨xs, w₂, hxs, h⟩ := Action.bind_eq_ok.1 h
    cases h
    obtain ⟨hcache, hfirst⟩ := gathered_of_computePartition hT hgraph hw htake hnodup hpart
    have hw₁ := onSession_of_computePartition hT hpart
    obtain ⟨u', htake'⟩ := takePlan_of_cache hT htake hw₁ hcache
    obtain ⟨hv, hcache', hranks, hxs'⟩ := ih (hw₁.trans hw) htake' hxs
    refine ⟨hv, fun _ => ?_, by rw [List.map_cons, hranks], List.forall_mem_cons.2 ⟨hfirst, hxs'⟩⟩
    by_cases hrest : rest = []
    · subst hrest
      cases hxs
      exact hcache
    · exact hcache' hrest

end Exact

section Merge

variable {frame : Frame R} {a₀ : Assembler R} {x : Nat × Assembler R} {xs : List (Nat × Assembler R)}

/-- The directions of some ranks. -/
def gatheredDirections (c : CachedPlan R) (ranks : Nat) (xs : List (Nat × Assembler R)) :
    List (Direction × Nat) := xs.flatMap fun x => c.plan.directionsFor x.1 ranks

omit [Scalar R] in
theorem perm_gatheredDirections (h : (xs.map Prod.fst).Nodup) :
    (gatheredDirections c ranks xs).Perm (c.plan.servedDirections (xs.map Prod.fst) ranks) := by
  rw [gatheredDirections, ← List.flatMap_map (f := Prod.fst)
    (g := fun rank => c.plan.directionsFor rank ranks)]
  exact Plan.perm_servedDirections h

/-- **Merging the assemblers of some ranks gathers what all their directions deliver.** -/
theorem received_of_gathered (hzero : ∀ v : R, v + 0 = v ∧ 0 + v = v)
    (hnodup : c.plan.columns.Nodup) (hmembers : ((x :: xs).map Prod.fst).Nodup)
    (h : ∀ y ∈ x :: xs, Gathered T c w₀ frame a₀ ranks y) :
    ∃ a, (Assembler.mergeAll (xs.map Prod.snd)).perform x.2 = (.ok (), a) ∧
      a.Received w₀.scheme.requests c.sizes w₀.scheme.tolerance c.plan.directions.length
        (deliveries T frame w₀ (gatheredDirections c ranks (x :: xs))) := by
  have hlog : ((x :: xs).flatMap fun y =>
      deliveries T frame w₀ (c.plan.directionsFor y.1 ranks)) =
        deliveries T frame w₀ (gatheredDirections c ranks (x :: xs)) := by
    rw [deliveries, gatheredDirections, List.filterMap_flatMap]
    rfl
  rw [← hlog]
  refine Assembler.Received.mergeAll hzero (fun y hy => (h y hy).2) ?_
  rw [hlog, map_fst_columns_deliveries fun d hd => ?_]
  · exact Plan.nodup_columns_of_subperm hnodup
      ((perm_gatheredDirections hmembers).subperm.trans List.filter_sublist.subperm)
  · obtain ⟨y, hy, hd⟩ := List.mem_flatMap.1 hd
    obtain ⟨e, he, -⟩ := (h y hy).1 d hd
    exact ⟨e, he⟩

end Merge

section Finish

variable {frame : Frame R} {a₀ : Assembler R}

/-- An assembler with what some directions of a plan deliver is complete when these are all, and
else has as many as these are. -/
theorem completed_of_received {ds : List (Direction × Nat)}
    (hsub : ds.Subperm c.plan.directions.zipIdx) (hdelivers : ∀ d ∈ ds, ∃ e,
      delivery T frame w₀ d = .ok e)
    (ha : a.Received w₀.scheme.requests c.sizes w₀.scheme.tolerance c.plan.directions.length
      (deliveries T frame w₀ ds)) :
    a.completed = ds.length ∧ a.deposited.length = c.plan.directions.length := by
  have hlength : a.deposited.length = c.plan.directions.length := by
    rw [ha.deposited_eq, List.length_map, List.length_range]
  refine ⟨?_, hlength⟩
  obtain ⟨es, hperm, hes⟩ := hsub
  have hindices : (ds.map Prod.snd).Nodup :=
    (hperm.map _).nodup_iff.1 (c.plan.nodup_map_snd_zipIdx.sublist (hes.map _))
  rw [ha.completed_eq, map_index_deliveries hdelivers, ← List.length_map Prod.snd]
  refine List.Perm.length_eq ((List.perm_ext_iff_of_nodup (List.nodup_range.filter _) hindices).2
    fun i => ?_)
  simp only [List.mem_filter, List.mem_range, decide_eq_true_eq, and_iff_right_iff_imp]
  intro hi
  obtain ⟨d, hd, rfl⟩ := List.mem_map.1 hi
  have := hes.subset (hperm.mem_iff.2 hd)
  rw [List.mem_zipIdx_iff_getElem?] at this
  exact (List.getElem?_eq_some_iff.1 this).1

variable (hT : T.Exact view) (hgraph : ∀ {s t}, view s = view t → T.graph s = T.graph t)

include hT hgraph

/-- **A computation without ranks gathers the same deliveries.** -/
theorem exists_computePartition_serial (hw : onSession view w = onSession view w₀) {u : Session R σ}
    (htake : (takePlan T).perform w = (.ok c, u)) (hnodup : c.plan.columns.Nodup)
    (hstart : Assembler.start w₀.scheme.requests c.sizes c.plan = .ok a₀)
    (hframe : frameAt T c w₀.scheme w₀.target = .ok frame)
    (h : ∀ d ∈ c.plan.directions.zipIdx, ∃ e, delivery T frame w₀ d = .ok e ∧
      (deposited e { a₀ with tolerance := w₀.scheme.tolerance }).1 = .ok ()) :
    ∃ a v, (computePartition T 0 1).perform w = (.ok a, v) ∧
      onSession view v = onSession view w₀ ∧
      a.Received w₀.scheme.requests c.sizes w₀.scheme.tolerance c.plan.directions.length
        (deliveries T frame w₀ c.plan.directions.zipIdx) := by
  have hall := c.plan.directionsFor_zero_one
  have hu : onSession view u = onSession view w₀ :=
    (onSession_eq (keeps_takePlan : Action.Keeps (onSession view) _) htake).trans hw
  rw [← hall] at h
  obtain ⟨a, u', hrun⟩ := exists_evaluateRank hT hgraph hu hnodup hstart hframe h
  have hpart := computePartition_eq_ok.2 ⟨c, u, u', htake, hrun, rfl⟩
  obtain ⟨-, a₁, frame₁, -, hframe₁, hgathered⟩ :=
    gathered_of_computePartition hT hgraph hw htake hnodup hpart
  obtain rfl := Except.ok.inj (hframe.symm.trans hframe₁)
  exact ⟨a, _, hpart, (onSession_of_computePartition hT hpart).trans hw, hall ▸ hgathered.2⟩

omit hT hgraph in
/-- The first of some ranks takes a plan. -/
theorem exists_takePlan {order : List Nat} {parts : List (Nat × Assembler R)}
    (h : (computePartitions T ranks order).perform w = (.ok parts, v)) (hne : parts ≠ []) :
    ∃ c u, (takePlan T).perform w = (.ok c, u) := by
  cases order with
  | nil =>
    cases h
    exact absurd rfl hne
  | cons rank rest =>
    rw [computePartitions, List.mapM_cons] at h
    obtain ⟨x, w₁, hx, -⟩ := Action.bind_eq_ok.1 h
    obtain ⟨a, w₂, hpart, -⟩ := Action.bind_eq_ok.1 hx
    obtain ⟨c, u, -, htake, -⟩ := computePartition_eq_ok.1 hpart
    exact ⟨c, u, htake⟩

omit hT hgraph in
/-- A lenient scheme finishes equal assemblers into the same blocks and mismatches. -/
theorem exists_finish {b : Assembler R} (hcomplete : a.completed = a.deposited.length)
    (hab : a.finish = b.finish) (hw : w.scheme.policy ≠ .reject) (hv : v.scheme.policy ≠ .reject) :
    ∃ j w' v', (finish a : Work R σ (Jacobian R)).perform w = (.ok j, w') ∧
      (finish b : Work R σ (Jacobian R)).perform v = (.ok j, v') ∧
      w'.scheme.mismatches = v'.scheme.mismatches := by
  obtain ⟨⟨j, mismatches⟩, hfinish⟩ : ∃ x, a.finish = .ok x := by
    unfold Assembler.finish
    rw [if_pos hcomplete]
    exact ⟨_, rfl⟩
  obtain ⟨w', hw', -, -, hmismatches⟩ := perform_finish hfinish hw
  obtain ⟨v', hv', -, -, hmismatches'⟩ := perform_finish (hab ▸ hfinish) hv
  exact ⟨j, w', v', hw', hv', hmismatches.trans hmismatches'.symm⟩

/-- **An assembler with the deliveries of all directions, in any order, is finished into what a
computation without ranks yields.** -/
theorem exists_finish_serial (hbuild : Plan.build w₀.scheme.requests c.sizes = .ok c.plan)
    (hstart : Assembler.start w₀.scheme.requests c.sizes c.plan = .ok a₀)
    (hframe : frameAt T c w₀.scheme w₀.target = .ok frame) {ds : List (Direction × Nat)}
    (hds : ds.Perm c.plan.directions.zipIdx)
    (hdelivers : ∀ d ∈ ds, ∃ e, delivery T frame w₀ d = .ok e ∧
      (deposited e { a₀ with tolerance := w₀.scheme.tolerance }).1 = .ok ())
    (ha : a.Received w₀.scheme.requests c.sizes w₀.scheme.tolerance c.plan.directions.length
      (deliveries T frame w₀ ds)) (hpolicy : w₀.scheme.policy ≠ .reject)
    (hv : onSession view v = onSession view w₀) (hw : onSession view w = onSession view w₀)
    {u : Session R σ} (htake : (takePlan T).perform w = (.ok c, u)) :
    ∃ j v' w', (finish a : Work R σ (Jacobian R)).perform v = (.ok j, v') ∧
      (computeJacobian T).perform w = (.ok j, w') ∧
      v'.scheme.mismatches = w'.scheme.mismatches := by
  have hnodup := Plan.nodup_columns hbuild
  have hsome (d : Direction × Nat) (hd : d ∈ ds) : ∃ e, delivery T frame w₀ d = .ok e :=
    (hdelivers d hd).imp fun _ h => h.1
  obtain ⟨b, w₁, hpart, hw₁, hb⟩ := exists_computePartition_serial hT hgraph hw htake hnodup
    hstart hframe fun d hd => hdelivers d (hds.mem_iff.2 hd)
  have hfinish : a.finish = b.finish := by
    refine ha.finish_eq hb (hds.filterMap _) ?_ fun q hq p hp => ?_
    · rw [map_fst_columns_deliveries hsome]
      exact Plan.nodup_columns_of_subperm hnodup hds.subperm
    · obtain ⟨-, rows, cols, -, -, hfits⟩ :=
        Request.of_validate ((Plan.exists_arrange_of_build hbuild).1 q hq)
      exact (Pattern.fits_iff.1 (hfits p hp)).1
  obtain ⟨hcompleted, hcount⟩ := completed_of_received hds.subperm hsome ha
  have hcomplete : a.completed = a.deposited.length := by
    rw [hcompleted, hcount, hds.length_eq, List.length_zipIdx]
  obtain ⟨j, v', w', hv', hw', hmismatches⟩ := exists_finish hcomplete hfinish
    (policy_of_onSession hv ▸ hpolicy) (policy_of_onSession hw₁ ▸ hpolicy)
  exact ⟨j, v', w', hv', Action.bind_eq_ok.2 ⟨b, w₁, hpart, hw'⟩, hmismatches⟩

omit hT hgraph in
/-- An assembler without some direction cannot be finished. -/
theorem fst_perform_finish_incomplete (h : a.completed ≠ a.deposited.length) :
    ((finish a : Work R σ (Jacobian R)).perform w).1 =
      Outcome.fail (.incomplete a.completed a.deposited.length) := by
  have hfinish : a.finish = .error (.incomplete a.completed a.deposited.length) := by
    rw [Assembler.finish, if_neg h]
  simp only [finish, hfinish]
  rfl

/-- **Partitioned computations yield what a computation without ranks yields.** Some ranks are
evaluated one after another, and the assemblers of some of them are merged, both in any order. If
the merged ranks have all directions of the plan, the blocks and the entries outside patterns are
those of a computation without ranks, before or after; otherwise the assembly is incomplete, with
as many directions as the merged ranks have. -/
theorem finish_of_partitions (hzero : ∀ v : R, v + 0 = v ∧ 0 + v = v)
    (hcurrent : w.scheme.Current T) (hpolicy : w.scheme.policy ≠ .reject) (hranks : 0 < ranks)
    {order : List Nat} (horder : order.Nodup) {parts : List (Nat × Assembler R)}
    (h : (computePartitions T ranks order).perform w = (.ok parts, v))
    {first : Nat × Assembler R} {others : List (Nat × Assembler R)}
    (hmerged : (first :: others).Subperm parts) :
    ∃ c a, v.scheme.cache = some c ∧
      (Assembler.mergeAll (others.map Prod.snd)).perform first.2 = (.ok (), a) ∧
      ((∀ rank < ranks, rank ∈ (first :: others).map Prod.fst) →
        c.plan.Served ((first :: others).map Prod.fst) ranks) ∧
      (c.plan.Served ((first :: others).map Prod.fst) ranks → ∀ u, u = w ∨ u = v →
        ∃ j v' u', (finish a : Work R σ (Jacobian R)).perform v = (.ok j, v') ∧
          (computeJacobian T).perform u = (.ok j, u') ∧
          v'.scheme.mismatches = u'.scheme.mismatches) ∧
      (¬ c.plan.Served ((first :: others).map Prod.fst) ranks →
        ((finish a : Work R σ (Jacobian R)).perform v).1 = Outcome.fail (.incomplete
          (c.plan.servedDirections ((first :: others).map Prod.fst) ranks).length
          c.plan.directions.length)) := by
  obtain ⟨c, u₀, htake⟩ := exists_takePlan h (List.ne_nil_of_mem (hmerged.subset List.mem_cons_self))
  have hbuild := (planned_of_takePlan hcurrent htake).build
  have hnodup := Plan.nodup_columns hbuild
  obtain ⟨hv, hcache, hranks', hparts⟩ :=
    gathered_of_computePartitions hT hgraph hnodup rfl htake h
  obtain ⟨a₀, frame, hstart, hframe, -⟩ := hparts first (hmerged.subset List.mem_cons_self)
  have hgathered (x : Nat × Assembler R) (hx : x ∈ first :: others) :
      Gathered T c w frame { a₀ with tolerance := w.scheme.tolerance } ranks x := by
    obtain ⟨a₁, frame₁, hstart₁, hframe₁, hx⟩ := hparts x (hmerged.subset hx)
    obtain rfl := Except.ok.inj (hstart.symm.trans hstart₁)
    obtain rfl := Except.ok.inj (hframe.symm.trans hframe₁)
    exact hx
  have hmembers : ((first :: others).map Prod.fst).Nodup := by
    obtain ⟨l, hperm, hsub⟩ := hmerged
    exact (hperm.map _).nodup_iff.1 ((hranks' ▸ horder).sublist (hsub.map _))
  have hcache : v.scheme.cache = some c := hcache fun hnil => by
    subst hnil
    exact absurd (hmerged.subset List.mem_cons_self) (by simp [List.map_eq_nil_iff.1 hranks'])
  obtain ⟨a, hmerge, ha⟩ := received_of_gathered hzero hnodup hmembers hgathered
  have hdelivers (d : Direction × Nat) (hd : d ∈ gatheredDirections c ranks (first :: others)) :
      ∃ e, delivery T frame w d = .ok e ∧
        (deposited e { a₀ with tolerance := w.scheme.tolerance }).1 = .ok () := by
    obtain ⟨x, hx, hd⟩ := List.mem_flatMap.1 hd
    exact (hgathered x hx).1 d hd
  have hperm : (gatheredDirections c ranks (first :: others)).Perm _ :=
    perm_gatheredDirections hmembers
  refine ⟨c, a, hcache, hmerge, Plan.served_of_forall_mem hranks, fun hserved u hu => ?_,
    fun hserved => ?_⟩
  · rw [Plan.servedDirections_eq_iff.2 hserved] at hperm
    obtain ⟨hu, u', htake'⟩ : onSession view u = onSession view w ∧
        ∃ u', (takePlan T).perform u = (.ok c, u') := by
      rcases hu with rfl | rfl
      · exact ⟨rfl, u₀, htake⟩
      · exact ⟨hv, takePlan_of_cache hT htake hv hcache⟩
    exact exists_finish_serial hT hgraph hbuild hstart hframe hperm hdelivers ha hpolicy hv hu htake'
  · obtain ⟨hcompleted, hcount⟩ := completed_of_received
      (hperm.subperm.trans List.filter_sublist.subperm)
      (fun d hd => (hdelivers d hd).imp fun _ h => h.1) ha
    rw [hperm.length_eq] at hcompleted
    have hincomplete : a.completed ≠ a.deposited.length := by
      rwa [hcompleted, hcount, Ne, Plan.length_servedDirections_eq_iff]
    rw [← hcompleted, ← hcount]
    exact fst_perform_finish_incomplete hincomplete

end Finish

/-- Blocks that stand for some requests, each in the form that its request asks for. -/
structure Serves (requests : List (Request R)) (j : Jacobian R) : Prop where
  covers : ∀ q ∈ requests, (q.of, q.wrt) ∈ j.keys
  form : ∀ pair b, j.get? pair = some b → ∃ q ∈ requests, (q.of, q.wrt) = pair ∧
    b.form = (b.rows, b.cols, q.pattern.map fun p => (p, p.count))

section Whole

variable {j : Jacobian R}

/-- **What a computation leaves in its assembler**: what all directions of its plan delivered, each
from a session with what evaluating directions sustains. -/
theorem Borne.delivered_of_computeJacobian {P Q : Session R σ → Prop} (hP : Borne T P Q)
    (hcongr : ∀ {u u'}, P u → onSession id u' = onSession id u → P u') (hw : P w)
    (hcurrent : w.scheme.Current T) (h : (computeJacobian T).perform w = (.ok j, v)) :
    ∃ (c : CachedPlan R) (frame : Frame R) (es : List (Delivery R)) (a : Assembler R),
      Planned T w.scheme w.target c ∧ frameAt T c w.scheme w.target = .ok frame ∧
      List.Forall₂ (DeliversIn T P frame) c.plan.directions.zipIdx es ∧
      a.Received w.scheme.requests c.sizes w.scheme.tolerance c.plan.directions.length es ∧
      j = .ofList (a.slots.map fun s => ((s.of, s.wrt), s.block)) := by
  obtain ⟨a, u, hpart, hfinish⟩ := Action.bind_eq_ok.1 h
  obtain ⟨c, u', u'', htake, hrank, -⟩ := computePartition_eq_ok.1 hpart
  have hplanned := planned_of_takePlan hcurrent htake
  -- taking a plan leaves the target and all of the scheme that computations do not change
  have hsession : onSession id u' = onSession id w := onSession_eq keeps_takePlan htake
  have htarget : u'.target = w.target := congrArg Prod.snd hsession
  have hrole := (inRole_of_onSession hsession).right
  have hrequests : u'.scheme.requests = w.scheme.requests := congrArg Role.requests hrole
  have htolerance : u'.scheme.tolerance = w.scheme.tolerance := congrArg Role.tolerance hrole
  obtain ⟨frame, es, hframe, hes, ha⟩ := hP.delivered_of_evaluateRank (hcongr hw hsession)
    (Plan.nodup_columns hplanned.build) hrank
  rw [Plan.directionsFor_zero_one] at hes
  rw [hrequests, htolerance] at ha
  refine ⟨c, frame, es, a, hplanned, ?_, hes, ha, eq_of_finish hfinish⟩
  rwa [frameAt, hrequests, htarget] at hframe

/-- On a target that returns, each direction delivered from a session that was back at the starting
view. -/
theorem delivered_of_computeJacobian (hT : T.Restoring view) (hcurrent : w.scheme.Current T)
    (h : (computeJacobian T).perform w = (.ok j, v)) :
    ∃ (c : CachedPlan R) (frame : Frame R) (es : List (Delivery R)) (a : Assembler R),
      Planned T w.scheme w.target c ∧ frameAt T c w.scheme w.target = .ok frame ∧
      List.Forall₂ (DeliversFrom T view frame w) c.plan.directions.zipIdx es ∧
      a.Received w.scheme.requests c.sizes w.scheme.tolerance c.plan.directions.length es ∧
      j = .ofList (a.slots.map fun s => ((s.of, s.wrt), s.block)) := by
  refine (borne_onSession hT w).delivered_of_computeJacobian (fun {u u'} hu huu' => ?_) rfl hcurrent h
  obtain ⟨hidentity, htarget⟩ := Prod.mk.inj huu'
  rw [← hu]
  exact Prod.ext hidentity (congrArg view htarget)

/-- What a whole partition leaves in its assembler: what all directions of the plan deliver. -/
theorem received_of_serial (hT : T.Exact view)
    (hgraph : ∀ {s t}, view s = view t → T.graph s = T.graph t) (hcurrent : w.scheme.Current T)
    {a : Assembler R} (h : (computePartition T 0 1).perform w = (.ok a, v)) :
    ∃ (c : CachedPlan R) (frame : Frame R), Planned T w.scheme w.target c ∧
      frameAt T c w.scheme w.target = .ok frame ∧
      (∀ d ∈ c.plan.directions.zipIdx, ∃ e, delivery T frame w d = .ok e) ∧
      a.Received w.scheme.requests c.sizes w.scheme.tolerance c.plan.directions.length
        (deliveries T frame w c.plan.directions.zipIdx) := by
  obtain ⟨c, u, u', htake, -, -⟩ := computePartition_eq_ok.1 h
  have hplanned := planned_of_takePlan hcurrent htake
  obtain ⟨-, a₀, frame, -, hframe, hgathered⟩ := gathered_of_computePartition hT hgraph rfl htake
    (Plan.nodup_columns hplanned.build) h
  rw [Gathered, Plan.directionsFor_zero_one] at hgathered
  exact ⟨c, frame, hplanned, hframe, fun d hd => (hgathered.1 d hd).imp fun _ h => h.1, hgathered.2⟩

/-- What a computation leaves in its assembler: what all directions of its plan deliver. -/
theorem received_of_computeJacobian (hT : T.Exact view)
    (hgraph : ∀ {s t}, view s = view t → T.graph s = T.graph t) (hcurrent : w.scheme.Current T)
    (h : (computeJacobian T).perform w = (.ok j, v)) :
    ∃ (c : CachedPlan R) (frame : Frame R) (a : Assembler R), Planned T w.scheme w.target c ∧
      frameAt T c w.scheme w.target = .ok frame ∧
      (∀ d ∈ c.plan.directions.zipIdx, ∃ e, delivery T frame w d = .ok e) ∧
      a.Received w.scheme.requests c.sizes w.scheme.tolerance c.plan.directions.length
        (deliveries T frame w c.plan.directions.zipIdx) ∧
      j = .ofList (a.slots.map fun s => ((s.of, s.wrt), s.block)) := by
  obtain ⟨a, u, hpart, hfinish⟩ := Action.bind_eq_ok.1 h
  obtain ⟨c, frame, hplanned, hframe, hdelivers, hreceived⟩ :=
    received_of_serial hT hgraph hcurrent hpart
  exact ⟨c, frame, a, hplanned, hframe, hdelivers, hreceived, eq_of_finish hfinish⟩

/-- **The blocks of a computation stand for its requests.** -/
theorem serves_of_computeJacobian (hT : T.Restoring view) (hcurrent : w.scheme.Current T)
    (h : (computeJacobian T).perform w = (.ok j, v)) : Serves w.scheme.requests j := by
  obtain ⟨c, frame, es, a, -, -, -, hreceived, rfl⟩ := delivered_of_computeJacobian hT hcurrent h
  refine ⟨fun q hq => ?_, fun pair b hb => ?_⟩
  · rw [Table.mem_keys_ofList, hreceived.map_keys]
    exact List.mem_map_of_mem hq
  · obtain ⟨s, hs, he⟩ := List.mem_map.1 (Table.mem_of_get?_ofList hb)
    obtain ⟨r, hr, rfl⟩ := List.getElem_of_mem hs
    have hr' : r < w.scheme.requests.length := hreceived.length_eq ▸ hr
    obtain ⟨t, ht, hfilled⟩ := hreceived.slot r _ (List.getElem?_eq_getElem hr')
    rw [List.getElem?_eq_getElem hr] at ht
    obtain rfl := Option.some.inj ht
    obtain ⟨rfl, rfl⟩ := Prod.mk.inj he
    refine ⟨_, List.getElem_mem hr', by rw [hfilled.of_eq, hfilled.wrt_eq], ?_⟩
    obtain ⟨cols, -, hblock⟩ := hfilled.block
    cases hp : w.scheme.requests[r].pattern with
    | none =>
      rw [hp] at hblock
      obtain ⟨m, hm, -⟩ := hblock
      rw [hm]
      rfl
    | some p =>
      rw [hp] at hblock
      obtain ⟨values, hm, hlength, -⟩ := hblock
      rw [hm, Option.map_some, ← hlength]
      rfl

end Whole

section RunningSums

/-- Exact arithmetic. Square roots are those of the numerator and the denominator, rounded down. -/
instance rationalScalar : Scalar Rat where
  zero := 0
  one := 1
  neg := Rat.neg
  add := Rat.add
  sub := Rat.sub
  mul := Rat.mul
  div := Rat.div
  ofScientific := OfScientific.ofScientific
  lt := (· < ·)
  le := (· ≤ ·)
  beq := (· == ·)
  decLT := inferInstance
  decLE := inferInstance
  abs := Rat.abs
  max x y := if x < y then y else x
  sqrt x := mkRat x.num.toNat.sqrt x.den.sqrt
  isFinite _ := true
  plainText := toString
  scientificText := toString

/-- A target whose state is `x`: the entries of `y` are the running sums of those of `x`. -/
def runningSums : Target Rat (List Rat) where
  size x _ := .ok x.length
  values x name part :=
    match part with
    | .real => .ok (if name = "y" then (x.scanl (· + ·) 0).tail else x)
    | .imag => Outcome.fail (.unknownVariable name)
  perturb _ index delta := modify fun x =>
    match delta with
    | .real h => x.modify index (· + h)
    | .imag _ => x
  evaluate _ _ := pure ()
  restore saved _ := saved
  complexCapable _ := false
  complexStepActive _ := false
  enter _ _ x := x
  leave x := x
  graph _ := none

theorem runningSums_exact : runningSums.Exact id where
  restore _ := rfl
  leave _ _ _ := rfl
  size h _ := by cases h; rfl
  values h _ _ := by cases h; rfl
  perturb _ _ _ _ _ h := by cases h; exact ⟨rfl, rfl⟩
  evaluate _ _ _ _ h := by cases h; exact ⟨rfl, rfl⟩
  enter h _ _ := h
  complexCapable _ := rfl
  complexStepActive _ := rfl

/-- The diagonal of `y` by `x`, both with three entries, although each entry of `y` depends on all
earlier ones of `x`. -/
def diagonalScheme : Scheme Rat :=
  { empty "model" .group .warn with requests :=
      [{ Request.whole "y" "x" Settings.finiteDifference with
        pattern := some ⟨[0, 1, 2], [0, 1, 2]⟩ }] }

/-- Two ranks that evaluate three directions, the second one first. -/
theorem finish_runningSums : ∃ first second v a,
    (computePartitions runningSums 2 [1, 0]).perform ⟨diagonalScheme, default, [3, 5, 7]⟩ =
      (.ok [second, first], v) ∧
    (Assembler.mergeAll [second.2]).perform first.2 = (.ok (), a) ∧
    ∃ j v' u', (finish a : Work Rat (List Rat) (Jacobian Rat)).perform v = (.ok j, v') ∧
      (computeJacobian runningSums).perform ⟨diagonalScheme, default, [3, 5, 7]⟩ = (.ok j, u') ∧
      v'.scheme.mismatches = u'.scheme.mismatches := by
  have hrun : ((computePartitions runningSums 2 [1, 0]).perform
      ⟨diagonalScheme, default, [3, 5, 7]⟩).1.toOption.map (List.map Prod.fst) = some [1, 0] := by
    decide +kernel
  have hcurrent : diagonalScheme.Current runningSums := fun _ hc => nomatch hc
  obtain ⟨parts, hparts, hranks⟩ := Option.map_eq_some_iff.1 hrun
  have h := Action.perform_eq_ok (Except.eq_ok_of_toOption hparts)
  obtain ⟨second, first, rfl⟩ : ∃ second first, parts = [second, first] := by
    rw [← List.length_eq_two, ← List.length_map Prod.fst, hranks]
    rfl
  simp only [List.map_cons, List.map_nil, List.cons.injEq, and_true] at hranks
  have hmerged : [first, second].Subperm [second, first] := (List.Perm.swap ..).subperm
  obtain ⟨c, a, -, hmerge, hserved, hfinish, -⟩ := finish_of_partitions runningSums_exact
    (fun _ => rfl) (fun v => ⟨Rat.add_zero v, Rat.zero_add v⟩) hcurrent (by decide)
    (by decide) (by decide) h hmerged
  have hall (rank : Nat) (hrank : rank < 2) : rank ∈ [first, second].map Prod.fst := by
    rw [List.map_cons, List.map_cons, List.map_nil, hranks.1, hranks.2]
    revert rank
    decide
  obtain ⟨j, v', u', hv', hu', hmismatches⟩ := hfinish (hserved hall) _ (.inl rfl)
  exact ⟨first, second, _, a, h, hmerge, j, v', u', hv', hu', hmismatches⟩

end RunningSums

end Scheme

end Sensitivity
