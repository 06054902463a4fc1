import Sensitivity.Proofs.Approximation.Evaluations
import Sensitivity.Proofs.Approximation.Selections

/-!
# Plans of uniform requests

Requests without patterns that all have the same settings take a direction for each entry that some of
them selects, however often it is selected and by whatever requests: the entries that the directions
of their plan perturb are these, each of them once (`Plan.mem_entries_iff`, `Plan.nodup_entries`). The
direction of an entry perturbs nothing else, and serves the requests that select the entry
(`Plan.forall₂_moves`). A computation then takes the same number of evaluations along each of them
(`Scheme.plannedEvaluations_of_uniform`).
-/

namespace Sensitivity

variable {R σ : Type} [Scalar R]

/-- Requests without patterns that have the same valid settings. -/
structure Request.Uniform (requests : List (Request R)) (own : Settings R) : Prop where
  valid : own.validate = .ok ()
  settings : ∀ q ∈ requests, q.settings = own
  pattern : ∀ q ∈ requests, q.pattern = none

namespace Plan

omit [Scalar R] in
/-- The entries that the directions of a plan perturb. -/
def entries (plan : Plan R) : List (String × Nat) := plan.directions.flatMap Direction.entries

/-- Some request selects an entry of its design variable. -/
def Selects (sizes : Sizes) (q : Request R) (e : String × Nat) : Prop :=
  q.wrt = e.1 ∧ ∃ cols, q.cols sizes = .ok cols ∧ e.2 ∈ cols

/-- A direction that perturbs a single entry with given settings, for the requests that select it. -/
structure Moves (requests : List (Request R)) (sizes : Sizes) (plan : Plan R) (own : Settings R)
    (e : String × Nat) (d : Direction) : Prop where
  entries : d.entries = [e]
  perturbed : d.perturbed = [e.1]
  settings : plan.settings[d.settings]? = some own
  requests : ∀ r, r ∈ d.requests ↔ ∃ q, requests[r]? = some q ∧ Selects sizes q e

variable {requests : List (Request R)} {sizes : Sizes} {plan : Plan R} {own : Settings R}
  (h : build requests sizes = .ok plan)

include h

variable [LawfulScalar R]

/-- **Every entry that some request selects is perturbed**, and no other one. -/
theorem mem_entries_iff {e : String × Nat} :
    e ∈ plan.entries ↔ ∃ q ∈ requests, Selects sizes q e := by
  simp only [entries, Direction.entries, List.mem_flatMap, List.mem_map]
  constructor
  · rintro ⟨d, hd, s, hs, rfl⟩
    obtain ⟨c, hc⟩ := List.exists_mem_of_ne_nil _ (ne_nil_of_mem_seeds h hd hs)
    obtain ⟨q, cols, σ, hq, hcols, hindex, hwrt, -⟩ := exists_request_of_column h hd hs hc
    exact ⟨q, List.mem_of_getElem? hq, hwrt.symm, cols, hcols, List.mem_of_getElem? hindex⟩
  · rintro ⟨q, hq, hwrt, cols, hcols, hmem⟩
    obtain ⟨r, hr⟩ := List.mem_iff_getElem?.1 hq
    obtain ⟨k, hk⟩ := List.mem_iff_getElem?.1 hmem
    obtain ⟨d, hd, s, hs, hc⟩ := exists_seed_of_column h hr hcols hk
    obtain ⟨hs', cols', hcols', hk'⟩ := cols_of_mem_columns h hd hs hc hr
    obtain rfl := Except.ok.inj (hcols.symm.trans hcols')
    exact ⟨d, hd, s, hs, Prod.ext (hs'.symm.trans hwrt) (Option.some.inj (hk'.symm.trans hk))⟩

variable (huniform : Request.Uniform requests own)

include huniform

/-- A direction of uniform requests has their settings and a single seed. -/
theorem single_of_uniform {d : Direction} (hd : d ∈ plan.directions) :
    plan.settings[d.settings]? = some own ∧ ∃ s, d.seeds = [s] := by
  obtain ⟨s, hs⟩ := List.exists_mem_of_ne_nil _ (ne_nil_of_mem_directions h hd)
  obtain ⟨c, hc⟩ := List.exists_mem_of_ne_nil _ (ne_nil_of_mem_seeds h hd hs)
  obtain ⟨q, cols, σ, hq, -, -, -, hσ, -⟩ := exists_request_of_column h hd hs hc
  obtain ⟨q', hq', rfl⟩ := exists_request_of_settings h (List.mem_of_getElem? hσ)
  exact ⟨hσ.trans (congrArg some (huniform.settings q' hq')), s, seeds_eq_singleton h hd hs hc hq
    (.inr (huniform.pattern q (List.mem_of_getElem? hq)))⟩

/-- **No entry is perturbed twice.** -/
theorem nodup_entries : plan.entries.Nodup := by
  have hcovers := covers_of_build h
  have hbeq := Settings.beq_self_of_validate huniform.valid
  refine List.nodup_flatMap.2 ⟨hcovers.nodup_entries, hcovers.apart.imp_of_mem ?_⟩
  intro d e hd he hapart x hx hx'
  obtain ⟨s, hs, rfl⟩ := List.mem_map.1 hx
  obtain ⟨t, ht, hentry⟩ := List.mem_map.1 hx'
  have hdiffer := hapart s hs t ht hentry.symm own own (single_of_uniform h huniform hd).1
    (single_of_uniform h huniform he).1
  rw [hbeq] at hdiffer
  cases hdiffer

/-- **Every direction perturbs one entry**, for all requests that select it. -/
theorem forall₂_moves :
    List.Forall₂ (Moves requests sizes plan own) plan.entries plan.directions := by
  have hmoves (d : Direction) (hd : d ∈ plan.directions) :
      ∃ e, Moves requests sizes plan own e d := by
    obtain ⟨hsettings, s, hsingle⟩ := single_of_uniform h huniform hd
    refine ⟨(s.wrt, s.index), by rw [Direction.entries, hsingle]; rfl,
      by rw [Direction.perturbed, hsingle]; rfl, hsettings, fun r => ?_⟩
    rw [mem_requests_iff h hd hsingle hsettings]
    constructor
    · rintro ⟨q, cols, hq, hwrt, -, hcols, hmem⟩
      exact ⟨q, hq, hwrt, cols, hcols, hmem⟩
    · rintro ⟨q, hq, hwrt, cols, hcols, hmem⟩
      refine ⟨q, cols, hq, hwrt, ?_, hcols, hmem⟩
      rw [huniform.settings q (List.mem_of_getElem? hq)]
      exact Settings.beq_self_of_validate huniform.valid
  unfold entries
  generalize plan.directions = ds at hmoves
  induction ds with
  | nil => exact .nil
  | cons d rest ih =>
    obtain ⟨e, hd⟩ := hmoves d List.mem_cons_self
    rw [List.flatMap_cons, hd.entries]
    exact .cons hd (ih fun d hd => hmoves d (List.mem_cons_of_mem _ hd))

end Plan

namespace Scheme

variable {T : Target R σ} {w : Session R σ} {c : CachedPlan R} {own : Settings R}

/-- The components that run for the directions of a plan. -/
theorem Planned.forall₂_active {s : Scheme R} {t : σ} (h : Planned T s t c) :
    ∃ u, List.Forall₂ (fun d active => s.activeSet (T.graph u) d = .ok active)
      c.plan.directions c.active := by
  obtain ⟨u, hu⟩ := h.made
  obtain ⟨plan, -, hu⟩ := Except.bind_eq_ok.1 hu
  obtain ⟨actives, hactives, hu⟩ := Except.bind_eq_ok.1 hu
  rw [← Except.ok.inj hu]
  exact ⟨u, Except.mapM_eq_ok.1 hactives⟩

/-- The evaluations along a direction that perturbs one entry, by the settings that are used. -/
def trialsAlong (used : Settings R) (d : (String × Nat) × ActiveSet) : List Trial :=
  List.replicate (pointCount used) ⟨[d.1], d.2, arithmetic used⟩

/-- The evaluations along directions that perturb one entry each, all with the same settings. -/
theorem flatMap_plannedFor {requests : List (Request R)} {es : List (String × Nat)}
    (hmoves : List.Forall₂ (Plan.Moves requests c.sizes c.plan own) es c.plan.directions)
    (hlength : c.plan.directions.length = c.active.length) (t : σ) :
    c.plan.directions.zipIdx.flatMap (plannedFor T t c) =
      (es.zip c.active).flatMap (trialsAlong (settingsAt T t own)) := by
  have hmap : c.plan.directions.zipIdx.map (plannedFor T t c) =
      (es.zip c.active).map (trialsAlong (settingsAt T t own)) := by
    refine List.ext_getElem (by simp [hmoves.length_eq, hlength]) fun i hi hi' => ?_
    have hd : i < c.plan.directions.length := by simpa using hi
    have hmove := hmoves.get (hmoves.length_eq ▸ hd) hd
    rw [List.getElem_map, List.getElem_map, List.getElem_zipIdx, List.getElem_zip, plannedFor]
    simp only [Nat.zero_add, List.get_eq_getElem] at hmove ⊢
    rw [hmove.settings, List.getElem?_eq_getElem (hlength ▸ hd), hmove.entries]
    rfl
  rw [List.flatMap_def, hmap, List.flatMap_def]

variable [LawfulScalar R]

/-- The directions for uniform requests with the components that run for them. -/
theorem forall₂_moves_of_uniform {s : Scheme R} {t : σ} (h : Planned T s t c)
    (huniform : Request.Uniform s.requests own) :
    ∃ u, List.Forall₂ (fun e active => ∃ d, Plan.Moves s.requests c.sizes c.plan own e d ∧
      s.activeSet (T.graph u) d = .ok active) c.plan.entries c.active := by
  obtain ⟨u, hactive⟩ := h.forall₂_active
  have hmoves := Plan.forall₂_moves h.build huniform
  exact ⟨u, List.forall₂_iff_get.2 ⟨hmoves.length_eq.trans hactive.length_eq, fun i hi hi' =>
    ⟨_, hmoves.get hi (hactive.length_eq ▸ hi'), hactive.get _ hi'⟩⟩⟩

/-- **The evaluations for uniform requests**: as many along the direction of each selected entry. -/
theorem plannedEvaluations_of_uniform (hw : w.scheme.Current T)
    (huniform : Request.Uniform w.scheme.requests own) {v : Session R σ}
    (h : (takePlan T).perform w = (.ok c, v)) :
    plannedEvaluations T w =
      (c.plan.entries.zip c.active).flatMap (trialsAlong (settingsAt T w.target own)) := by
  have hplanned := planned_of_takePlan hw h
  obtain ⟨u, hactive⟩ := hplanned.forall₂_active
  simp only [plannedEvaluations, h]
  exact flatMap_plannedFor (Plan.forall₂_moves hplanned.build huniform) hactive.length_eq w.target

end Scheme

end Sensitivity
