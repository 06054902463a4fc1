import Sensitivity.Proofs.Approximation.Uniform
import Sensitivity.Proofs.Model.TotalBlocks

/-!
# The directions of total derivatives

A root that approximates total derivatives asks for a block for each pair of names, in the names of the
variables that stand for them. All its requests have the settings of the root and none has a pattern,
so they are uniform. Names that stand for the same variable, and entries that are listed repeatedly,
take no further directions: there is one for each entry that is selected of some variable
(`Model.Consistent.totalDirections_of_planned`). Along it the components run that lead from this
variable to those that stand for the responses.
-/

namespace Sensitivity

variable {R M : Type}

namespace Model

variable {m : Model R M} {of wrt : List (DriverVariable R)} {own : Settings R}
  {requests : List (Request R)}

/-- A driver variable selects an entry of the variable that stands for it. -/
def Selects (m : Model R M) (wrt : List (DriverVariable R)) (e : String × Nat) : Prop :=
  ∃ w ∈ wrt, m.standsFor w.name = some e.1 ∧ ∃ entries, m.selection w = .ok entries ∧ e.2 ∈ entries

/-- The components that run when an entry is perturbed: those that lead from its variable to the
variables that stand for the responses. -/
def RunsFor (m : Model R M) (of : List (DriverVariable R)) (e : String × Nat) (active : ActiveSet) :
    Prop :=
  ∃ names, (∀ name, name ∈ names ↔ ∃ o ∈ of, m.standsFor o.name = some name) ∧
    m.graph.activeComponents? [e.1] names = some active

/-- The directions of total derivatives: each selected entry once, with the components that run along
its direction. -/
structure TotalDirections (m : Model R M) (of wrt : List (DriverVariable R))
    (directions : List ((String × Nat) × ActiveSet)) : Prop where
  nodup : (directions.map Prod.fst).Nodup
  mem_iff : ∀ e, e ∈ directions.map Prod.fst ↔ m.Selects wrt e
  runsFor : ∀ d ∈ directions, m.RunsFor of d.1 d.2

/-- A request for the entries that a pair selects, in the names of the variables that stand for it. -/
def AsksFor (m : Model R M) (own : Settings R) (p : DriverVariable R × DriverVariable R)
    (q : Request R) : Prop :=
  ∃ o w, m.effectiveVariable p.1.name = .ok o ∧ m.effectiveVariable p.2.name = .ok w ∧
    q = { Request.whole o.name w.name own with ofEntries := p.1.entries, wrtEntries := p.2.entries }

section Requests

variable (h : m.totalRequests of wrt own = .ok requests)

include h

theorem exists_request_of_totalRequests {o w : DriverVariable R} (ho : o ∈ of) (hw : w ∈ wrt) :
    ∃ q ∈ requests, m.AsksFor own (o, w) q :=
  exists_of_forall₂ (forall₂_of_totalRequests h).flip (mem_pairs (p := (o, w)).2 ⟨ho, hw⟩)

/-- **The requests for total derivatives are uniform.** -/
theorem uniform_of_totalRequests [Scalar R] (hvalid : own.validate = .ok ()) :
    Request.Uniform requests own where
  valid := hvalid
  settings q hq := by
    obtain ⟨o, -, w, -, _, _, -, -, rfl⟩ := (mem_totalRequests h).1 hq
    rfl
  pattern q hq := by
    obtain ⟨o, -, w, -, _, _, -, -, rfl⟩ := (mem_totalRequests h).1 hq
    rfl

end Requests

section Planned

variable [Scalar R] [DirectSolver R] {g : Group R M}

/-- The columns of a request are the entries that its driver variable selects. -/
theorem Consistent.selection_of_asksFor (hm : m.Consistent g) {body : Schedule R} {x : ModelGroup R}
    {a : Scheme R} {s : ModelState R M} {c : CachedPlan R}
    (hc : Scheme.Planned (m.groupTarget x body) a s c) {p : DriverVariable R × DriverVariable R}
    {q : Request R} (hq : m.AsksFor own p q) {cols : List Nat} (hcols : q.cols c.sizes = .ok cols) :
    m.selection p.2 = .ok cols := by
  obtain ⟨o, w, -, hw, rfl⟩ := hq
  obtain ⟨sizes, hsizes, hsame⟩ := hc.sizes
  exact hm.selection_of_select hw
    (fun n hn => hm.size_of_sizes hsizes hw ((hsame _).symm.trans hn)) hcols

variable [LawfulScalar R] {a : Scheme R} {s : ModelState R M} {c : CachedPlan R}

/-- **The entries that a plan for total derivatives perturbs** are the selected ones. -/
theorem Consistent.mem_entries_iff (hm : m.Consistent g) (hof : of ≠ [])
    (h : m.totalRequests of wrt own = .ok a.requests)
    (hc : Scheme.Planned (m.groupTarget m.root m.schedule) a s c) {e : String × Nat} :
    e ∈ c.plan.entries ↔ m.Selects wrt e := by
  rw [Plan.mem_entries_iff hc.build]
  constructor
  · rintro ⟨q, hq, hwrt, cols, hcols, hmem⟩
    obtain ⟨o, -, w, hw, hasks⟩ : ∃ o ∈ of, ∃ w ∈ wrt, m.AsksFor own (o, w) q :=
      (mem_totalRequests h).1 hq
    refine ⟨w, hw, ?_, cols, hm.selection_of_asksFor hc hasks hcols, hmem⟩
    obtain ⟨_, u, -, hu, rfl⟩ := hasks
    exact (standsFor_eq hu).trans (congrArg some hwrt)
  · rintro ⟨w, hw, hname, entries, hentries, hmem⟩
    obtain ⟨o, ho⟩ := List.exists_mem_of_ne_nil _ hof
    obtain ⟨q, hq, hasks⟩ := exists_request_of_totalRequests h ho hw
    obtain ⟨r, hr⟩ := List.mem_iff_getElem?.1 hq
    obtain ⟨cols, hcols, -⟩ := (Plan.covers_of_build hc.build).count_column r q hr
    obtain rfl := Except.ok.inj (hentries.symm.trans (hm.selection_of_asksFor hc hasks hcols))
    refine ⟨q, hq, ?_, _, hcols, hmem⟩
    obtain ⟨_, u, -, hu, rfl⟩ := hasks
    exact Option.some.inj ((standsFor_eq hu).symm.trans hname)

omit [LawfulScalar R] [DirectSolver R] [Scalar R] in
/-- **A direction shows in all responses**: it serves a request for each of them. -/
theorem mem_ofNames_of_moves (h : m.totalRequests of wrt own = .ok a.requests) {sizes : Sizes}
    {plan : Plan R} {e : String × Nat} {d : Direction}
    (hd : Plan.Moves a.requests sizes plan own e d)
    (hselected : ∃ q ∈ a.requests, Plan.Selects sizes q e) {name : String} :
    name ∈ a.ofNames d.requests ↔ ∃ o ∈ of, m.standsFor o.name = some name := by
  simp only [Scheme.ofNames, List.mem_eraseDups, List.mem_filterMap, Option.map_eq_some_iff,
    hd.requests]
  constructor
  · rintro ⟨r, -, q, hq, rfl⟩
    obtain ⟨o, ho, w, -, v, _, hv, -, rfl⟩ := (mem_totalRequests h).1 (List.mem_of_getElem? hq)
    exact ⟨o, ho, standsFor_eq hv⟩
  · rintro ⟨o, ho, hname⟩
    obtain ⟨q, hq, hwrt, cols, hcols, hmem⟩ := hselected
    obtain ⟨_, -, w, hw, _, u, -, hu, rfl⟩ := (mem_totalRequests h).1 hq
    -- the request of the response by the same driver variable has the same columns
    obtain ⟨q, hq, v, u', hv, hu', rfl⟩ := exists_request_of_totalRequests h ho hw
    obtain rfl := Except.ok.inj (hu.symm.trans hu')
    obtain ⟨r, hr⟩ := List.mem_iff_getElem?.1 hq
    exact ⟨r, ⟨_, hr, hwrt, cols, hcols, hmem⟩, _, hr,
      Option.some.inj ((standsFor_eq hv).symm.trans hname)⟩

/-- **Total derivatives take one direction for each selected entry.** -/
theorem Consistent.totalDirections_of_planned (hm : m.Consistent g) (hof : of ≠ [])
    (hvalid : own.validate = .ok ()) (h : m.totalRequests of wrt own = .ok a.requests)
    (hc : Scheme.Planned (m.groupTarget m.root m.schedule) a s c) :
    m.TotalDirections of wrt (c.plan.entries.zip c.active) := by
  have huniform := uniform_of_totalRequests h hvalid
  obtain ⟨u, hactive⟩ := Scheme.forall₂_moves_of_uniform hc huniform
  have hentries : (c.plan.entries.zip c.active).map Prod.fst = c.plan.entries :=
    List.map_fst_zip hactive.length_eq.le
  refine ⟨by rw [hentries]; exact Plan.nodup_entries hc.build huniform,
    fun e => by rw [hentries]; exact hm.mem_entries_iff hof h hc, fun (e, active) hmem => ?_⟩
  obtain ⟨d, hd, hactive⟩ := (List.forall₂_iff_zip.1 hactive).2 hmem
  have hselected := (Plan.mem_entries_iff hc.build).1 (List.of_mem_zip hmem).1
  refine ⟨_, fun name => mem_ofNames_of_moves h hd hselected, ?_⟩
  rw [← hd.perturbed]
  exact (Outcome.ofOption_eq_ok _ _).1 hactive

end Planned

end Model

end Sensitivity
