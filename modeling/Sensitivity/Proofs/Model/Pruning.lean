import Sensitivity.Proofs.Model.Running

/-!
# Leaving irrelevant components out

A run of the whole model and one that leaves out the components which are not active for some
perturbed and some requested variables start from the same state, where variables were moved away
from a settled one. They keep in step (`Model.Lockstep`): neither moves a variable that no perturbed
one leads to, and they agree on every variable that leads to a requested one. A component that runs
in both keeps this as far as its outputs follow the edges of the graph (`Model.Lockstep.both`). A
component that is left out reads no moved input on the way to a requested output, and computes none
such, so that what only the full run does to it is not seen (`Model.Lockstep.full`). Neither the
order of the components nor the inputs that the shorter run leaves stale matter.

So requested outputs have the same values after both runs (`Model.values_eq_of_pruned`).
-/

namespace Sensitivity

variable {R M : Type}

namespace Model

section Closures

variable (m : Model R M)

/-- Variables that some of `P` lead to. -/
def Reached (P : Nat → Prop) (id : Nat) : Prop := ∃ u, P u ∧ m.graph.Path u id

/-- Variables that lead to some of `Q`. -/
def Reaching (Q : Nat → Prop) (id : Nat) : Prop := ∃ u, Q u ∧ m.graph.Path id u

/-- Variables that keep a value that is added to them: inputs without a source, and outputs that
their component holds. -/
def Settable (id : Nat) : Prop :=
  ∃ v, m.variableAt? id = some v ∧ match v.kind with
    | .input => m.source? id = none
    | .output => ∃ c, m.components[v.owner]? = some c ∧ c.component.Holds

variable {m} {P Q : Nat → Prop} {e : Nat × Nat} (he : e ∈ m.graph.edges)

include he

theorem not_reached_of_edge (h : ¬ m.Reached P e.2) : ¬ m.Reached P e.1 :=
  fun ⟨u, hu, hpath⟩ => h ⟨u, hu, hpath.tail he⟩

theorem reaching_of_edge (h : m.Reaching Q e.2) : m.Reaching Q e.1 := by
  obtain ⟨u, hu, hpath⟩ := h
  exact ⟨u, hu, .head he hpath⟩

end Closures

/-- What holds between a run that leaves components out and one that does not, both begun where the
variables of `P` were moved away from a settled state: each run is where the settled state is at
whatever `P` does not lead to, and both agree on whatever leads to `Q`. -/
structure Lockstep (m : Model R M) (settled : ModelState R M) (P Q : Nat → Prop)
    (pruned full : ModelState R M) : Prop where
  fits_pruned : m.Fits pruned
  fits_full : m.Fits full
  nominal_pruned : ∀ id, ¬ m.Reached P id → m.Agree pruned settled id
  nominal_full : ∀ id, ¬ m.Reached P id → m.Agree full settled id
  agree : ∀ id, m.Reaching Q id → m.Agree pruned full id

section Steps

variable {m : Model R M} {settled p p' a a' : ModelState R M} {P Q : Nat → Prop} {k : Nat}
  {c : ModelComponent R M} (hm : m.Laid) (hsettled : m.Settled settled)
  (hc : m.components[k]? = some c) (hcomponent : c.component.Holds ∨ c.component.Functional)

include hm hsettled hc hcomponent

/-- A component that runs in both. -/
theorem Lockstep.both (h : m.Lockstep settled P Q p a) (hp : m.Ran c p p') (ha : m.Ran c a a') :
    m.Lockstep settled P Q p' a' := by
  have hran := hsettled.ran hm (List.mem_of_getElem? hc)
  refine ⟨hp.fits hm h.fits_pruned, ha.fits hm h.fits_full, ?_, ?_, ?_⟩
  · exact hp.agree hm hc hcomponent (fun _ => not_reached_of_edge) h.fits_pruned hsettled.fits hran
      h.nominal_pruned
  · exact ha.agree hm hc hcomponent (fun _ => not_reached_of_edge) h.fits_full hsettled.fits hran
      h.nominal_full
  · exact hp.agree hm hc hcomponent (fun _ => reaching_of_edge) h.fits_pruned h.fits_full ha h.agree

/-- **A component that is left out**, since it has no dependency on the way from `P` to `Q`. -/
theorem Lockstep.full (hP : ∀ id, P id → m.Settable id)
    (hQ : ∀ id v, Q id → m.variableAt? id = some v → v.kind = .output)
    (hirrelevant : ∀ n, m.graph.components[k]? = some n → ∀ e ∈ n.edges, m.Reached P e.1 →
      ¬ m.Reaching Q e.2)
    (h : m.Lockstep settled P Q p a) (ha : m.Ran c a a') : m.Lockstep settled P Q p a' := by
  have hran := hsettled.ran hm (List.mem_of_getElem? hc)
  have hnominal := ha.agree hm hc hcomponent (K := fun id => ¬ m.Reached P id)
    (fun _ => not_reached_of_edge) h.fits_full hsettled.fits hran h.nominal_full
  refine ⟨h.fits_pruned, ha.fits hm h.fits_full, h.nominal_pruned, hnominal, fun id hid => ?_⟩
  by_cases hreached : m.Reached P id
  swap
  · exact (h.nominal_pruned id hreached).trans (hnominal id hreached).symm
  -- a moved variable on the way to `Q`: the component does not write it
  intro v hv
  refine (h.agree id hid).trans (Agree.symm ?_) v hv
  by_cases howner : v.owner = k
  swap
  · exact ha.agree_of_ne hm hc hv howner
  subst howner
  cases hkind : v.kind with
  | input =>
    obtain ⟨u, hu, hpath⟩ := hid
    rcases hpath.cases_head with rfl | ⟨x, hedge, hpath⟩
    · rw [hQ id v hu hv] at hkind
      cases hkind
    · obtain ⟨n, hn, he⟩ := hm.mem_edges_of_input (e := (id, x)) hedge hv hkind
      exact absurd ⟨u, hu, hpath⟩ (hirrelevant n hn _ he hreached)
  | output =>
    obtain ⟨u, hu, hpath⟩ := hreached
    rcases hpath.cases_tail with rfl | ⟨x, hpath, hedge⟩
    · obtain ⟨w, hw, hsettable⟩ := hP _ hu
      obtain rfl := Option.some.inj (hv.symm.trans hw)
      rw [hkind] at hsettable
      obtain ⟨c', hc', hholds⟩ := hsettable
      obtain rfl := Option.some.inj (hc.symm.trans hc')
      exact ha.agree_of_holds hholds hv hkind
    · obtain ⟨n, hn, he⟩ := hm.mem_edges_of_output (e := (x, id)) hedge hv hkind
      exact absurd hid (hirrelevant n hn _ he ⟨u, hu, hpath⟩)

end Steps

section Runs

variable [Scalar R] [DirectSolver R] {m : Model R M} {settled : ModelState R M} {P Q : Nat → Prop}
  {active : ActiveSet}

theorem runSchedule_group {g : ModelGroup R} (h : g.solver = .runOnce) (active : ActiveSet)
    (mode : Mode) (scope : Span) (body rest : Schedule R) :
    m.runSchedule active mode scope (.group g body rest) =
      m.runSchedule active mode scope body >>= fun _ => m.runSchedule active mode scope rest := by
  rw [runSchedule, h]

/-- **A run that leaves components out keeps in step with one that does not.** -/
theorem Lockstep.runSchedule (hm : m.Laid) (hsettled : m.Settled settled)
    (hcomponents : ∀ c ∈ m.components, c.component.Holds ∨ c.component.Functional)
    (hP : ∀ id, P id → m.Settable id)
    (hQ : ∀ id v, Q id → m.variableAt? id = some v → v.kind = .output)
    (hactive : ∀ (k : Nat) n, m.graph.components[k]? = some n → (∃ e ∈ n.edges,
      m.Reached P e.1 ∧ m.Reaching Q e.2) → active.contains k = true)
    {schedule : Schedule R} (honce : ∀ g ∈ schedule.groups, g.1.solver = .runOnce)
    {p a p' a' : ModelState R M} (h : m.Lockstep settled P Q p a)
    (hp : (m.runSchedule active .real m.root.components schedule).perform p = (.ok (), p'))
    (ha : (m.runSchedule .all .real m.root.components schedule).perform a = (.ok (), a')) :
    m.Lockstep settled P Q p' a' := by
  induction schedule generalizing p a p' a' with
  | done =>
    cases hp
    cases ha
    exact h
  | component k rest ih =>
    obtain ⟨p₁, hp, hpk⟩ := exists_ran_of_perform hm h.fits_pruned hp
    obtain ⟨a₁, ha, hak⟩ := exists_ran_of_perform hm h.fits_full ha
    obtain ⟨c, hc, hak⟩ : ∃ c, m.components[k]? = some c ∧ m.Ran c a a₁ := by
      have hall : ActiveSet.all.contains k = true := rfl
      rwa [if_pos hall] at hak
    have hcomponent := hcomponents c (List.mem_of_getElem? hc)
    refine ih honce ?_ hp ha
    split at hpk
    · obtain ⟨c', hc', hpk⟩ := hpk
      obtain rfl := Option.some.inj (hc.symm.trans hc')
      exact h.both hm hsettled hc hcomponent hpk hak
    · rename_i hpassed
      subst hpk
      refine h.full hm hsettled hc hcomponent hP hQ (fun n hn e he hreached hreaching => ?_) hak
      exact hpassed (hactive k n hn ⟨e, he, hreached, hreaching⟩)
  | group g body rest ihbody ihrest =>
    have hg : g.solver = .runOnce := honce (g, body) List.mem_cons_self
    rw [runSchedule_group hg] at hp ha
    obtain ⟨_, p₁, hpbody, hp⟩ := Action.bind_eq_ok.1 hp
    obtain ⟨_, a₁, habody, ha⟩ := Action.bind_eq_ok.1 ha
    have hbody (x : ModelGroup R × Schedule R) (hx : x ∈ body.groups) : x.1.solver = .runOnce :=
      honce x (List.mem_cons_of_mem _ (List.mem_append_left _ hx))
    have hrest (x : ModelGroup R × Schedule R) (hx : x ∈ rest.groups) : x.1.solver = .runOnce :=
      honce x (List.mem_cons_of_mem _ (List.mem_append_right _ hx))
    exact ihrest hrest (ihbody hbody h hpbody habody) hp ha

end Runs

section Moves

variable [Scalar R] {m : Model R M} {s s' : ModelState R M}

/-- A perturbation of an entry of a variable that keeps it. -/
def Movable (m : Model R M) (p : Perturbation R) : Prop :=
  ∃ id v, m.variableTable.indexOf? p.name = some id ∧ m.variableAt? id = some v ∧
    p.index < v.size ∧ m.Settable id

/-- The variables that some perturbations name. -/
def MovedBy (m : Model R M) (moves : List (Perturbation R)) (id : Nat) : Prop :=
  ∃ p ∈ moves, m.variableTable.indexOf? p.name = some id

omit [Scalar R] in
theorem settable_of_movedBy {moves : List (Perturbation R)} (h : ∀ p ∈ moves, m.Movable p) {id : Nat}
    (hid : m.MovedBy moves id) : m.Settable id := by
  obtain ⟨p, hp, hid⟩ := hid
  obtain ⟨id', _, hid', -, -, hsettable⟩ := h p hp
  obtain rfl := Option.some.inj (hid.symm.trans hid')
  exact hsettable

/-- Adding to an entry of a variable changes no other variable. -/
theorem Laid.agree_of_perturb (hm : m.Laid) (hs : m.Fits s) {label : String} {p : Perturbation R}
    {id : Nat} {v : ModelVariable R} (hid : m.variableTable.indexOf? p.name = some id)
    (hv : m.variableAt? id = some v) (hindex : p.index < v.size)
    (h : (m.perturb label p.name p.index (.real p.step)).perform s = (.ok (), s')) :
    m.Fits s' ∧ ∀ other, other ≠ id → m.Agree s' s other := by
  unfold perturb at h
  rw [Action.perform_get_bind, Action.ofOutcome_bind_eq_ok] at h
  obtain ⟨found, hfound, h⟩ := h
  rw [Action.ofOutcome_bind_eq_ok] at h
  obtain ⟨w, hw, h⟩ := h
  cases h
  rw [locate, Outcome.expect_eq_ok] at hfound
  obtain rfl : v = found := Option.some.inj
    (hv.symm.trans (Table.getElem?_values_of_indexOf? hid hfound))
  simp only [StateVector.perturb, Outcome.ofOption_eq_ok, StateVector.addReal?,
    Option.ite_none_right_eq_some, Option.some.injEq] at hw
  obtain ⟨-, rfl⟩ := hw
  have hsame (kind : VariableKind) (hkind : kind ≠ v.kind) (w : StateVector R) :
      (s.setVector v.kind w).vector kind = s.vector kind := by
    cases kind <;> cases hv : v.kind <;> simp_all [ModelState.setVector, ModelState.vector]
  have hmoved (w : StateVector R) : (s.setVector v.kind w).vector v.kind = w := by
    cases v.kind <;> rfl
  refine ⟨fun kind => ?_, fun other hne x hx => ?_⟩
  · by_cases hkind : kind = v.kind
    · subst hkind
      rw [hmoved]
      exact Array.size_modify.trans (hs v.kind)
    · rw [hsame kind hkind]
      exact hs kind
  · by_cases hkind : x.kind = v.kind
    · have hcontains : v.span.contains (v.start + p.index) = true :=
        Span.contains_iff.2 ⟨Nat.le_add_right _ _, Nat.add_lt_add_left hindex _⟩
      have hnot := hm.apart hv hx (Ne.symm hne) hkind.symm _ hcontains
      rw [hkind, hmoved]
      exact Span.slice_modify_of_not_contains hnot (· + p.step)
    · rw [hsame x.kind hkind]

/-- Moves change only the variables that they name. -/
theorem Laid.agree_of_moves (hm : m.Laid) (hs : m.Fits s) {label : String}
    {moves : List (Perturbation R)} (hmoves : ∀ p ∈ moves, m.Movable p)
    (h : (Action.forEach moves fun p => m.perturb label p.name p.index (.real p.step)).perform s =
      (.ok (), s')) :
    m.Fits s' ∧ ∀ id, ¬ m.MovedBy moves id → m.Agree s' s id := by
  induction moves generalizing s with
  | nil =>
    cases h
    exact ⟨hs, fun _ _ _ _ => rfl⟩
  | cons p rest ih =>
    obtain ⟨_, t, hp, hrest⟩ := Action.bind_eq_ok.1 h
    obtain ⟨id, v, hid, hv, hindex, -⟩ := hmoves p List.mem_cons_self
    obtain ⟨ht, hagree⟩ := hm.agree_of_perturb hs hid hv hindex hp
    obtain ⟨hs', hlater⟩ := ih ht (fun q hq => hmoves q (List.mem_cons_of_mem _ hq)) hrest
    refine ⟨hs', fun other hother => ?_⟩
    have hne : other ≠ id := by
      rintro rfl
      exact hother ⟨p, List.mem_cons_self, hid⟩
    have hnot : ¬ m.MovedBy rest other :=
      fun ⟨q, hq, hindex⟩ => hother ⟨q, List.mem_cons_of_mem _ hq, hindex⟩
    exact (hlater other hnot).trans (hagree other hne)

/-- **Both runs begin in step**: moves change only variables that they lead to. -/
theorem Lockstep.start (hm : m.Laid) (hs : m.Settled s) {label : String}
    {moves : List (Perturbation R)} (hmoves : ∀ p ∈ moves, m.Movable p)
    (h : (Action.forEach moves fun p => m.perturb label p.name p.index (.real p.step)).perform s =
      (.ok (), s')) (Q : Nat → Prop) : m.Lockstep s (m.MovedBy moves) Q s' s' := by
  obtain ⟨hfits, hagree⟩ := hm.agree_of_moves hs.fits hmoves h
  have hnominal (id : Nat) (hid : ¬ m.Reached (m.MovedBy moves) id) : m.Agree s' s id :=
    hagree id fun hmoved => hid ⟨id, hmoved, .refl⟩
  exact ⟨hfits, hfits, hnominal, hnominal, fun _ _ _ _ => rfl⟩

end Moves

section Requested

variable [Scalar R] [DirectSolver R] {g : Group R M} {settings : SetupSettings} {m : Model R M}

/-- An evaluation of a group that runs once runs its schedule. -/
theorem perform_evaluate_group {x : ModelGroup R} {body : Schedule R} (hx : x.solver = .runOnce)
    {active : ActiveSet} {mode : Mode} {s s' : ModelState R M}
    (h : ((m.groupTarget x body).evaluate active mode).perform s = (.ok (), s')) :
    (m.runSchedule active mode x.components body).perform s = (.ok (), s') := by
  simp only [groupTarget, Action.perform_mapError, Prod.mk.injEq, Outcome.mapError_eq_ok] at h
  obtain ⟨hok, hstate⟩ := h
  have hrun : (m.solveGroup x body active mode x.components).perform s = (.ok (), s') :=
    Prod.ext hok hstate
  rw [solveGroup, runSchedule_group hx] at hrun
  obtain ⟨_, t, hschedule, hdone⟩ := Action.bind_eq_ok.1 hrun
  cases hdone
  exact hschedule

/-- States that agree on a variable give it the same values. -/
theorem values_eq_of_agree {s t : ModelState R M} {name : String}
    (h : ∀ id, m.variableTable.indexOf? name = some id → m.Agree s t id) :
    (m.groupTarget m.root m.schedule).values s name .real =
      (m.groupTarget m.root m.schedule).values t name .real := by
  cases hv : m.variableTable.get? name with
  | none => simp only [groupTarget, locate, hv]; rfl
  | some v =>
    obtain ⟨id, hid, hv'⟩ := Table.get?_eq_some_iff_indexOf?.1 hv
    have hread := h id hid v hv'
    have hvalues (u : ModelState R M) : (m.groupTarget m.root m.schedule).values u name .real =
        .ok ((u.vector v.kind).readReal v.span).toList := by
      simp only [groupTarget, locate, hv]
      rfl
    rw [hvalues, hvalues, hread]

/-- **Leaving irrelevant components out never changes a requested output.** In a model whose groups
all run once, and whose components hold their outputs or compute them as they declare, real
perturbations of some variables lead from a settled state to one where an evaluation of the
components that are active for these variables and an evaluation of all components give every
requested output the same value, if both succeed. -/
theorem values_eq_of_pruned (h : ofGroup g settings = .ok m)
    (honce : ∀ x ∈ m.groups, x.1.solver = .runOnce)
    (hcomponents : ∀ c ∈ g.members.components, c.Holds ∨ c.Functional)
    {settled moved : ModelState R M} (hsettled : m.Settled settled)
    {moves : List (Perturbation R)} (hmoves : ∀ p ∈ moves, m.Movable p)
    (hmoved : (Action.forEach moves fun p => (m.groupTarget m.root m.schedule).perturb p.name p.index
      (.real p.step)).perform settled = (.ok (), moved))
    {perturbed requested : List String} (hperturbed : ∀ p ∈ moves, p.name ∈ perturbed)
    (hrequested : ∀ name ∈ requested, ∀ v, m.variableTable.get? name = some v → v.kind = .output) :
    ∃ active, m.graph.activeComponents? perturbed requested = some active ∧
      ∀ pruned full,
        ((m.groupTarget m.root m.schedule).evaluate active .real).perform moved =
          (.ok (), pruned) →
        ((m.groupTarget m.root m.schedule).evaluate .all .real).perform moved = (.ok (), full) →
        ∀ name ∈ requested, (m.groupTarget m.root m.schedule).values pruned name .real =
          (m.groupTarget m.root m.schedule).values full name .real := by
  have hm := laid_of_ofGroup h
  have hall (hunknown : perturbed.mapM m.graph.node? = none ∨ requested.mapM m.graph.node? = none) :=
    DependencyGraph.activeComponents?_of_unknown hunknown
  have hsame (pruned full : ModelState R M)
      (hp : ((m.groupTarget m.root m.schedule).evaluate .all .real).perform moved =
        (.ok (), pruned))
      (ha : ((m.groupTarget m.root m.schedule).evaluate .all .real).perform moved =
        (.ok (), full)) (name : String) (_ : name ∈ requested) :
      (m.groupTarget m.root m.schedule).values pruned name .real =
        (m.groupTarget m.root m.schedule).values full name .real := by
    rw [hp] at ha
    cases ha
    rfl
  rcases hseeds : perturbed.mapM m.graph.node? with _ | seeds
  · exact ⟨.all, hall (.inl hseeds), hsame⟩
  rcases htargets : requested.mapM m.graph.node? with _ | targets
  · exact ⟨.all, hall (.inr htargets), hsame⟩
  obtain ⟨found, hfound, hspec⟩ :=
    DependencyGraph.activeComponents?_spec hm.complete hseeds htargets
  refine ⟨.only found, hfound, fun pruned full hp ha name hname => ?_⟩
  have htarget (id : Nat) (v : ModelVariable R) (hid : id ∈ targets)
      (hv : m.variableAt? id = some v) : v.kind = .output := by
    obtain ⟨name, hname, hindex⟩ := (Option.mem_mapM htargets).1 hid
    rw [hm.node?_eq] at hindex
    exact hrequested name hname v (Table.get?_eq_some_iff_indexOf?.2 ⟨id, hindex, hv⟩)
  have hactive (k : Nat) (n : ComponentNode) (hn : m.graph.components[k]? = some n)
      (he : ∃ e ∈ n.edges, m.Reached (m.MovedBy moves) e.1 ∧ m.Reaching (· ∈ targets) e.2) :
      (ActiveSet.only found).contains k = true := by
    obtain ⟨e, he, ⟨u, ⟨p, hpmem, hindex⟩, hbelow⟩, habove⟩ := he
    have hu := (Option.mem_mapM hseeds).2
      ⟨p.name, hperturbed p hpmem, (hm.node?_eq p.name).trans hindex⟩
    exact List.contains_iff_mem.2 ((hspec k).2 ⟨n, hn, e, he, ⟨u, hu, hbelow⟩, habove⟩)
  have hmember (c : ModelComponent R M) (hc : c ∈ m.components) :
      c.component.Holds ∨ c.component.Functional := by
    refine hcomponents c.component ?_
    rw [← components_of_ofGroup h]
    exact List.mem_map_of_mem hc
  have hroot : m.root.solver = .runOnce := honce (m.root, m.schedule) List.mem_cons_self
  have hend := (Lockstep.start hm hsettled hmoves hmoved (· ∈ targets)).runSchedule hm hsettled
    hmember (fun _ => settable_of_movedBy hmoves) htarget hactive
    (fun x hx => honce x (List.mem_cons_of_mem _ hx)) (perform_evaluate_group hroot hp)
    (perform_evaluate_group hroot ha)
  refine values_eq_of_agree fun id hid => hend.agree id ?_
  exact ⟨id, (Option.mem_mapM htargets).2 ⟨name, hname, (hm.node?_eq name).trans hid⟩, .refl⟩

end Requested

section Fan

/-- The variables of a component that doubles its input, which starts with the value `v`. -/
def doublingDeclarations (v : Float) : Declarations Float :=
  { (∅ : Declarations Float) with
    inputs := .ofList [("x", .scalar v)], outputs := .ofList [("y", .scalar (2.0 * v))] }

/-- A component that doubles its input. -/
def doubling (v : Float) : Component Float Unit where
  declarations := .ok (doublingDeclarations v)
  memory := ()
  computeReal x _ := pure (x.map (2.0 * ·))
  computeComplex _ y := pure y
  computePartials _ := pure ()
  complexSafe := false

theorem functional_doubling (v : Float) : (doubling v).Functional := by
  intro d partials hd hpartials
  cases hd
  cases hpartials
  have hinputs : (Layout.spans (doublingDeclarations v).inputs).entries = [("x", ⟨0, 1⟩)] := rfl
  have houtputs : (Layout.spans (doublingDeclarations v).outputs).entries = [("y", ⟨0, 1⟩)] := rfl
  refine ⟨fun hx _ hz => ?_, fun {x x'} _ _ _ _ _ _ _ _ hx hx' _ _ hz hz' of own hof hagree => ?_⟩
  · cases hz
    exact Array.size_map.trans hx
  · cases hz
    cases hz'
    have hx : (⟨0, 1⟩ : Span).slice x = (⟨0, 1⟩ : Span).slice x' := by
      refine hagree "x" _ ?_ (.inl rfl)
      rw [Table.get?_eq_some_iff, hinputs]
      exact List.mem_singleton.2 rfl
    rw [Table.get?_eq_some_iff, houtputs] at hof
    cases List.mem_singleton.1 hof
    rw [Span.slice_eq_iff] at hx ⊢
    intro i hi
    rw [Array.getElem?_map, Array.getElem?_map, hx i hi]

theorem perform_doubling (v x : Float) (y : Array Float) :
    ((doubling v).computeReal #[x] y).perform () = (.ok #[2.0 * x], ()) := by
  simp [doubling]

/-- A source of two values, each of them doubled by a component of an inner group. -/
def fan : Group Float Unit where
  settings := { GroupSettings.plain with
    connections := [("source.a", "sinks.left.x"), ("source.b", "sinks.right.x")] }
  members := .component "source" (.independent () [("a", .scalar 2.0), ("b", .scalar 3.0)]) <|
    .group "sinks" .plain (.component "left" (doubling 2.0) <|
      .component "right" (doubling 3.0) .empty) .empty

theorem isSome_fan : (ofGroup fan .standard).toOption.isSome = true := by decide +kernel

/-- Whether the members of a group run once. -/
def runsOnce : Solver Float → Bool
  | .runOnce => true
  | .newton _ => false

/-- The model of the fan. -/
def fanModel : Model Float Unit := (ofGroup fan .standard).toOption.get isSome_fan

theorem ofGroup_fan : ofGroup fan .standard = .ok fanModel :=
  Except.eq_ok_of_toOption (Option.some_get isSome_fan).symm

/-- The fan with every value up to date. -/
def fanState : ModelState Float Unit where
  inputs := .ofReal #[2.0, 3.0] false
  outputs := .ofReal #[2.0, 3.0, 2.0 * 2.0, 2.0 * 3.0] false
  residuals := .zeros 4 false
  stack := .empty
  diagnostics := .empty
  components := List.replicate 3 ⟨(), 0, ⟨∅⟩, []⟩
  schemes := [none, none]
  rootRequests := none

theorem fan_once : ∀ x ∈ fanModel.groups, x.1.solver = .runOnce := by
  have h : fanModel.groups.all (fun x => runsOnce x.1.solver) = true := by decide +kernel
  intro x hx
  have honce := List.all_eq_true.1 h x hx
  cases hsolver : x.1.solver with
  | runOnce => rfl
  | newton settings =>
    rw [hsolver] at honce
    cases honce

theorem fan_components : ∀ c ∈ fan.members.components, c.Holds ∨ c.Functional := by
  intro c hc
  rcases List.mem_cons.1 hc with rfl | hc
  · exact .inl (Component.holds_independent _ _)
  rcases List.mem_cons.1 hc with rfl | hc
  · exact .inr (functional_doubling _)
  · cases List.mem_singleton.1 hc
    exact .inr (functional_doubling _)

theorem settled_fan : fanModel.Settled fanState where
  fits kind := by cases kind <;> decide +kernel
  connected target source v w hsource hv hw := by
    have hsources : fanModel.sources = [none, none, some 0, none, some 1, none] := by
      decide +kernel
    have hspans : fanModel.variableTable.values.map (·.span) =
        [⟨0, 1⟩, ⟨1, 1⟩, ⟨0, 1⟩, ⟨2, 1⟩, ⟨1, 1⟩, ⟨3, 1⟩] := by decide +kernel
    have hspan (id : Nat) (x : ModelVariable Float) (hx : fanModel.variableAt? id = some x) :
        [⟨0, 1⟩, ⟨1, 1⟩, ⟨0, 1⟩, ⟨2, 1⟩, ⟨1, 1⟩, ⟨3, 1⟩][id]? = some x.span := by
      rw [← hspans, List.getElem?_map]
      exact congrArg (Option.map _) hx
    have hends : target = 2 ∧ source = 0 ∨ target = 4 ∧ source = 1 := by
      rw [source?, hsources] at hsource
      rcases target with _ | _ | _ | _ | _ | _ | target <;> simp at hsource ⊢ <;> omega
    rcases hends with ⟨rfl, rfl⟩ | ⟨rfl, rfl⟩
    · rw [← Option.some.inj (hspan 0 v hv), ← Option.some.inj (hspan 2 w hw)]
      rfl
    · rw [← Option.some.inj (hspan 1 v hv), ← Option.some.inj (hspan 4 w hw)]
      rfl
  computed c hc := by
    obtain ⟨k, hk⟩ := List.mem_iff_getElem?.1 hc
    have hcomponents := congrArg (·[k]?) (components_of_ofGroup ofGroup_fan)
    have hspans : fanModel.components.map (fun c => (c.inputs, c.outputs)) =
      [(⟨0, 0⟩, ⟨0, 2⟩), (⟨0, 1⟩, ⟨2, 1⟩), (⟨1, 1⟩, ⟨3, 1⟩)] := by decide +kernel
    have hspans := congrArg (·[k]?) hspans
    simp only [List.getElem?_map, hk, Option.map_some] at hcomponents hspans
    rcases k with _ | _ | _ | k
    · obtain ⟨hin, hout⟩ := Prod.mk.inj (Option.some.inj hspans)
      rw [Option.some.inj hcomponents, hin, hout]
      exact ⟨fanState.outputs.readReal ⟨0, 2⟩, (), (), rfl, rfl⟩
    · obtain ⟨hin, hout⟩ := Prod.mk.inj (Option.some.inj hspans)
      rw [Option.some.inj hcomponents, hin, hout]
      exact ⟨fanState.outputs.readReal ⟨2, 1⟩, (), (), rfl, perform_doubling 2.0 2.0 _⟩
    · obtain ⟨hin, hout⟩ := Prod.mk.inj (Option.some.inj hspans)
      rw [Option.some.inj hcomponents, hin, hout]
      exact ⟨fanState.outputs.readReal ⟨3, 1⟩, (), (), rfl, perform_doubling 3.0 3.0 _⟩
    · cases hspans

/-- The left value of the source moves. -/
def fanMoves : List (Perturbation Float) := [⟨"source.a", 0, 0.5⟩]

theorem movable_fan : ∀ p ∈ fanMoves, fanModel.Movable p := by
  intro p hp
  cases List.mem_singleton.1 hp
  have hindex : fanModel.variableTable.indexOf? "source.a" = some 0 := by decide +kernel
  have hvariable : (fanModel.variableAt? 0).map (fun v => (v.kind, v.owner, v.size)) =
    some (.output, 0, 1) := by decide +kernel
  obtain ⟨v, hv, hfacts⟩ := Option.map_eq_some_iff.1 hvariable
  obtain ⟨hkind, hfacts⟩ := Prod.mk.inj hfacts
  obtain ⟨howner, hsize⟩ := Prod.mk.inj hfacts
  refine ⟨0, v, hindex, hv, hsize ▸ Nat.one_pos, v, hv, ?_⟩
  rw [hkind, howner]
  have hcomponents := congrArg (·[0]?) (components_of_ofGroup ofGroup_fan)
  simp only [List.getElem?_map] at hcomponents
  obtain ⟨c, hc, hcomponent⟩ := Option.map_eq_some_iff.1 hcomponents
  exact ⟨c, hc, hcomponent ▸ Component.holds_independent _ _⟩

/-- The fan as a target. -/
def fanTarget : Target Float (ModelState Float Unit) :=
  fanModel.groupTarget fanModel.root fanModel.schedule

/-- The fan after the move. -/
def fanMoved : ModelState Float Unit :=
  ((Action.forEach fanMoves fun p => fanTarget.perturb p.name p.index (.real p.step)).perform
    fanState).2

/-- Only the left component lies between the left value of the source and what it makes of it. -/
theorem active_fan :
    fanModel.graph.activeComponents? ["source.a"] ["sinks.left.y"] = some (.only [1]) := by
  decide +kernel

/-- When the left value of the source moves, the right component can be left out: the left one comes
out the same. -/
theorem values_fan :
    fanModel.graph.activeComponents? ["source.a"] ["sinks.left.y"] = some (.only [1]) ∧
    ∃ pruned full, (fanTarget.evaluate (.only [1]) .real).perform fanMoved = (.ok (), pruned) ∧
      (fanTarget.evaluate .all .real).perform fanMoved = (.ok (), full) ∧
      fanTarget.values pruned "sinks.left.y" .real = fanTarget.values full "sinks.left.y" .real := by
  have hmoved : ((Action.forEach fanMoves fun p =>
      fanTarget.perturb p.name p.index (.real p.step)).perform fanState).1.toOption = some () := by
    decide +kernel
  have hpruned : ((fanTarget.evaluate (.only [1]) .real).perform fanMoved).1.toOption = some () := by
    decide +kernel
  have hfull : ((fanTarget.evaluate .all .real).perform fanMoved).1.toOption = some () := by
    decide +kernel
  have hkind : (fanModel.variableTable.get? "sinks.left.y").map (·.kind) = some .output := by
    decide +kernel
  have hperturbed : ∀ p ∈ fanMoves, p.name ∈ ["source.a"] := by
    intro p hp
    cases List.mem_singleton.1 hp
    exact List.mem_singleton.2 rfl
  have hrequested : ∀ name ∈ ["sinks.left.y"], ∀ v, fanModel.variableTable.get? name = some v →
      v.kind = .output := by
    intro name hname v hv
    cases List.mem_singleton.1 hname
    rw [hv] at hkind
    exact Option.some.inj hkind
  have hmoved := Action.perform_eq_ok (Except.eq_ok_of_toOption hmoved)
  have hpruned := Action.perform_eq_ok (Except.eq_ok_of_toOption hpruned)
  have hfull := Action.perform_eq_ok (Except.eq_ok_of_toOption hfull)
  obtain ⟨active, hactive, hvalues⟩ := values_eq_of_pruned ofGroup_fan fan_once fan_components
    settled_fan movable_fan hmoved hperturbed hrequested
  obtain rfl := Option.some.inj (active_fan.symm.trans hactive)
  exact ⟨active_fan, _, _, hpruned, hfull, hvalues _ _ hpruned hfull _ (List.mem_singleton.2 rfl)⟩

end Fan

end Model

end Sensitivity
