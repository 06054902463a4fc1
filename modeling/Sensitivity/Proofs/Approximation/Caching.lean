import Sensitivity.Proofs.Approximation.Merging
import Sensitivity.Proofs.Approximation.Partition

/-!
# Kept plans

A scheme keeps the plan that it made last, and gives it out again as long as its requests are the ones
that it was made for and the sizes of the variables are the same. A scheme is used by calls
(`Scheme.Call`): requests are added and cleared, directions counted, ranks or whole Jacobians computed,
each time on some state of a target whose dependencies stay the same (`Scheme.Used`). Whatever the calls
were, and whichever of them failed, the scheme answers the next one as a new scheme with the same
requests does (`Scheme.answers_of_used`).

A plan is made again only after requests were added or cleared, after other sizes and after planning
that failed. Clearing counts as a change also when there is nothing to clear
(`Scheme.exists_replanned`).
-/

namespace Sensitivity

variable {R σ : Type}

/-- Actions run side by side with themselves from equal states. -/
theorem Action.twins_eq {ε α : Type} (a : Action σ ε α) : Action.Twins Eq a a := by
  rintro s _ rfl
  rcases a.perform s with ⟨(e | _) | x, t⟩
  · exact .error rfl
  · exact .breach
  · exact .value ⟨rfl, rfl⟩

/-- No operation tells equal states apart. -/
theorem Target.coupled_eq (T : Target R σ) : T.Coupled Eq where
  size h _ := by rw [h]
  values h _ _ := by rw [h]
  perturb _ _ _ := Action.twins_eq _
  evaluate _ _ := Action.twins_eq _
  restore h h' _ _ := by rw [h, h']
  enter h _ _ := by rw [h]
  leave h h' _ _ := by rw [h, h']
  complexCapable h := by rw [h]
  complexStepActive h := by rw [h]
  graph h := by rw [h]

/-- The target with one graph at all states. -/
def Target.withGraph (T : Target R σ) (graph : Option DependencyGraph) : Target R σ :=
  { T with graph := fun _ => graph }

namespace Scheme

variable [Scalar R] {T : Target R σ}

section PutsBack

/-- What a scheme is, and how many plans it has made. -/
def ledger (s : Scheme R) :
    (String × Site R × List (Request R) × Nat × PatternPolicy × R) × Nat :=
  (s.identity, s.planBuilds)

variable {α : Type} {c : CachedPlan R} {a : Work R σ α}

/-- An action that ends, unless it breaches, with the plan `c` in the scheme, and otherwise leaves the
scheme with what it is and the plans that it has made. -/
def PutsBack (c : CachedPlan R) (a : Work R σ α) : Prop :=
  ∀ w, (a.perform w).1.Answers →
    (a.perform w).2.scheme.ledger = w.scheme.ledger ∧ (a.perform w).2.scheme.cache = some c

/-- Evaluating directions changes nothing of what a scheme is. -/
theorem borne_ledger (T : Target R σ)
    (l : (String × Site R × List (Request R) × Nat × PatternPolicy × R) × Nat) :
    Borne T (fun w => w.scheme.ledger = l) fun w => w.scheme.ledger = l where
  warned _ _ h := h
  noticed _ h := h
  difference _ _ _ _ _ _ h := .inl h
  step _ _ _ _ _ h := .inl h

omit [Scalar R] in
theorem putsBack_keepPlan (c : CachedPlan R) : PutsBack c (keepPlan c : Work R σ Unit) :=
  fun _ _ => ⟨rfl, rfl⟩

omit [Scalar R] in
/-- A plan that was put back stays where it is. -/
theorem PutsBack.bind {β : Type} {f : α → Work R σ β} (ha : PutsBack c a)
    (hf : ∀ x l, (f x).Preserves fun w => w.scheme.ledger = l ∧ w.scheme.cache = some c) :
    PutsBack c (a >>= f) := by
  intro w h
  have hfollow (x : α) : (f x).Preserves fun v => v.scheme.ledger = w.scheme.ledger ∧
      v.scheme.cache = some c := hf x _
  exact Action.inv_bind (ha w) hfollow h

omit [Scalar R] in
/-- After an attempt a plan is put back whether or not it succeeded. -/
theorem putsBack_attempt {β : Type} {b : Work R σ β}
    {f : Except (ApproximationError R) β → Work R σ α}
    (hb : ∀ l, b.Preserves fun w => w.scheme.ledger = l) (hf : ∀ x, PutsBack c (f x)) :
    PutsBack c (Action.attempt b >>= f) := by
  intro w h
  have hpreserved : (Action.attempt b : Work R σ (Except (ApproximationError R) β)).Preserves
      fun v => v.scheme.ledger = w.scheme.ledger := Action.preserves_attempt (hb w.scheme.ledger)
  have hkept := hpreserved w rfl
  rw [Action.perform_bind] at h ⊢
  rcases hattempt : (Action.attempt b : Work R σ _).perform w with ⟨(e | _) | x, u⟩
  · exact absurd (congrArg Prod.fst hattempt) (Action.attempt_ne_error _ _ _)
  · rw [hattempt] at h
    exact absurd rfl h
  · rw [hattempt] at h hkept
    obtain ⟨hledger, hcache⟩ := hf x u h
    exact ⟨hledger.trans (hkept (Outcome.answers_ok x)), hcache⟩

end PutsBack

/-- A call on a scheme. -/
inductive Call (R : Type) where
  | add (q : Request R)
  | clear
  | count
  | partition (rank ranks : Nat)
  | compute

namespace Call

/-- Whether a call takes a plan. -/
def plans : Call R → Bool
  | add _ | clear => false
  | count | partition _ _ | compute => true

/-- Performs a call on a scheme at work, for what it changes. -/
def run (T : Target R σ) : Call R → Work R σ Unit
  | add q => do
    let s ← .read fun w => .ofExcept (w.scheme.addRequest q)
    modifyScheme fun _ => s
  | clear => modifyScheme Scheme.clearRequests
  | count => do let _ ← directionCount T
  | partition rank ranks => do let _ ← computePartition T rank ranks
  | compute => do let _ ← computeJacobian T

/-- The sizes that the last plan was made for, as long as the requests have not been changed since
and no planning has failed. A request that is refused changes nothing. -/
def remembered (T : Target R σ) (s : Scheme R) (t : σ) (before : Option Sizes) :
    Call R → Option Sizes
  | add q =>
    match q.settings.validate with
    | .ok () => none
    | .error _ => before
  | clear => none
  | count | partition _ _ | compute => (prospect T s t).toOption.map Prod.fst

/-- What a call does with the plan that it takes. -/
theorem exists_rest (T : Target R σ) {c : Call R} (h : c.plans = true) :
    ∃ rest : CachedPlan R → Work R σ Unit, c.run T = takePlan T >>= rest ∧
      ∀ p, PutsBack p (rest p) := by
  have hpure (p : CachedPlan R)
      (l : (String × Site R × List (Request R) × Nat × PatternPolicy × R) × Nat) :
      (pure () : Work R σ Unit).Preserves fun w => w.scheme.ledger = l ∧ w.scheme.cache = some p :=
    Action.preserves_pure ()
  have hpartition (p : CachedPlan R) (rank ranks : Nat) : PutsBack p
      (Action.attempt (evaluateRank T p rank ranks) >>= fun result => keepPlan p >>= fun _ =>
        (Action.ofOutcome (.ofExcept result) : Work R σ (Assembler R))) :=
    putsBack_attempt (fun l => ((borne_ledger T l).evaluateRank p rank ranks).preserves) fun _ =>
      (putsBack_keepPlan p).bind fun _ _ => Action.preserves_ofOutcome _
  cases c with
  | add => cases h
  | clear => cases h
  | count =>
    refine ⟨fun p => keepPlan p >>= fun _ => pure (), ?_, fun p => ?_⟩
    · simp only [run, directionCount, bind_assoc, pure_bind]
    · exact (putsBack_keepPlan p).bind fun _ => hpure p
  | partition rank ranks =>
    refine ⟨fun p => (Action.attempt (evaluateRank T p rank ranks) >>= fun result =>
      keepPlan p >>= fun _ => Action.ofOutcome (.ofExcept result)) >>= fun _ => pure (), ?_,
      fun p => (hpartition p rank ranks).bind fun _ => hpure p⟩
    simp only [run, computePartition, bind_assoc]
  | compute =>
    refine ⟨fun p => ((Action.attempt (evaluateRank T p 0 1) >>= fun result =>
      keepPlan p >>= fun _ => Action.ofOutcome (.ofExcept result)) >>= finish) >>= fun _ => pure (),
      ?_, fun p => ((hpartition p 0 1).bind fun a l => ?_).bind fun _ => hpure p⟩
    · simp only [run, computeJacobian, computePartition, bind_assoc]
    · exact (sustains_finish (Q := fun _ => True) (fun _ _ h => h) (fun _ h => h) a).preserves

end Call

section Current

variable {w : Session R σ}

/-- After a call that takes a plan, the plan that the scheme has is current. -/
theorem Current.of_rest (h : w.scheme.Current T) {rest : CachedPlan R → Work R σ Unit}
    (hrest : ∀ p, PutsBack p (rest p)) (ha : ((takePlan T >>= rest).perform w).1.Answers) :
    ((takePlan T >>= rest).perform w).2.scheme.Current T := by
  have hkept := sustains_takePlan (T := T) (ι := w.scheme.identity) w ⟨rfl, h⟩
  rw [Action.perform_bind] at ha ⊢
  rcases htake : (takePlan T).perform w with ⟨(e | _) | c, u⟩
  · rw [htake] at hkept
    exact (hkept.of_answers (Outcome.answers_error e)).2
  · rw [htake] at ha
    exact absurd rfl ha
  · rw [htake] at ha hkept
    have hplanned := planned_of_takePlan h htake
    obtain ⟨hledger, hcache⟩ := hrest c u ha
    have hidentity : ((rest c).perform u).2.scheme.identity = w.scheme.identity :=
      (congrArg Prod.fst hledger).trans (hkept.of_answers (Outcome.answers_ok c)).1
    simp only [identity, Prod.mk.injEq] at hidentity
    obtain ⟨-, -, hrequests, hversion, -⟩ := hidentity
    intro c' hc'
    obtain rfl := Option.some.inj (hcache.symm.trans hc')
    obtain ⟨t, ht⟩ := hplanned.made
    exact ⟨(hplanned.version_eq.trans hversion.symm).le,
      fun _ => ⟨t, (makePlan_congr hrequests hversion t _).trans ht⟩⟩

/-- **After every call the plan that the scheme has is current.** -/
theorem Current.run (h : w.scheme.Current T) (c : Call R) (hc : ((c.run T).perform w).1.Answers) :
    ((c.run T).perform w).2.scheme.Current T := by
  have hplanned (hplans : c.plans = true) : ((c.run T).perform w).2.scheme.Current T := by
    obtain ⟨rest, hrun, hrest⟩ := Call.exists_rest T hplans
    rw [hrun] at hc ⊢
    exact h.of_rest hrest hc
  cases c with
  | add q =>
    rw [Call.run, Action.perform_bind, Action.perform_read]
    cases hq : w.scheme.addRequest q with
    | error e => exact h
    | ok s => exact h.addRequest hq
  | clear => exact h.clearRequests
  | count => exact hplanned rfl
  | partition => exact hplanned rfl
  | compute => exact hplanned rfl

end Current

section Kept

/-- What holds of a scheme between calls: its plan is current, its requests are valid, and where sizes
are remembered it has a plan for them. -/
structure Kept (T : Target R σ) (s : Scheme R) (remembered : Option Sizes) : Prop where
  current : s.Current T
  valid : ∀ q ∈ s.requests, q.settings.validate = .ok ()
  remembers : ∀ z, remembered = some z →
    ∃ c, s.cache = some c ∧ c.version = s.version ∧ c.sizes.sameEntries z = true

variable {w : Session R σ} {remembered : Option Sizes}

/-- **A remembered plan is not made again** while the sizes are the ones that it was made for. -/
theorem Kept.planBuilds_eq (h : Kept T w.scheme remembered) {z : Sizes} (hz : remembered = some z)
    (hsizes : w.scheme.sizes T w.target = .ok z) (c : Call R)
    (hc : ((c.run T).perform w).1.Answers) :
    ((c.run T).perform w).2.scheme.planBuilds = w.scheme.planBuilds := by
  cases hplans : c.plans with
  | true =>
    obtain ⟨p, hcache, hversion, hsame⟩ := h.remembers z hz
    obtain ⟨rest, hrun, hrest⟩ := Call.exists_rest T hplans
    rw [hrun, Action.perform_bind, takePlan_of_fits hcache hversion hsizes hsame] at hc ⊢
    exact congrArg Prod.snd (hrest p _ hc).1
  | false =>
    cases c with
    | add q =>
      simp only [Call.run, addRequest]
      cases q.settings.validate <;> rfl
    | clear => rfl
    | count => cases hplans
    | partition => cases hplans
    | compute => cases hplans

variable (hgraph : ∀ t u, T.graph t = T.graph u)

include hgraph in
/-- After a call that takes a plan, the scheme has it, if planning succeeded. -/
theorem Kept.of_rest (h : Kept T w.scheme remembered) {rest : CachedPlan R → Work R σ Unit}
    (hrest : ∀ p, PutsBack p (rest p))
    (ha : ((takePlan T >>= rest).perform w).1.Answers) :
    Kept T ((takePlan T >>= rest).perform w).2.scheme
      ((prospect T w.scheme w.target).toOption.map Prod.fst) := by
  have hcurrent := h.current.of_rest hrest ha
  have hkept := sustains_takePlan (T := T) (ι := w.scheme.identity) w ⟨rfl, h.current⟩
  have halike := alike_takePlan hgraph h.current
  rw [Action.perform_bind] at ha hcurrent ⊢
  rcases htake : (takePlan T).perform w with ⟨(e | _) | c, u⟩
  · rw [htake] at hcurrent hkept halike
    obtain ⟨hidentity, -⟩ := hkept.of_answers (Outcome.answers_error e)
    simp only [identity, Prod.mk.injEq] at hidentity
    refine ⟨hcurrent, ?_, fun z hz => ?_⟩
    · rw [show u.scheme.requests = w.scheme.requests from hidentity.2.2.1]
      exact h.valid
    · -- planning failed, so there is nothing to remember
      generalize prospect T w.scheme w.target = x at halike hz
      cases halike
      cases hz
  · rw [htake] at ha
    exact absurd rfl ha
  · rw [htake] at ha hcurrent hkept
    obtain ⟨hversion, sizes, hsizes, hsame⟩ := fits_of_takePlan htake
    obtain ⟨hledger, hcache⟩ := hrest c u ha
    have hidentity : ((rest c).perform u).2.scheme.identity = w.scheme.identity :=
      (congrArg Prod.fst hledger).trans (hkept.of_answers (Outcome.answers_ok c)).1
    simp only [identity, Prod.mk.injEq] at hidentity
    obtain ⟨-, -, hrequests, hversion', -⟩ := hidentity
    refine ⟨hcurrent, ?_, fun z hz => ⟨c, hcache, hversion.trans hversion'.symm, ?_⟩⟩
    · rw [hrequests]
      exact h.valid
    · obtain ⟨found, hfound, rfl⟩ := Option.map_eq_some_iff.1 hz
      obtain ⟨sizes', hsizes', hplan⟩ := Except.bind_eq_ok.1 (Except.eq_ok_of_toOption hfound)
      obtain ⟨plan, -, hactive⟩ := Except.bind_eq_ok.1 hplan
      obtain ⟨active, -, hp⟩ := Except.bind_eq_ok.1 hactive
      cases hp
      obtain rfl := Except.ok.inj (hsizes.symm.trans hsizes')
      exact hsame

include hgraph in
/-- **What holds of a scheme between calls survives every call.** -/
theorem Kept.run (h : Kept T w.scheme remembered) (c : Call R)
    (hc : ((c.run T).perform w).1.Answers) :
    Kept T ((c.run T).perform w).2.scheme (c.remembered T w.scheme w.target remembered) := by
  have hplanned (hplans : c.plans = true) : Kept T ((c.run T).perform w).2.scheme
      ((prospect T w.scheme w.target).toOption.map Prod.fst) := by
    obtain ⟨rest, hrun, hrest⟩ := Call.exists_rest T hplans
    rw [hrun] at hc ⊢
    exact h.of_rest hgraph hrest hc
  cases c with
  | add q =>
    cases hq : q.settings.validate with
    | error issue =>
      have hrun : ((Call.add q).run T).perform w =
          (.error (.error (.declaration (.setting issue))), w) := by
        simp only [Call.run, addRequest, hq]
        rfl
      rw [hrun]
      simpa only [Call.remembered, hq] using h
    | ok =>
      have hrun : ((Call.add q).run T).perform w = (.ok (), { w with scheme := { w.scheme with
          requests := w.scheme.requests ++ [q], version := w.scheme.version + 1 } }) := by
        simp only [Call.run, addRequest, hq]
        rfl
      rw [hrun]
      refine ⟨h.current.of_cache_eq rfl rfl, fun q' hq' => ?_, fun z hz => ?_⟩
      · rcases List.mem_append.1 hq' with hold | hnew
        · exact h.valid q' hold
        · rwa [List.mem_singleton.1 hnew]
      · simp only [Call.remembered, hq] at hz
        cases hz
  | clear =>
    refine ⟨h.current.clearRequests, fun q hq => absurd hq List.not_mem_nil, fun z hz => ?_⟩
    cases hz
  | count => exact hplanned rfl
  | partition => exact hplanned rfl
  | compute => exact hplanned rfl

end Kept

section Fresh

/-- Two performances with the same answer, which leave the target in the same state. -/
def SameAnswer {α : Type} (r q : Outcome (ApproximationError R) α × Session R σ) : Prop :=
  r.1 = q.1 ∧ (r.1.Answers → r.2.target = q.2.target)

omit [Scalar R] in
theorem sameAnswer_of_alike {α : Type} {post : α → α → Session R σ → Session R σ → Prop}
    {err : Session R σ → Session R σ → Prop}
    {r q : Outcome (ApproximationError R) α × Session R σ} (h : Action.Alike post err r q)
    (hpost : ∀ x y w v, post x y w v → x = y ∧ w.target = v.target)
    (herr : ∀ w v, err w v → w.target = v.target) : SameAnswer r q := by
  cases h with
  | value h =>
    obtain ⟨rfl, htarget⟩ := hpost _ _ _ _ h
    exact ⟨rfl, fun _ => htarget⟩
  | error h => exact ⟨rfl, fun _ => herr _ _ h⟩
  | breach => exact ⟨rfl, fun ha => absurd rfl ha⟩

/-- Calls on a target in the state `t` do not tell two schemes apart: both take the same plan, with the
same active components, and have the same answers to calls. Computations of whole Jacobians are
compared where nothing is rejected. -/
structure Interchangeable (T : Target R σ) (t : σ) (s s' : Scheme R) : Prop where
  plan : ∀ d d', Action.Alike (fun c c' _ _ => Same c' c) (fun _ _ => True)
    ((takePlan T).perform ⟨s, d, t⟩) ((takePlan T).perform ⟨s', d', t⟩)
  count : ∀ d d', SameAnswer ((directionCount T).perform ⟨s, d, t⟩)
    ((directionCount T).perform ⟨s', d', t⟩)
  partition : ∀ rank ranks d d', SameAnswer ((computePartition T rank ranks).perform ⟨s, d, t⟩)
    ((computePartition T rank ranks).perform ⟨s', d', t⟩)
  compute : s.policy ≠ .reject → ∀ d d', SameAnswer ((computeJacobian T).perform ⟨s, d, t⟩)
    ((computeJacobian T).perform ⟨s', d', t⟩)

/-- Schemes in one role, with current plans, are interchangeable. -/
theorem interchangeable_of_role (hgraph : ∀ t u, T.graph t = T.graph u) {s s' : Scheme R}
    (hrole : s'.role = s.role) (hs : s.Current T) (hs' : s'.Current T) (t : σ) :
    Interchangeable T t s s' := by
  have hready (d d' : Diagnostics) : Ready T s.role Eq ⟨s, d, t⟩ ⟨s', d', t⟩ :=
    ⟨⟨rfl, hrole, rfl⟩, hs, hs'⟩
  have htake := couples_takePlan (ρ := s.role) hgraph T.coupled_eq
  have hcount : Action.Couples (Ready T s.role Eq)
      (fun n m w v => n = m ∧ InRole s.role Eq w v) (InRole s.role Eq)
      (directionCount T) (directionCount T) := by
    refine Action.couples_bind htake fun c c' w v ⟨hsame, hwv⟩ => ?_
    refine .value ⟨by rw [hsame.plan], hwv.left, hwv.right, hwv.target⟩
  refine ⟨fun d d' => (htake _ _ (hready d d')).mono (fun _ _ _ _ h => h.1) fun _ _ _ => trivial,
    fun d d' => ?_, fun rank ranks d d' => ?_, fun hpolicy d d' => ?_⟩
  · exact sameAnswer_of_alike (hcount _ _ (hready d d')) (fun _ _ _ _ h => ⟨h.1, h.2.target⟩)
      fun _ _ h => h.target
  · exact sameAnswer_of_alike
      (couples_computePartition hgraph T.coupled_eq rank ranks _ _ (hready d d'))
      (fun _ _ _ _ h => ⟨h.1, h.2.target⟩) fun _ _ h => h.target
  · exact sameAnswer_of_alike (twins_computeJacobian hgraph T.coupled_eq hpolicy _ _ (hready d d'))
      (fun _ _ _ _ h => ⟨h.1, h.2.target⟩) fun _ _ h => h.target

/-- A new scheme for the scope of another one. -/
def bare (s : Scheme R) : Scheme R :=
  { empty s.owner s.site s.policy with tolerance := s.tolerance }

/-- A new scheme takes the requests of one that is in use, and is interchangeable with it. -/
theorem Kept.exists_fresh (hgraph : ∀ t u, T.graph t = T.graph u) {s : Scheme R}
    {remembered : Option Sizes} (h : Kept T s remembered) (t : σ) :
    ∃ fresh, s.bare.addRequests s.requests = .ok fresh ∧ Interchangeable T t s fresh := by
  rcases addRequests_cases s.requests with ⟨⟨q, hq, hinvalid⟩, -⟩ | ⟨-, hok⟩
  · exact absurd (h.valid q hq) hinvalid
  · obtain ⟨fresh, hfresh, hrole⟩ := hok s.bare
    have hbare : s.bare.Current T := fun _ hc => nomatch hc
    exact ⟨fresh, hfresh, interchangeable_of_role hgraph hrole h.current
      (hbare.addRequests hfresh) t⟩

end Fresh

section Used

variable {graph : Option DependencyGraph}

/-- Where the graph is the given one, plans are taken as on the target with this graph everywhere. -/
theorem takePlan_withGraph {w : Session R σ} (hw : T.graph w.target = graph) :
    (takePlan (T.withGraph graph)).perform w = (takePlan T).perform w := by
  have hmake (s : Scheme R) (sizes : Sizes) :
      s.makePlan (T.withGraph graph) w.target sizes = s.makePlan T w.target sizes := by
    simp only [makePlan, hw]
    rfl
  simp only [takePlan, Action.perform_get_bind, hmake]
  rfl

theorem difference_withGraph (st : Stencil R) (perturbations : List (Perturbation R))
    (active : ActiveSet) (of : List String) (baseline : Table String (List R)) :
    st.difference (T.withGraph graph) perturbations active of baseline =
      st.difference T perturbations active of baseline := by
  have hsum (saved : σ) (points : List (R × R)) (sums : Table String (List R)) :
      Stencil.sumPoints (T.withGraph graph) saved perturbations active of points sums =
        Stencil.sumPoints T saved perturbations active of points sums := by
    induction points generalizing sums with
    | nil => rfl
    | cons point rest ih =>
      simp only [Stencil.sumPoints, ih]
      rfl
  simp only [Stencil.difference, hsum]

/-- Only plans depend on the graph. -/
theorem evaluateRank_withGraph (c : CachedPlan R) (rank ranks : Nat) :
    evaluateRank (T.withGraph graph) c rank ranks = evaluateRank T c rank ranks := by
  have hchoose (settings : List (Settings R)) :
      chooseMethods (T.withGraph graph) settings = chooseMethods T settings := by
    induction settings with
    | nil => rfl
    | cons s rest ih =>
      simp only [chooseMethods, ih]
      rfl
  have hrun (frame : Frame R) (ds : List (Direction × Nat)) (a : Assembler R) :
      runDirections (T.withGraph graph) frame ds a = runDirections T frame ds a := by
    induction ds generalizing a with
    | nil => rfl
    | cons d rest ih =>
      simp only [runDirections, runDirection, difference_withGraph, ih]
      rfl
  simp only [evaluateRank, hchoose, hrun]
  rfl

/-- What comes after a plan was taken is the same on the target with one graph. -/
theorem takePlan_bind_withGraph {α : Type} {w : Session R σ} (hw : T.graph w.target = graph)
    (rest : CachedPlan R → Work R σ α) :
    (takePlan (T.withGraph graph) >>= rest).perform w = (takePlan T >>= rest).perform w := by
  rw [Action.perform_bind, Action.perform_bind, takePlan_withGraph hw]

theorem computePartition_withGraph {w : Session R σ} (hw : T.graph w.target = graph)
    (rank ranks : Nat) : (computePartition (T.withGraph graph) rank ranks).perform w =
      (computePartition T rank ranks).perform w := by
  simp only [computePartition, evaluateRank_withGraph]
  exact takePlan_bind_withGraph hw _

theorem computeJacobian_withGraph {w : Session R σ} (hw : T.graph w.target = graph) :
    (computeJacobian (T.withGraph graph)).perform w = (computeJacobian T).perform w := by
  rw [computeJacobian, computeJacobian, Action.perform_bind, Action.perform_bind,
    computePartition_withGraph hw]

/-- Where the graph is the given one, calls do what they do on the target with this graph. -/
theorem Call.run_withGraph {w : Session R σ} (hw : T.graph w.target = graph) (c : Call R) :
    (c.run (T.withGraph graph)).perform w = (c.run T).perform w := by
  cases c with
  | add => rfl
  | clear => rfl
  | count => simp only [run, directionCount, bind_assoc, takePlan_bind_withGraph hw]
  | partition rank ranks =>
    rw [run, run, Action.perform_bind, Action.perform_bind, computePartition_withGraph hw]
  | compute => rw [run, run, Action.perform_bind, Action.perform_bind, computeJacobian_withGraph hw]

theorem Call.remembered_withGraph (s : Scheme R) {t : σ} (ht : T.graph t = graph)
    (before : Option Sizes) (c : Call R) :
    c.remembered (T.withGraph graph) s t before = c.remembered T s t before := by
  have hprospect : prospect (T.withGraph graph) s t = prospect T s t := by
    simp only [prospect, ht]
    rfl
  cases c <;> simp only [remembered, hprospect]

/-- A scheme after any calls on a target with some graph, and the sizes of the plan that it should
still have: between calls the target may be brought to any state with the same graph, and calls may
fail. -/
inductive Used (T : Target R σ) (graph : Option DependencyGraph) : Scheme R → Option Sizes → Prop
  | new (owner : String) (site : Site R) (policy : PatternPolicy) (tolerance : R) :
    Used T graph { empty owner site policy with tolerance := tolerance } none
  | call {s : Scheme R} {remembered : Option Sizes} (h : Used T graph s remembered) (c : Call R)
    (diagnostics : Diagnostics) {t : σ} (ht : T.graph t = graph)
    (hc : ((c.run T).perform ⟨s, diagnostics, t⟩).1.Answers) :
    Used T graph ((c.run T).perform ⟨s, diagnostics, t⟩).2.scheme (c.remembered T s t remembered)

variable {s : Scheme R} {remembered : Option Sizes}

theorem Used.kept (h : Used T graph s remembered) : Kept (T.withGraph graph) s remembered := by
  induction h with
  | new =>
    exact ⟨fun _ hc => (nomatch hc), fun _ hq => absurd hq List.not_mem_nil, fun _ hz => nomatch hz⟩
  | @call s _ _ c diagnostics t ht hc ih =>
    have hrun := Call.run_withGraph (w := ⟨s, diagnostics, t⟩) ht c
    rw [← hrun] at hc ⊢
    rw [← Call.remembered_withGraph _ ht]
    exact ih.run (w := ⟨s, diagnostics, t⟩) (fun _ _ => rfl) c hc

theorem Interchangeable.of_withGraph {t : σ} (ht : T.graph t = graph) {s s' : Scheme R}
    (h : Interchangeable (T.withGraph graph) t s s') : Interchangeable T t s s' := by
  constructor
  · intro d d'
    simpa only [takePlan_withGraph (w := ⟨_, _, t⟩) ht] using h.plan d d'
  · intro d d'
    simpa only [directionCount, takePlan_bind_withGraph (w := ⟨_, _, t⟩) ht] using h.count d d'
  · intro rank ranks d d'
    simpa only [computePartition_withGraph (w := ⟨_, _, t⟩) ht] using h.partition rank ranks d d'
  · intro hpolicy d d'
    simpa only [computeJacobian_withGraph (w := ⟨_, _, t⟩) ht] using h.compute hpolicy d d'

/-- **Kept plans are not seen**: however a scheme was used, the next call takes the same plan, with the
same active components, and has the same answer as with a new scheme that has the same requests.
And no plan is made again for the same sizes unless requests were added or cleared, or planning
failed, since the last one. -/
theorem answers_of_used (h : Used T graph s remembered) {t : σ} (ht : T.graph t = graph) :
    (∃ fresh, s.bare.addRequests s.requests = .ok fresh ∧ Interchangeable T t s fresh) ∧
    ∀ z, remembered = some z → s.sizes T t = .ok z → ∀ (c : Call R) diagnostics,
      ((c.run T).perform ⟨s, diagnostics, t⟩).1.Answers →
        ((c.run T).perform ⟨s, diagnostics, t⟩).2.scheme.planBuilds = s.planBuilds := by
  constructor
  · obtain ⟨fresh, hfresh, hsame⟩ := h.kept.exists_fresh (fun _ _ => rfl) t
    exact ⟨fresh, hfresh, hsame.of_withGraph ht⟩
  · intro z hz hsizes c diagnostics hc
    have hrun := Call.run_withGraph (w := ⟨s, diagnostics, t⟩) ht c
    rw [← hrun] at hc ⊢
    exact h.kept.planBuilds_eq (w := ⟨s, diagnostics, t⟩) hz hsizes c hc

/-- A new scheme. -/
def unused : Scheme Float :=
  { empty "model" .group .warn with tolerance := Assembler.defaultTolerance }

theorem used_unused : Used squares none unused none := .new "model" .group .warn _

/-- A new scheme at work. -/
def untouched : Session Float (List Float) := ⟨unused, default, [3.0, 5.0]⟩

/-- Where a call leads. -/
def next (c : Call Float) (w : Session Float (List Float)) : Session Float (List Float) :=
  ((c.run squares).perform w).2

/-- A scheme with a request for squares, once its directions were counted. -/
def counted : Session Float (List Float) :=
  next .count (next (.add (Request.whole "y" "x" Plan.separate)) untouched)

/-- After directions were counted, no plan is made again at other values. -/
theorem answers_counted : ∃ z, Used squares none counted.scheme (some z) ∧
    squares.graph [7.0, 9.0] = none ∧ counted.scheme.sizes squares [7.0, 9.0] = .ok z ∧
    (∃ fresh, counted.scheme.bare.addRequests counted.scheme.requests = .ok fresh ∧
      Interchangeable squares [7.0, 9.0] counted.scheme fresh) ∧
    ∀ (c : Call Float) diagnostics,
      ((c.run squares).perform ⟨counted.scheme, diagnostics, [7.0, 9.0]⟩).1.Answers →
        ((c.run squares).perform ⟨counted.scheme, diagnostics, [7.0, 9.0]⟩).2.scheme.planBuilds =
          counted.scheme.planBuilds := by
  have hadd := used_unused.call (.add (Request.whole "y" "x" Plan.separate)) default
    (t := [3.0, 5.0]) rfl (by decide +kernel)
  have hcount := hadd.call .count default (t := [3.0, 5.0]) rfl (by decide +kernel)
  have hplanned : (Call.count.remembered squares (next (.add (Request.whole "y" "x" Plan.separate))
      untouched).scheme [3.0, 5.0] none).map Table.entries = some [("y", 2), ("x", 2)] := by
    decide +kernel
  have hcurrent : (counted.scheme.sizes squares [7.0, 9.0]).toOption.map Table.entries =
      some [("y", 2), ("x", 2)] := by decide +kernel
  obtain ⟨z, hz, hentries⟩ := Option.map_eq_some_iff.1 hplanned
  obtain ⟨sizes, hsizes, hentries'⟩ := Option.map_eq_some_iff.1 hcurrent
  have hsame : sizes = z := by
    cases sizes
    cases z
    cases hentries'.trans hentries.symm
    rfl
  subst hsame
  have hused : Used squares none counted.scheme (some sizes) := hz ▸ hcount
  have hanswers := answers_of_used hused (t := [7.0, 9.0]) rfl
  have hok := Except.eq_ok_of_toOption hsizes
  exact ⟨sizes, hused, rfl, hok, hanswers.1, hanswers.2 sizes rfl hok⟩

/-- **Clearing nothing makes the plan anew**: the requests are none before and after, and the sizes the
same, but the next call makes a second plan. -/
theorem exists_replanned : ∃ (w w₁ w₂ w₃ : Session Float (List Float)) (z : Sizes),
    Used squares none w.scheme none ∧ (Call.count.run squares).perform w = (.ok (), w₁) ∧
    (Call.clear.run squares).perform w₁ = (.ok (), w₂) ∧
    w₂.scheme.requests = w₁.scheme.requests ∧ w.scheme.sizes squares w.target = .ok z ∧
    w₂.scheme.sizes squares w₂.target = .ok z ∧
    (Call.count.run squares).perform w₂ = (.ok (), w₃) ∧
    w₃.scheme.planBuilds = w₂.scheme.planBuilds + 1 := by
  have hfirst : ((Call.count.run squares).perform untouched).1.toOption = some () := by
    decide +kernel
  have hsecond : ((Call.count.run squares).perform
      (next .clear (next .count untouched))).1.toOption = some () := by decide +kernel
  have hbuilt : (next .count (next .clear (next .count untouched))).scheme.planBuilds =
      (next .clear (next .count untouched)).scheme.planBuilds + 1 := by decide +kernel
  have hnone : (next .count untouched).scheme.requests.isEmpty = true := by decide +kernel
  exact ⟨untouched, next .count untouched, next .clear (next .count untouched),
    next .count (next .clear (next .count untouched)), ∅, used_unused,
    Action.perform_eq_ok (Except.eq_ok_of_toOption hfirst), rfl, (List.isEmpty_iff.1 hnone).symm,
    rfl, rfl, Action.perform_eq_ok (Except.eq_ok_of_toOption hsecond), hbuilt⟩

end Used

end Scheme

end Sensitivity
