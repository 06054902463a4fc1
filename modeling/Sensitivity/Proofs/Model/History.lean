import Sensitivity.Proofs.Model.Differentiating
import Sensitivity.Proofs.Model.Frame
import Sensitivity.Proofs.Model.Layout
import Sensitivity.Proofs.Model.Rewriting

/-!
# Derivatives after different histories

A driver works on a model by operations: it sets values, runs the model, computes total derivatives
or checks derivatives (`Operation`). What the model keeps for the next of them depends on the whole
history. Total derivatives do not: after any two histories that end with the same inputs and outputs
they are the same, errors included (`Model.totals_eq_of_histories`).

A model starts in a sound state (`Model.linked_start`), and operations lead from linked states to
linked states (`Operation.twins`). So whatever a history leads to is linked with itself
(`Model.Reaches.linked`), and what two histories lead to is linked when inputs and outputs are
equal.
-/

namespace Sensitivity

variable {R M : Type} [Scalar R]

namespace Declarations

omit [Scalar R] in
/-- A pair is covered by what a declaration provides. -/
theorem exists_insert_of_cover {d : Declarations R} {p : PartialDeclaration R}
    {found found' : Resolution R} {of wrt : String} (h : cover d p found (of, wrt) = .ok found') :
    ∃ everything, found' = found.insert (of, wrt) ⟨of, wrt, p.provision, everything⟩ := by
  unfold cover at h
  dsimp only at h
  split at h
  · obtain ⟨-, -, h⟩ := Except.bind_eq_ok.1 h
    exact ⟨_, (Except.ok.inj h).symm⟩
  · exact ⟨_, (Except.ok.inj h).symm⟩

omit [Scalar R] in
/-- What holds of whatever a declaration covers a pair with holds of all that is found. -/
theorem forall_of_coverAll {d : Declarations R} {found : Resolution R}
    {P : String × String → DeclaredPartial R → Prop}
    (hP : ∀ p ∈ d.partials, ∀ of wrt everything, P (of, wrt) ⟨of, wrt, p.provision, everything⟩)
    (h : d.partials.foldlM (coverAll d) ∅ = .ok found) : ∀ k v, found.get? k = some v → P k v := by
  refine Except.of_foldlM_eq_ok (P := fun found : Resolution R => ∀ k v, found.get? k = some v → P k v)
    (fun found p hp found' hfound hall => ?_) (fun k v hv => by cases hv) h
  obtain ⟨ofs, -, hall⟩ := Except.bind_eq_ok.1 hall
  obtain ⟨wrts, -, hall⟩ := Except.bind_eq_ok.1 hall
  refine Except.of_foldlM_eq_ok (P := fun found : Resolution R => ∀ k v, found.get? k = some v → P k v)
    (fun found pair _ found' hfound hcover k v hv => ?_) hfound hall
  obtain ⟨everything, rfl⟩ := exists_insert_of_cover hcover
  rw [Table.get?_insert] at hv
  split at hv
  · rename_i hk
    rw [hk, ← Option.some.inj hv]
    exact hP p hp _ _ _
  · exact hfound k v hv

omit [Scalar R] in
/-- **Each pair has one declared partial.** -/
theorem nodup_resolve {d : Declarations R} {partials : List (DeclaredPartial R)}
    (h : d.resolve = .ok partials) : (partials.map fun p => (p.of, p.wrt)).Nodup := by
  obtain ⟨found, hfound, hpartials⟩ := Except.bind_eq_ok.1 h
  cases hpartials
  have hkeyed := forall_of_coverAll (P := fun k v => (v.of, v.wrt) = k)
    (fun _ _ _ _ _ => rfl) hfound
  have hkeys : found.values.map (fun p => (p.of, p.wrt)) = found.keys := by
    rw [Table.values, Table.keys, List.map_map]
    exact List.map_congr_left fun e he => hkeyed e.1 e.2 ((Table.get?_eq_some_iff _ _ _).2 he)
  rw [hkeys]
  exact found.nodup

omit [Scalar R] in
/-- What a partial provides was declared. -/
theorem exists_declared_of_resolve {d : Declarations R} {partials : List (DeclaredPartial R)}
    (h : d.resolve = .ok partials) {p : DeclaredPartial R} (hp : p ∈ partials) :
    ∃ declared ∈ d.partials, p.provision = declared.provision := by
  obtain ⟨found, hfound, hpartials⟩ := Except.bind_eq_ok.1 h
  cases hpartials
  obtain ⟨e, he, rfl⟩ := List.mem_map.1 hp
  exact forall_of_coverAll (P := fun _ v => ∃ declared ∈ d.partials, v.provision = declared.provision)
    (fun declared hdeclared _ _ _ => ⟨declared, hdeclared, rfl⟩) hfound e.1 e.2
    ((Table.get?_eq_some_iff _ _ _).2 he)

end Declarations

omit [Scalar R] in
theorem StateVector.eq_iff {v w : StateVector R} : v = w ↔ v.real = w.real ∧ v.imag = w.imag := by
  cases v
  cases w
  simp

namespace Model

variable [DirectSolver R] {m : Model R M} {first s t : ModelState R M} {g : Group R M}
  {settings : SetupSettings}

section Start

omit [DirectSolver R] in
theorem root_of_ofGroup (h : ofGroup g settings = .ok m) :
    m.root.number = 0 ∧ m.root.path = "" := by
  simp only [ofGroup, Except.bind_eq_ok] at h
  obtain ⟨⟨schedule, f⟩, -, ⟨sources, graph⟩, -, graph', -, _, -, hm⟩ := h
  cases hm
  exact ⟨rfl, rfl⟩

/-- A scheme that a group starts with is in its role and has no plan. -/
theorem resumes_startScheme {group : ModelGroup R} {scheme : Scheme R}
    (h : m.startScheme group = .ok (some scheme)) :
    scheme.Resumes (m.groupTarget m.root m.schedule) m.policy scheme := by
  unfold startScheme at h
  split at h
  · cases h
  · split at h
    · cases h
      exact ⟨rfl, rfl, Scheme.current_empty _ _ _⟩
    · obtain ⟨scheme', hadded, h⟩ := Except.bind_eq_ok.1 h
      cases h
      exact ⟨rfl, congrArg Scheme.Role.policy (Scheme.role_of_addRequests hadded),
        (Scheme.current_empty _ _ _).addRequests hadded⟩

/-- **A model starts in a sound state.** -/
theorem sound_start (hstart : m.start = .ok first) : m.Sound first first := by
  obtain ⟨schemes, hschemes, hfirst⟩ := Except.bind_eq_ok.1 hstart
  rw [Outcome.mapError_eq_ok, Outcome.ofExcept_eq_ok, Except.mapM_eq_ok] at hschemes
  cases hfirst
  refine ⟨List.length_map .., fun c component k hcomponent hk => ?_, fun n => ?_, rfl⟩
  · simp only [List.getElem?_map, hcomponent, Option.map_some, Option.some.injEq] at hk
    subst hk
    refine ⟨.start, List.length_map .., fun place e s he hs => ?_⟩
    simp only [startComponent, List.getElem?_map, he, Option.map_some, Option.some.injEq] at hs
    subst hs
    exact ⟨Scheme.furnished_empty .., Scheme.current_empty _ _ _, fun _ hnone => by cases hnone⟩
  · dsimp only
    cases hn : schemes[n]?.join with
    | none => exact .none
    | some scheme =>
      obtain ⟨hlt, hn⟩ := List.getElem?_eq_some_iff.1 (Option.join_eq_some_iff.1 hn)
      have hstarted := hschemes.get (hschemes.length_eq ▸ hlt) hlt
      rw [List.get_eq_getElem, List.get_eq_getElem, hn] at hstarted
      exact .some (resumes_startScheme hstarted)

/-- A root that approximates its derivatives starts without requests. -/
theorem rooted_start (h : ofGroup g settings = .ok m) (hstart : m.start = .ok first)
    (hroot : m.root.approximation.isSome) : ∃ a, m.Rooted first a := by
  obtain ⟨schemes, hschemes, hfirst⟩ := Except.bind_eq_ok.1 hstart
  rw [Outcome.mapError_eq_ok, Outcome.ofExcept_eq_ok, Except.mapM_eq_ok] at hschemes
  cases hfirst
  obtain ⟨hnumber, hpath⟩ := root_of_ofGroup h
  obtain ⟨settings, hsettings⟩ := Option.isSome_iff_exists.1 hroot
  refine ⟨.empty m.root.label .group m.policy, Scheme.furnished_empty .., ?_,
    Scheme.current_empty _ _ _, fun _ hnone => by cases hnone⟩
  cases hschemes with
  | cons hscheme _ =>
    simp only [startScheme, hsettings, hpath] at hscheme
    rw [hnumber]
    exact congrArg some (Except.ok.inj hscheme).symm

/-- **The start is linked with itself.** -/
theorem linked_start (h : ofGroup g settings = .ok m) (hstart : m.start = .ok first) :
    m.Linked first first first := by
  have hsound := sound_start hstart
  unfold Linked
  split
  · rename_i hroot
    exact ⟨(first, first), rooted_start h hstart hroot, rooted_start h hstart hroot,
      hsound, hsound, rfl, rfl, rfl⟩
  · exact ⟨hsound, hsound, rfl, rfl, rfl⟩

end Start

/-- States that are linked with themselves are linked with each other when they agree on inputs,
outputs and complex steps under way. -/
theorem Linked.of_self (hs : m.Linked first s s) (ht : m.Linked first t t)
    (hinputs : s.inputs = t.inputs) (houtputs : s.outputs = t.outputs) (hstack : s.stack = t.stack) :
    m.Linked first s t := by
  unfold Linked at hs ht ⊢
  split at hs
  · rw [if_pos ‹_›] at ht ⊢
    obtain ⟨a, ha, -, hs⟩ := hs
    obtain ⟨b, -, hb, ht⟩ := ht
    exact ⟨(a.1, b.2), ha, hb, hs.left, ht.right, hinputs, houtputs, hstack⟩
  · rw [if_neg ‹_›] at ht ⊢
    exact ⟨hs.left, ht.right, hinputs, houtputs, hstack⟩

end Model

/-- What a driver can ask of a model. -/
inductive Operation (R : Type) where
  | setValue (name : String) (values : List R)
  | run
  | computeTotals (of wrt : List (DriverVariable R))
  | computeScaledTotals (of wrt : List (DriverVariable R))
  | checkPartials (settings : CheckSettings R)
  | checkTotals (of wrt : List (DriverVariable R)) (settings : CheckSettings R)

namespace Operation

variable [DirectSolver R] (m : Model R M)

/-- What an operation does to the model. -/
def work : Operation R → ModelWork R M Unit
  | setValue name values => m.setValue name values
  | run => m.run
  | computeTotals of wrt => discard (m.computeTotals of wrt)
  | computeScaledTotals of wrt => discard (m.computeScaledTotals of wrt)
  | checkPartials settings => discard (m.checkPartials settings)
  | checkTotals of wrt settings => discard (m.checkTotals of wrt settings)

variable {m} {first : ModelState R M}

/-- **Every operation has the same outcome in linked states**, and leaves them linked. -/
theorem twins [StrictScalar R] (hm : m.Steady) (op : Operation R) :
    Action.Twins (m.Linked first) (op.work m) (op.work m) := by
  cases op with
  | setValue name values => exact Model.twins_linked fun anchors => Model.twins_setValue name values
  | run => exact Model.twins_linked fun anchors => Model.twins_solveGroup hm _ _ _ _ _
  | computeTotals of wrt => exact Action.twins_discard (Model.twins_computeTotals hm of wrt)
  | computeScaledTotals of wrt =>
    exact Action.twins_discard (Model.twins_computeScaledTotals hm of wrt)
  | checkPartials settings =>
    exact Action.twins_discard (Model.twins_linked fun anchors =>
      Model.twins_checkPartials hm settings)
  | checkTotals of wrt settings =>
    exact Action.twins_discard (Model.twins_checkTotals hm of wrt settings)

/-- Derivatives keep the point, so a property of points is preserved by operations when setting values
and running preserve it. -/
theorem preserves_of_point {P : ModelState R M → Prop}
    (hpoint : ∀ {s t : ModelState R M}, P s → t.point = s.point → P t)
    (hset : ∀ name values, (m.setValue name values).Preserves P) (hrun : m.run.Preserves P)
    (op : Operation R) : (op.work m).Preserves P := by
  have hkeeps {α : Type} {a : ModelWork R M α} (h : a.Keeps ModelState.point) :
      (discard a).Preserves P :=
    Action.preserves_discard fun s hs ha => hpoint hs (h s.point s rfl ha)
  cases op with
  | setValue name values => exact hset name values
  | run => exact hrun
  | computeTotals of wrt => exact hkeeps (m.keeps_computeTotals of wrt)
  | computeScaledTotals of wrt => exact hkeeps (m.keeps_computeScaledTotals of wrt)
  | checkPartials settings => exact hkeeps (m.keeps_checkPartials settings)
  | checkTotals of wrt settings => exact hkeeps (m.keeps_checkTotals of wrt settings)

/-- No operation leaves a complex step under way that was not. -/
theorem keeps_stack (op : Operation R) : (op.work m).Keeps ModelState.stack := fun v =>
  op.preserves_of_point (P := fun s => s.stack = v)
    (fun hs h => (congrArg (fun p => p.2.2.2) h).trans hs)
    (fun name values => (m.sustains_setValue_of_write (Q := fun _ => True)
      (fun kind _ _ hs => by cases kind <;> exact hs) name values).preserves)
    ((m.keeps_solveGroup m.root m.schedule .all .real _).comp (fun p => p.2.2.2) v)

end Operation

namespace Model

variable [DirectSolver R] {m : Model R M} {first s t : ModelState R M}

variable (m) in
/-- A history: operations that lead from one state to another. Each of them answers, with a value or
an error; after a breach there is nothing to go on from. -/
inductive Reaches : ModelState R M → List (Operation R) → ModelState R M → Prop
  | nil (s : ModelState R M) : Reaches s [] s
  | cons {s t : ModelState R M} {ops : List (Operation R)} (op : Operation R)
      (ha : ((op.work m).perform s).1.Answers) (h : Reaches ((op.work m).perform s).2 ops t) :
      Reaches s (op :: ops) t

/-- What no operation ends holds after every history that begins with it. -/
theorem Reaches.preserves {P : ModelState R M → Prop} {ops : List (Operation R)}
    (h : m.Reaches s ops t) (hP : ∀ op : Operation R, (op.work m).Preserves P) (hs : P s) : P t := by
  induction h with
  | nil s => exact hs
  | cons op ha _ ih => exact ih (hP op _ hs ha)

/-- **Operations do no more than their parts**: writing values, running, and computing derivatives. -/
theorem Undisturbed.operation {P Q : ModelState R M → Prop} (hm : m.Undisturbed P Q)
    (hset : ∀ {s} kind v, P s → P (s.setVector kind v)) (hrun : m.run.Sustains P Q)
    (op : Operation R) : (op.work m).Sustains P Q := by
  cases op with
  | setValue name values =>
    exact m.sustains_setValue_of_write (fun kind _ _ hs => hset kind _ hs) name values
  | run => exact hrun
  | computeTotals of wrt => exact Action.sustains_discard (hm.computeTotals of wrt)
  | computeScaledTotals of wrt => exact Action.sustains_discard (hm.computeScaledTotals of wrt)
  | checkPartials settings => exact Action.sustains_discard (hm.checkPartials settings)
  | checkTotals of wrt settings => exact Action.sustains_discard (hm.checkTotals of wrt settings)

/-- **What a history leads to is linked with itself**, and no complex step is under way that was not
before. -/
theorem Reaches.linked [StrictScalar R] (hm : m.Steady) {ops : List (Operation R)}
    (h : m.Reaches s ops t) (hs : m.Linked first s s) : m.Linked first t t ∧ t.stack = s.stack := by
  induction h with
  | nil s => exact ⟨hs, rfl⟩
  | cons op ha _ ih =>
    obtain ⟨hlinked, hstack⟩ := ih ((op.twins hm).rel_of_answers hs ha)
    exact ⟨hlinked, hstack.trans (op.keeps_stack _ _ rfl ha)⟩

omit [DirectSolver R] in
/-- Each pair has one partial in every component of a model. -/
theorem nodup_partials_of_ofGroup {g : Group R M} {settings : SetupSettings}
    (hbuild : ofGroup g settings = .ok m) :
    ∀ c ∈ m.components, (c.partials.map fun p => (p.of, p.wrt)).Nodup := by
  intro c hc
  obtain ⟨k, hk⟩ := List.mem_iff_getElem?.1 hc
  have hlaid := laid_of_ofGroup hbuild
  have hlt : k < m.graph.components.length :=
    hlaid.length_eq ▸ (List.getElem?_eq_some_iff.1 hk).1
  obtain ⟨d, hd⟩ := hlaid.component k c _ hk (List.getElem?_eq_getElem hlt)
  exact Declarations.nodup_resolve hd.partials

/-- **Total derivatives depend on the current point only.** In a lenient model of stateless components
that make the same writes in every call, they are the same after any two histories that end with
equal inputs and outputs: the same blocks, or the same error. -/
theorem totals_eq_of_histories [StrictScalar R] {g : Group R M} {settings : SetupSettings}
    (hbuild : ofGroup g settings = .ok m) (hstart : m.start = .ok first)
    (hlenient : m.policy ≠ .reject) (hstateless : ∀ c ∈ m.components, c.component.Stateless)
    (hrewrites : ∀ c ∈ m.components, ∃ targets, c.Rewrites targets)
    {ops ops' : List (Operation R)} (hs : m.Reaches first ops s) (ht : m.Reaches first ops' t)
    (hinputs : s.inputs = t.inputs) (houtputs : s.outputs = t.outputs)
    (of wrt : List (DriverVariable R)) :
    ((m.computeTotals of wrt).perform s).1 = ((m.computeTotals of wrt).perform t).1 := by
  have hm : m.Steady := ⟨hlenient, hstateless, hrewrites, nodup_partials_of_ofGroup hbuild⟩
  have hfirst := linked_start hbuild hstart
  obtain ⟨hslinked, hsstack⟩ := hs.linked hm hfirst
  obtain ⟨htlinked, htstack⟩ := ht.linked hm hfirst
  exact (twins_computeTotals hm of wrt).outcome_eq
    (hslinked.of_self htlinked hinputs houtputs (hsstack.trans htstack.symm))

section Curve

/-- The square of `x`, whose derivative is approximated, and three times `x`. -/
def curve : ExpressionComponent Float where
  inputs := [("x", .scalar 2.0)]
  outputs := [("y", .scalar 4.0, [.binary .mul (.input "x" 0) (.input "x" 0)]),
    ("z", .scalar 6.0, [.binaryReal .mul (.input "x" 0) 3.0])]
  partials := [(.names ["y"], .names ["x"], .ok (.approximated .finiteDifference)),
    (.names ["z"], .names ["x"], .ok .analytic)]
  checkSettings := none
  complexSafe := true
  analytic := [⟨"z", "x", [.constant 3.0], true⟩]
  failures := []

/-- A source and a point of the curve. -/
def curveGroup : Group Float Unit where
  settings := { GroupSettings.plain with connections := [("source.a", "curve.x")] }
  members := .component "source" (.independent () [("a", .scalar 2.0)]) <|
    .component "curve" curve.toComponent .empty

theorem isSome_curve : (ofGroup curveGroup .standard).toOption.isSome = true := by decide +kernel

/-- The model of the curve. -/
def curveModel : Model Float Unit := (ofGroup curveGroup .standard).toOption.get isSome_curve

theorem ofGroup_curve : ofGroup curveGroup .standard = .ok curveModel :=
  Except.eq_ok_of_toOption (Option.some_get isSome_curve).symm

theorem isSome_curveStart : curveModel.start.toOption.isSome = true := by decide +kernel

/-- The curve at the start. -/
def curveStart : ModelState Float Unit := curveModel.start.toOption.get isSome_curveStart

theorem start_curve : curveModel.start = .ok curveStart :=
  Except.eq_ok_of_toOption (Option.some_get isSome_curveStart).symm

/-- The curve after an operation. -/
def curveAfter (op : Operation Float) (s : ModelState Float Unit) : ModelState Float Unit :=
  ((op.work curveModel).perform s).2

/-- Totals of a variable that there is not. -/
def strayTotals : Operation Float := .computeTotals [.whole "nowhere"] [.whole "source.a"]

/-- A check by central differences. -/
def centralCheck : Operation Float :=
  .checkPartials { CheckSettings.standard with form := some .central }

/-- The curve at another point. -/
def curveElsewhere : ModelState Float Unit :=
  curveAfter .run <| curveAfter (.setValue "source.a" [5.0]) curveStart

/-- The curve at the first point again. -/
def curveReturned : ModelState Float Unit :=
  curveAfter .run <| curveAfter (.setValue "source.a" [2.0]) curveElsewhere

/-- A run, totals that fail, and a check. -/
theorem reaches_checked : curveModel.Reaches curveStart [.run, strayTotals, centralCheck]
    (curveAfter centralCheck (curveAfter strayTotals (curveAfter .run curveStart))) := by
  have ha : ((Operation.run.work curveModel).perform curveStart).1.Answers ∧
      ((strayTotals.work curveModel).perform (curveAfter .run curveStart)).1.Answers ∧
      ((centralCheck.work curveModel).perform
        (curveAfter strayTotals (curveAfter .run curveStart))).1.Answers := by decide +kernel
  exact .cons _ ha.1 (.cons _ ha.2.1 (.cons _ ha.2.2 (.nil _)))

/-- A run at another point, and then one at the first point again. -/
theorem reaches_returned : curveModel.Reaches curveStart
    [.setValue "source.a" [5.0], .run, .setValue "source.a" [2.0], .run] curveReturned := by
  have ha : (((Operation.setValue "source.a" [5.0]).work curveModel).perform curveStart).1.Answers ∧
      ((Operation.run.work curveModel).perform
        (curveAfter (.setValue "source.a" [5.0]) curveStart)).1.Answers ∧
      (((Operation.setValue "source.a" [2.0]).work curveModel).perform
        curveElsewhere).1.Answers ∧
      ((Operation.run.work curveModel).perform
        (curveAfter (.setValue "source.a" [2.0]) curveElsewhere)).1.Answers := by decide +kernel
  exact .cons _ ha.1 (.cons _ ha.2.1 (.cons _ ha.2.2.1 (.cons _ ha.2.2.2 (.nil _))))

theorem component_curve {c : ModelComponent Float Unit} (hc : c ∈ curveModel.components) :
    c.component = .independent () [("a", .scalar 2.0)] ∨ c.component = curve.toComponent := by
  have hmem : c.component ∈ curveGroup.members.components := by
    rw [← components_of_ofGroup ofGroup_curve]
    exact List.mem_map_of_mem hc
  rcases List.mem_cons.1 hmem with h | hmem
  · exact .inl h
  · exact .inr (List.mem_singleton.1 hmem)

/-- A run, totals that fail and a check, or runs at two points: the totals are the same. -/
theorem totals_curve : ∃ s t,
    curveModel.Reaches curveStart [.run, strayTotals, centralCheck] s ∧
    curveModel.Reaches curveStart
      [.setValue "source.a" [5.0], .run, .setValue "source.a" [2.0], .run] t ∧
    ∀ of wrt, ((curveModel.computeTotals of wrt).perform s).1 =
      ((curveModel.computeTotals of wrt).perform t).1 := by
  have hs : (curveAfter centralCheck (curveAfter strayTotals (curveAfter .run curveStart))).inputs =
        curveReturned.inputs ∧
      (curveAfter centralCheck (curveAfter strayTotals (curveAfter .run curveStart))).outputs =
        curveReturned.outputs := by
    simp only [StateVector.eq_iff]
    decide +kernel
  have hstateless (c : ModelComponent Float Unit) (hc : c ∈ curveModel.components) :
      c.component.Stateless := by
    rcases component_curve hc with h | h
    · rw [h]
      exact Component.stateless_independent _ _
    · rw [h]
      exact curve.stateless
  have hrewrites (c : ModelComponent Float Unit) (hc : c ∈ curveModel.components) :
      ∃ targets, c.Rewrites targets := by
    rcases component_curve hc with h | h
    · exact ⟨_, ModelComponent.rewrites_of_independent h⟩
    · exact ⟨_, ModelComponent.rewrites_of_expressions h⟩
  have hlenient : curveModel.policy ≠ .reject := by decide +kernel
  exact ⟨_, _, reaches_checked, reaches_returned, totals_eq_of_histories ofGroup_curve start_curve
    hlenient hstateless hrewrites reaches_checked reaches_returned hs.1 hs.2⟩

end Curve

end Model

end Sensitivity
