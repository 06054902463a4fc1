import Sensitivity.Proofs.Approximation.Computation
import Sensitivity.Proofs.Approximation.Invariants
import Sensitivity.Proofs.Model.History

/-!
# What operations do to the caches of a model

The caches of a model change in few ways. Running a component changes its memory and counts the
run; linearizing changes the partials and the schemes of a component; approximating across a group
puts the scheme of the group back, in the role that it had and with a current plan; and total
derivatives that the root approximates may bring other requests for its scheme. A property of states
that survives the first two is lasting through evaluations (`Model.Enduring`), one that survives all
of them is lasting (`Model.Lasting`): it survives every operation, whatever the components do and
whatever fails (`Model.Lasting.operation`), and so it holds after every history that begins with it
(`Model.Lasting.of_reaches`).
-/

namespace Sensitivity

variable {R M : Type} [Scalar R] [DirectSolver R]

namespace Model

variable (m : Model R M)

/-- A property of states that evaluating a model does not end. -/
structure Enduring (P : ModelState R M → Prop) : Prop where
  /-- It is about the caches. -/
  congr : ∀ {s t}, P s → t.caches = s.caches → P t
  ran : ∀ {s} c (memory : M) (count : Nat → Nat), P s →
    P (s.modifyComponent c fun k => { k with memory := memory, runs := count k.runs })
  linearizeAt : ∀ c relevant baseline, (m.linearizeAt c relevant baseline).Preserves P

/-- A property of states that no operation on a model ends. -/
structure Lasting (P : ModelState R M → Prop) : Prop extends m.Enduring P where
  /-- A root that approximates its derivatives has a scheme. -/
  root : ∀ {s}, m.root.approximation.isSome → P s → ∃ a, s.schemes[m.root.number]?.join = some a
  /-- A scheme may be replaced by one in the same role. -/
  scheme : ∀ {s n a b}, P s → s.schemes[n]?.join = some a → b.role = a.role →
    (a.Current (m.groupTarget m.root m.schedule) → b.Current (m.groupTarget m.root m.schedule)) →
      P { s with schemes := s.schemes.set n (some b) }
  /-- The scheme of the root may be given other requests, which are noted. -/
  requests : ∀ {s a b qs}, P s → s.schemes[m.root.number]?.join = some a →
    a.clearRequests.addRequests qs = .ok b →
      P { keepScheme m.root b s with rootRequests := some qs }

variable {m} {P Q : ModelState R M → Prop}

omit [DirectSolver R] in
/-- Properties endure together. -/
theorem Enduring.and (hP : m.Enduring P) (hQ : m.Enduring Q) : m.Enduring fun s => P s ∧ Q s where
  congr hs h := ⟨hP.congr hs.1 h, hQ.congr hs.2 h⟩
  ran c memory count hs := ⟨hP.ran c memory count hs.1, hQ.ran c memory count hs.2⟩
  linearizeAt c relevant baseline s hs ha :=
    ⟨hP.linearizeAt c relevant baseline s hs.1 ha, hQ.linearizeAt c relevant baseline s hs.2 ha⟩

section Noted

/-- What is kept about groups. -/
def noted (s : ModelState R M) : List (Option (Scheme R)) × Option (List (Request R)) :=
  (s.schemes, s.rootRequests)

omit [DirectSolver R] in
/-- **What is kept about groups** stays the same through evaluations. -/
theorem enduring_of_noted (h : ∀ {s t}, P s → noted t = noted s → P t) : m.Enduring P where
  congr hs hcaches := h hs (congrArg Prod.snd hcaches)
  ran _ _ _ hs := h hs rfl
  linearizeAt _ relevant baseline s hs ha :=
    h hs (Outside.linearizeAt m ⟨fun _ _ => rfl, fun _ _ => rfl⟩ relevant baseline _ s rfl ha)

end Noted

namespace Enduring

variable (hP : m.Enduring P)

include hP

section Run

omit [DirectSolver R]

theorem compute (c : Nat) (mode : Mode) : (m.compute c mode).Preserves P := by
  refine Action.preserves_bind (Action.preserves_ofOutcome _) fun component => ?_
  refine Action.preserves_bind (Action.preserves_read _) fun kept => ?_
  exact fun s hs _ => hP.congr (hP.ran c _ (· + 1) hs) rfl

theorem setVector (kind : VariableKind) {v : StateVector R} {s : ModelState R M} (hs : P s) :
    P (s.setVector kind v) := by cases kind <;> exact hP.congr hs rfl

/-- What endures is carried through evaluations. -/
theorem carried (mode : Mode) : m.Carried mode P where
  pull scope component hs := of_pull (fun _ _ hs => hP.congr hs rfl) scope component hs
  compute c := hP.compute c mode
  linearizeAt c baseline := hP.linearizeAt c none baseline
  outputs _ _ hs := hP.congr hs rfl
  residuals _ _ hs := hP.congr hs rfl
  imagOutputs _ _ _ _ hs := hP.congr hs rfl
  imagResiduals _ _ _ _ hs := hP.congr hs rfl
  diagnostics _ hs := hP.congr hs rfl

end Run

/-- **What endures is an invariant of every group.** -/
theorem groupTarget (g : ModelGroup R) (body : Schedule R) :
    (m.groupTarget g body).Invariant P where
  perturb name index delta := (m.sustains_perturb_of_set (Q := fun _ => True)
    (fun kind _ hs => hP.setVector kind hs) g.label name index delta).preserves
  evaluate active mode :=
    Action.preserves_mapError _ ((hP.carried mode).runSchedule active g.components (.group g body .done))
  restore _ _ hs := hP.congr hs rfl
  enter _ _ _ hs := hP.congr hs rfl
  leave hs := hP.congr hs rfl

/-- The work of a scheme on a group leaves what endures, as far as keeping its results does. -/
theorem approximateAfresh (g : ModelGroup R) (body : Schedule R) (scheme : Scheme R) :
    (m.approximateAfresh g body scheme).Preserves P :=
  Action.preserves_on fun s hs ha => hP.congr (Action.preserves_mapError _
    (Scheme.preserves_computeJacobian (hP.groupTarget g body)) ⟨scheme, .empty, s⟩ hs ha) rfl

omit [DirectSolver R] in
theorem freshPartials (c : Nat) (component : ModelComponent R M) (check : Settings R)
    (site : Site R) : (m.freshPartials c component check site).Preserves P := by
  unfold Model.freshPartials
  refine Action.preserves_bind (Action.preserves_ofOutcome _) fun scheme => ?_
  refine Action.preserves_bind Action.preserves_get fun s => ?_
  refine Action.preserves_bind (Action.preserves_read _) fun kept => ?_
  exact Action.preserves_on fun s hs _ => hP.congr (hP.ran c _ (fun _ => _) hs) rfl

end Enduring

namespace Lasting

variable (hP : m.Lasting P)

include hP

/-- **A group keeps its scheme in its role**, with a current plan. -/
theorem approximateGroup (g : ModelGroup R) (body : Schedule R) {a : Scheme R}
    {s : ModelState R M} (hs : P s) (ha : s.schemes[g.number]?.join = some a)
    (h : ((m.approximateGroup g body a).perform s).1.Answers) :
    P ((m.approximateGroup g body a).perform s).2 := by
  have hschemes : m.Enduring fun t : ModelState R M => t.schemes = s.schemes :=
    enduring_of_noted fun hu ht => (congrArg Prod.fst ht).trans hu
  simp only [Model.approximateGroup, onGroup, Action.perform_on, Action.perform_mapError] at h ⊢
  have hanswers := (Outcome.answers_mapError _ _).1 h
  obtain ⟨hend, hkept⟩ := Scheme.preserves_computeJacobian
    ((hP.toEnduring.and hschemes).groupTarget g body) ⟨a, .empty, s⟩ ⟨hs, rfl⟩ hanswers
  have hunseen : (m.groupTarget g body).Restoring fun _ => () := ⟨fun _ => rfl, fun _ _ _ => rfl⟩
  have hidentity := congrArg Prod.fst <|
    Scheme.keeps_computeJacobian hunseen _ ⟨a, .empty, s⟩ rfl hanswers
  have hcurrent := Scheme.preserves_current_computeJacobian (T := m.groupTarget g body)
    ⟨a, .empty, s⟩
  have hgraph (t : ModelState R M) :
      (m.groupTarget m.root m.schedule).graph t = (m.groupTarget g body).graph t := rfl
  generalize (Scheme.computeJacobian (m.groupTarget g body)).perform ⟨a, .empty, s⟩ = r
    at hanswers hend hkept hidentity hcurrent ⊢
  have hrole : r.2.scheme.role = a.role := by
    simp only [Scheme.onSession, Scheme.identity, Prod.mk.injEq] at hidentity
    obtain ⟨howner, hsite, hrequests, -, hpolicy, htolerance⟩ := hidentity
    simp only [Scheme.role, howner, hsite, hrequests, hpolicy, htolerance]
  refine hP.scheme (hP.congr hend rfl) (a := a) ?_ hrole fun hold => ?_
  · exact (congrArg (fun l : List (Option (Scheme R)) => l[g.number]?.join) hkept).trans ha
  · exact (hcurrent (hold.of_graph hgraph) hanswers).of_graph fun t => (hgraph t).symm

/-- **The scheme of the root** is the one that is kept, also when it is given other requests. -/
theorem prepareRoot {a : Scheme R} {s : ModelState R M} (hs : P s)
    (ha : s.schemes[m.root.number]?.join = some a) (requests : List (Request R)) :
    P ((m.prepareRoot a requests).perform s).2 ∧ ∀ b,
      ((m.prepareRoot a requests).perform s).1 = .ok b →
        ((m.prepareRoot a requests).perform s).2.schemes[m.root.number]?.join = some b := by
  have hlt : m.root.number < s.schemes.length :=
    (List.getElem?_eq_some_iff.1 (Option.join_eq_some_iff.1 ha)).1
  unfold Model.prepareRoot
  rw [Action.perform_get_bind]
  split
  · exact ⟨hs, fun b hb => ha.trans (congrArg some (Except.ok.inj hb))⟩
  cases hadded : a.clearRequests.addRequests requests with
  | error e => exact ⟨hs, fun _ hb => nomatch hb⟩
  | ok b =>
    refine ⟨hP.requests hs ha hadded, fun b' hb => ?_⟩
    obtain rfl : b = b' := Except.ok.inj hb
    exact congrArg Option.join (List.getElem?_set_self hlt)

theorem approximatedTotals (hroot : m.root.approximation.isSome) (of wrt : List (DriverVariable R))
    (settings : Settings R) : (m.approximatedTotals of wrt settings).Preserves P := by
  unfold Model.approximatedTotals
  refine Action.preserves_bind (Action.preserves_ofOutcome _) fun requests => ?_
  refine Action.preserves_get_bind fun s hs => ?_
  obtain ⟨a, ha⟩ := hP.root hroot hs
  obtain ⟨hprepared, hb⟩ := hP.prepareRoot hs ha requests
  dsimp only
  rw [ha, Option.getD_some, Action.perform_bind]
  rcases hperform : (m.prepareRoot a requests).perform s with ⟨e | b, t⟩
  · rw [hperform] at hprepared
    exact fun _ => hprepared
  · rw [hperform] at hprepared hb
    refine Action.inv_bind (hP.approximateGroup m.root m.schedule hprepared (hb b rfl))
      fun blocks => ?_
    exact Action.Sustains.preserves <| Action.sustains_bind (Q := fun _ => True)
      (Action.sustains_mapM fun (names, q) => sustains_namedBlock blocks names q) fun _ =>
        Action.sustains_pure _

/-- What lasts is undisturbed by whatever derivatives are computed with. -/
theorem undisturbed : m.Undisturbed P fun _ => True where
  linearizeAt c relevant := (hP.linearizeAt c relevant none).sustains
  freshPartials c component check site := (hP.freshPartials c component check site).sustains
  approximateGroup body hs ha := Action.ends_of_answers (hP.approximateGroup _ body hs ha)
  approximatedTotals of wrt settings hsettings :=
    (hP.approximatedTotals (by rw [hsettings]; rfl) of wrt settings).sustains
  approximateAfresh g body scheme := (hP.approximateAfresh g body scheme).sustains

/-- **No operation ends what lasts**, whether or not it succeeds. -/
theorem operation (op : Operation R) : (op.work m).Preserves P :=
  (hP.undisturbed.operation (fun kind _ hs => hP.setVector kind hs)
    ((hP.carried .real).runSchedule .all _ (.group m.root m.schedule .done)).sustains op).preserves

/-- **What lasts holds after every history** that begins with it. -/
theorem of_reaches {s t : ModelState R M} {ops : List (Operation R)} (h : m.Reaches s ops t)
    (hs : P s) : P t := h.preserves hP.operation hs

end Lasting

end Model

end Sensitivity
