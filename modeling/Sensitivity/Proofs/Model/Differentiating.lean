import Sensitivity.Check
import Sensitivity.Proofs.Model.Solving

/-!
# Differentiating in matched states

Total derivatives of a steady model, and checks of its derivatives, answer the same in matched
states: by the chain rule, with approximated groups (`Model.twins_chainRuleTotals`), and as the root
approximates them (`Model.twins_approximatedTotals`). The requests that a root was given before do
not matter: those of a computation take their place unless they are the same already.
-/

namespace Sensitivity

variable {R M : Type} [Scalar R] [DirectSolver R]

omit [DirectSolver R] in
/-- Requests with validated settings equal no others. -/
theorem Request.eq_of_beq_of_validate [StrictScalar R] {p q : Request R} (h : (p == q) = true)
    (hp : p.settings.validate = .ok ()) : p = q := by
  obtain ⟨of, wrt, settings, pattern, ofEntries, wrtEntries, everything⟩ := p
  obtain ⟨of', wrt', settings', pattern', ofEntries', wrtEntries', everything'⟩ := q
  have h : (of == of' && wrt == wrt' && settings == settings' && pattern == pattern' &&
    ofEntries == ofEntries' && wrtEntries == wrtEntries' && everything == everything') = true := h
  simp only [Bool.and_eq_true, beq_iff_eq] at h
  obtain ⟨⟨⟨⟨⟨⟨rfl, rfl⟩, hsettings⟩, rfl⟩, rfl⟩, rfl⟩, rfl⟩ := h
  rw [Settings.eq_of_beq_of_validate hsettings hp]

omit [DirectSolver R] in
theorem Request.eq_of_beq_of_validates [StrictScalar R] {ps qs : List (Request R)}
    (h : (ps == qs) = true) (hps : ∀ p ∈ ps, p.settings.validate = .ok ()) : ps = qs := by
  induction ps generalizing qs with
  | nil =>
    cases qs with
    | nil => rfl
    | cons q qs => cases h
  | cons p ps ih =>
    cases qs with
    | nil => cases h
    | cons q qs =>
      obtain ⟨hpq, hrest⟩ := Bool.and_eq_true_iff.1 h
      obtain ⟨hp, hps⟩ := List.forall_mem_cons.1 hps
      rw [eq_of_beq_of_validate hpq hp, ih hrest hps]

namespace Model

variable {m : Model R M} {anchors : ModelState R M × ModelState R M} {anchor s t : ModelState R M}

section Keep

variable {g : ModelGroup R} {scheme a b : Scheme R}

/-- A scheme in its role may be kept. -/
theorem Sound.keepScheme (h : m.Sound anchor s)
    (hscheme : anchor.schemes[g.number]?.join = some scheme)
    (ha : scheme.Resumes (m.groupTarget m.root m.schedule) m.policy a) :
    m.Sound anchor (Model.keepScheme g a s) where
  length_eq := h.length_eq
  component := h.component
  groups n := by
    have hn := h.groups n
    simp only [Model.keepScheme, List.getElem?_set]
    split
    · rename_i he
      subst he
      rw [hscheme] at hn ⊢
      split
      · exact .some ha
      · rename_i hlt
        rw [List.getElem?_eq_none (by omega)] at hn
        cases hn
    · exact hn
  requests_eq := h.requests_eq

end Keep

/-- What a model keeps is in the roles that it is in. -/
theorem Sound.self (h : m.Sound anchor s) : m.Sound s s where
  length_eq := h.length_eq
  component := h.component
  groups n := by
    have hn := h.groups n
    generalize anchor.schemes[n]?.join = x at hn
    generalize s.schemes[n]?.join = y at hn ⊢
    cases hn with
    | none => exact .none
    | some ha => exact .some ⟨rfl, ha.policy_eq, ha.current⟩
  requests_eq := rfl

section Root

variable (m) in
/-- The scheme of a root that approximates its derivatives: its requests are valid, and they are the
ones that are noted. -/
structure Rooted (s : ModelState R M) (a : Scheme R) : Prop extends
    (Scheme.empty m.root.label .group m.policy).Furnished a where
  place : s.schemes[m.root.number]? = some (some a)
  current : a.Current (m.groupTarget m.root m.schedule)
  requests_eq : ∀ qs, s.rootRequests = some qs → a.requests = qs

/-- A root keeps its scheme. -/
theorem Sound.rooted (h : m.Sound anchor s) {a : Scheme R} (ha : m.Rooted anchor a) :
    ∃ b, m.Rooted s b := by
  have hn := h.groups m.root.number
  rw [ha.place] at hn
  generalize hs : s.schemes[m.root.number]?.join = y at hn
  cases hn with
  | @some _ b hb =>
    have hrequests : b.requests = a.requests := congrArg Scheme.Role.requests hb.role_eq
    refine ⟨b, ⟨?_, hrequests ▸ ha.valid⟩, Option.join_eq_some_iff.1 hs, hb.current, fun qs hqs => ?_⟩
    · rw [hb.role_eq, hrequests, ha.role_eq]
    · rw [hrequests]
      exact ha.requests_eq qs (h.requests_eq ▸ hqs)

/-- The requests that are noted for the root are those of its scheme. -/
theorem Rooted.requests_of_beq [StrictScalar R] {a : Scheme R} (ha : m.Rooted s a)
    {requests : List (Request R)} (hs : (s.rootRequests == some requests) = true) :
    a.requests = requests := by
  cases hqs : s.rootRequests with
  | none =>
    rw [hqs] at hs
    cases hs
  | some qs =>
    rw [hqs, ← ha.requests_eq qs hqs] at hs
    exact Request.eq_of_beq_of_validates hs ha.valid

/-- **Requests for the root have the same outcome whatever it had before.** -/
theorem prepareRoot_cases [StrictScalar R] (requests : List (Request R)) :
    (∃ e, ∀ s a, m.Rooted s a →
        (m.prepareRoot a requests : ModelWork R M (Scheme R)).perform s = (Outcome.fail e, s)) ∨
      ∀ anchor s a, m.Sound anchor s → m.Rooted s a → ∃ b t,
        (m.prepareRoot a requests : ModelWork R M (Scheme R)).perform s = (.ok b, t) ∧
          m.Rooted t b ∧ b.requests = requests ∧ m.Sound t t ∧
            t.inputs = s.inputs ∧ t.outputs = s.outputs ∧ t.stack = s.stack := by
  rcases Scheme.clearRequests_cases (.empty m.root.label .group m.policy) requests with
    ⟨⟨q, hq, hinvalid⟩, e, he⟩ | hok
  · refine .inl ⟨.approximation e, fun s a ha => ?_⟩
    have hother : ¬ (s.rootRequests == some requests) = true := fun hs =>
      hinvalid (ha.valid q (ha.requests_of_beq hs ▸ hq))
    unfold prepareRoot
    rw [Action.perform_get_bind, if_neg hother, he]
    rfl
  · refine .inr fun anchor s a hs ha => ?_
    unfold prepareRoot
    rw [Action.perform_get_bind]
    split
    · rename_i hsame
      exact ⟨a, s, rfl, ha, ha.requests_of_beq hsame, hs.self, rfl, rfl, rfl⟩
    · obtain ⟨b, hb, hfurnished, hrequests⟩ := hok a ha.toFurnished
      have hcurrent : b.Current (m.groupTarget m.root m.schedule) :=
        ha.current.clearRequests.addRequests hb
      have hlt : m.root.number < s.schemes.length := (List.getElem?_eq_some_iff.1 ha.place).1
      rw [hb]
      refine ⟨b, _, rfl, ⟨hfurnished, List.getElem?_set_self hlt, hcurrent, fun qs hqs => ?_⟩,
        hrequests, ⟨hs.length_eq, hs.component, fun n => ?_, rfl⟩, rfl, rfl, rfl⟩
      · exact hrequests.trans (Option.some.inj hqs)
      · have hn := hs.self.groups n
        simp only [Model.keepScheme, List.getElem?_set]
        split
        · exact .some ⟨rfl, congrArg Scheme.Role.policy hfurnished.role_eq, hcurrent⟩
        · exact hn

variable (m) in
/-- Matched states of a model whose root approximates its derivatives. -/
def RootMatched (s t : ModelState R M) : Prop :=
  ∃ anchors : ModelState R M × ModelState R M, (∃ a, m.Rooted anchors.1 a) ∧
    (∃ b, m.Rooted anchors.2 b) ∧ m.Matched anchors s t

/-- **Requests for the root lead to schemes with these requests**, from any two matched states. From
then on both states keep the schemes that they have just been given. -/
theorem couples_prepareRoot [StrictScalar R] (requests : List (Request R)) (a b : Scheme R) :
    Action.Couples (fun s t => m.RootMatched s t ∧ m.Rooted s a ∧ m.Rooted t b)
      (fun a b s t => a.requests = requests ∧ b.requests = requests ∧ m.Rooted s a ∧
        m.Rooted t b ∧ m.Matched (s, t) s t)
      m.RootMatched (m.prepareRoot a requests : ModelWork R M (Scheme R))
      (m.prepareRoot b requests) := by
  rintro s t ⟨hst, ha, hb⟩
  obtain ⟨anchors, -, -, hmatched⟩ := id hst
  rcases m.prepareRoot_cases requests with ⟨e, he⟩ | hok
  · rw [he s a ha, he t b hb]
    exact .error hst
  · obtain ⟨a', s', hs', ha', hrequests, hsound, hinputs, houtputs, hstack⟩ :=
      hok _ s a hmatched.left ha
    obtain ⟨b', t', ht', hb', hrequests', hsound', hinputs', houtputs', hstack'⟩ :=
      hok _ t b hmatched.right hb
    rw [hs', ht']
    exact .value ⟨hrequests, hrequests', ha', hb', hsound, hsound',
      by rw [hinputs, hinputs', hmatched.inputs_eq], by rw [houtputs, houtputs', hmatched.outputs_eq],
      by rw [hstack, hstack', hmatched.stack_eq]⟩

/-- **Roots with the same requests approximate the same blocks.** -/
theorem twins_approximateRoot (hm : m.Steady) {a b : Scheme R} (ha : m.Rooted s a)
    (hb : m.Rooted t b) (hrequests : a.requests = b.requests) :
    Action.Twins (m.Matched (s, t)) (m.approximateGroup m.root m.schedule a)
      (m.approximateGroup m.root m.schedule b) := by
  have hrole : a.role = b.role := by rw [ha.role_eq, hb.role_eq, hrequests]
  have hkeep {a c : Scheme R} {u s : ModelState R M} (hu : m.Rooted u a) (hs : m.Sound u s)
      (hc : c.role = a.role ∧ c.Current (m.groupTarget m.root m.schedule)) :
      m.Sound u (keepScheme m.root c s) := by
    refine hs.keepScheme (by rw [hu.place]; rfl) ⟨hc.1, ?_, hc.2⟩
    exact (congrArg Scheme.Role.policy hc.1).trans (congrArg Scheme.Role.policy hu.role_eq)
  have hlenient : a.role.policy ≠ .reject := by
    rw [ha.role_eq]
    exact hm.lenient
  exact twins_onGroup hm m.root m.schedule hlenient ⟨rfl, ha.current⟩ ⟨hrole.symm, hb.current⟩
    fun _ _ _ _ hc hd h => ⟨hkeep ha h.left hc, hkeep hb h.right (hrole ▸ hd), h.inputs_eq,
      h.outputs_eq, h.stack_eq⟩

omit [DirectSolver R] in
theorem twins_namedBlock {rel : ModelState R M → ModelState R M → Prop} (blocks : Jacobian R)
    (names : DriverVariable R × DriverVariable R) (q : Request R) :
    Action.Twins rel (namedBlock blocks names q) (namedBlock blocks names q) := by
  obtain ⟨o, w⟩ := names
  unfold namedBlock
  dsimp only
  split
  · exact Action.twins_bind (Action.twins_ofOutcome _) fun _ => Action.twins_pure _
  · exact Action.twins_fail _

/-- **Totals as the root approximates them** are the same in matched states. -/
theorem twins_approximatedTotals [StrictScalar R] (hm : m.Steady) (of wrt : List (DriverVariable R))
    (settings : Settings R) : Action.Twins m.RootMatched (m.approximatedTotals of wrt settings)
      (m.approximatedTotals of wrt settings) := by
  unfold approximatedTotals
  refine Action.twins_bind (Action.twins_ofOutcome _) fun requests => ?_
  refine Action.couples_get_bind fun s t hs => ?_
  obtain ⟨a, ha⟩ : ∃ a, m.Rooted s a := by
    obtain ⟨anchors, ⟨a₀, ha₀⟩, -, hmatched⟩ := hs
    exact hmatched.left.rooted ha₀
  obtain ⟨b, hb⟩ : ∃ b, m.Rooted t b := by
    obtain ⟨anchors, -, ⟨b₀, hb₀⟩, hmatched⟩ := hs
    exact hmatched.right.rooted hb₀
  dsimp only
  rw [ha.place, hb.place]
  simp only [Option.join_some, Option.getD_some]
  refine Action.couples_bind (couples_prepareRoot requests a b) (fun a' b' s' t' h => ?_) s t
    ⟨hs, ha, hb⟩
  obtain ⟨hrequests, hrequests', ha', hb', hmatched⟩ := h
  have hback {u v : ModelState R M} (h : m.Matched (s', t') u v) : m.RootMatched u v :=
    ⟨(s', t'), ⟨a', ha'⟩, ⟨b', hb'⟩, h⟩
  have hroot := twins_approximateRoot hm ha' hb' (hrequests.trans hrequests'.symm)
  have hwork := Action.twins_bind hroot fun blocks => Action.twins_bind
    (Action.twins_mapM fun (x : (DriverVariable R × DriverVariable R) × Request R)
      (_ : x ∈ (pairs of wrt).zip requests) => twins_namedBlock blocks x.1 x.2)
    fun found => Action.twins_pure (Table.ofList found)
  exact (hwork s' t' hmatched).mono (fun _ _ _ _ h => ⟨h.1, hback h.2⟩) fun _ _ h => hback h

end Root

section Chain

variable (hm : m.Steady)

include hm

/-- **Approximated groups** contribute the same blocks. -/
theorem twins_groupBlocks (g : ModelGroup R) (body : Schedule R) :
    Action.Twins (m.Matched (anchor, anchor)) (m.groupBlocks g body) (m.groupBlocks g body) := by
  unfold groupBlocks
  refine Action.twins_get_bind fun s t hs => ?_
  have hleft := hs.left.groups g.number
  have hright := hs.right.groups g.number
  dsimp only at hleft hright ⊢
  generalize s.schemes[g.number]?.join = x at hleft ⊢
  generalize t.schemes[g.number]?.join = y at hright ⊢
  cases hscheme : anchor.schemes[g.number]?.join with
  | none =>
    rw [hscheme] at hleft hright
    cases hleft
    cases hright
    exact Action.twins_pure _
  | some scheme =>
    rw [hscheme] at hleft hright
    cases hleft with
    | some ha =>
    cases hright with
    | some hb =>
      have hlenient : scheme.role.policy ≠ .reject := by
        rw [← ha.role_eq]
        exact ne_of_eq_of_ne ha.policy_eq hm.lenient
      have hresumes {b : Scheme R} (hb : b.role = scheme.role ∧
          b.Current (m.groupTarget m.root m.schedule)) :
          scheme.Resumes (m.groupTarget m.root m.schedule) m.policy b :=
        ⟨hb.1, (congrArg Scheme.Role.policy (hb.1.trans ha.role_eq.symm)).trans ha.policy_eq, hb.2⟩
      refine Action.twins_bind (twins_onGroup hm g body hlenient ⟨ha.role_eq, ha.current⟩
        ⟨hb.role_eq, hb.current⟩ fun a b s t ha hb hs => ?_) fun blocks => ?_
      · exact ⟨hs.left.keepScheme hscheme (hresumes ha), hs.right.keepScheme hscheme (hresumes hb),
          hs.inputs_eq, hs.outputs_eq, hs.stack_eq⟩
      · refine Action.twins_mapM fun e _ => ?_
        obtain ⟨⟨of, wrt⟩, block⟩ := e
        exact Action.twins_bind (Action.twins_ofOutcome _) fun _ =>
          Action.twins_bind (Action.twins_ofOutcome _) fun _ =>
            Action.twins_bind (Action.twins_ofOutcome _) fun _ => Action.twins_pure _

/-- **A component** contributes the same blocks: those that matter are linearized afresh. -/
theorem twins_componentBlocks (reached reaching : List Bool) (c : Nat) :
    Action.Twins (m.Matched anchors) (m.componentBlocks reached reaching c)
      (m.componentBlocks reached reaching c) := by
  unfold componentBlocks
  refine couples_component_bind fun component hcomponent => ?_
  dsimp only
  split
  · exact Action.twins_pure _
  · refine Action.couples_bind (couples_linearizeAt hm _ none) fun _ _ => ?_
    refine couples_kept_bind (fun s t hs => (hs component hcomponent).isSome_eq c)
      fun s t k l hs hk hl => ?_
    replace hs := hs component hcomponent
    -- whether a partial matters depends on its pair, so the blocks that are read were asked for
    have hblock {x : DeclaredPartial R × Bool} (hx : x ∈ component.partials.zip
        (component.partials.map fun p => (component.ends? p).any (onPath reached reaching)))
        (hon : x.2 = true) :
        k.partials.blocks.get? (x.1.of, x.1.wrt) = l.partials.blocks.get? (x.1.of, x.1.wrt) := by
      rw [← List.map_prod_left_eq_zip] at hx
      obtain ⟨p, -, rfl⟩ := List.mem_map.1 hx
      refine hs.agree k l hk hl _ fun on hrelevant i p' hp' hpair => ?_
      obtain ⟨hof, hwrt⟩ := Prod.mk.inj hpair
      obtain rfl := Option.some.inj hrelevant
      have hends : component.ends? p' = component.ends? p := by
        simp only [ModelComponent.ends?, hof, hwrt]
      rw [List.getD_eq_getElem?_getD, List.getElem?_map, hp', Option.map_some, Option.getD_some,
        hends]
      exact hon
    rw [List.filterMap_congr fun x hx => ?_]
    · refine Action.twins_mapM (fun x _ => ?_) s t hs.toMatched
      obtain ⟨of, wrt, block⟩ := x
      exact Action.twins_bind (Action.twins_ofOutcome _) fun _ => Action.twins_pure _
    · obtain ⟨p, on⟩ := x
      cases on with
      | false => rfl
      | true => simp only [hblock hx rfl]

theorem twins_collectBlocks (reached reaching : List Bool) (schedule : Schedule R) :
    Action.Twins (m.Matched (anchor, anchor)) (m.collectBlocks reached reaching schedule)
      (m.collectBlocks reached reaching schedule) := by
  induction schedule with
  | done => exact Action.twins_pure _
  | component c rest ih =>
    exact Action.twins_bind (twins_componentBlocks hm reached reaching c) fun _ =>
      Action.twins_bind ih fun _ => Action.twins_pure _
  | group g body rest ihBody ihRest =>
    have hrest (own : List (LinkBlock R)) : Action.Twins (m.Matched (anchor, anchor))
        (m.collectBlocks reached reaching rest >>= fun others => pure (own ++ others))
        (m.collectBlocks reached reaching rest >>= fun others => pure (own ++ others)) :=
      Action.twins_bind ihRest fun _ => Action.twins_pure _
    unfold collectBlocks
    dsimp only
    split
    · split
      · exact Action.twins_bind (twins_groupBlocks hm g body) hrest
      · exact Action.twins_bind (Action.twins_pure _) hrest
    · exact Action.twins_bind ihBody hrest

/-- **Totals by the chain rule** are the same in matched states. -/
theorem twins_chainRuleTotals (of wrt : List (DriverVariable R)) :
    Action.Twins (m.Matched (anchor, anchor)) (m.chainRuleTotals of wrt)
      (m.chainRuleTotals of wrt) := by
  unfold chainRuleTotals
  refine Action.twins_bind (Action.twins_mapM fun _ _ => Action.twins_ofOutcome _) fun responses => ?_
  refine Action.twins_bind (Action.twins_mapM fun _ _ => Action.twins_ofOutcome _) fun designs => ?_
  refine Action.twins_bind (Action.twins_ofOutcome _) fun reached => ?_
  refine Action.twins_bind (Action.twins_ofOutcome _) fun reaching => ?_
  refine Action.twins_bind (twins_collectBlocks hm reached reaching m.schedule) fun blocks => ?_
  exact Action.twins_bind (Action.twins_ofOutcome _) fun _ => Action.twins_pure _

end Chain

section Linked

variable (m) in
/-- Matched states of a model that started in `first`. Groups inside it keep the requests that they
had at the start; a root that approximates its derivatives has its own ones in either state. -/
def Linked (first s t : ModelState R M) : Prop :=
  if m.root.approximation.isSome then m.RootMatched s t else m.Matched (first, first) s t

variable {first : ModelState R M}

/-- What gives no new requests to the root has the same outcome in linked states. -/
theorem twins_linked {ε α : Type} {a b : Action (ModelState R M) ε α}
    (h : ∀ anchors, Action.Twins (m.Matched anchors) a b) : Action.Twins (m.Linked first) a b := by
  unfold Linked
  split
  · rintro s t ⟨anchors, ha, hb, hs⟩
    exact (h anchors s t hs).mono (fun _ _ _ _ h => ⟨h.1, anchors, ha, hb, h.2⟩)
      fun _ _ h => ⟨anchors, ha, hb, h⟩
  · exact h _

variable [StrictScalar R] (hm : m.Steady)

include hm

/-- **Total derivatives** are the same in linked states. -/
theorem twins_computeTotals (of wrt : List (DriverVariable R)) :
    Action.Twins (m.Linked first) (m.computeTotals of wrt) (m.computeTotals of wrt) := by
  unfold computeTotals
  dsimp only
  split
  on_goal 1 => refine Action.twins_bind (Action.twins_fail _) fun _ => ?_
  all_goals
    refine Action.twins_bind (Action.twins_forEach fun v _ =>
      Action.twins_discard (Action.twins_ofOutcome _)) fun _ => ?_
    unfold Linked
    cases m.root.approximation with
    | none => exact twins_chainRuleTotals hm of wrt
    | some settings => exact twins_approximatedTotals hm of wrt settings

theorem twins_computeScaledTotals (of wrt : List (DriverVariable R)) :
    Action.Twins (m.Linked first) (m.computeScaledTotals of wrt) (m.computeScaledTotals of wrt) :=
  Action.twins_bind (twins_computeTotals hm of wrt) fun _ => Action.twins_ofOutcome _

end Linked

section Check

variable {rel : ModelState R M → ModelState R M → Prop}

omit [DirectSolver R] in
theorem twins_requireValid (s : Settings R) :
    Action.Twins rel (requireValid s) (requireValid s) := by
  unfold requireValid
  split
  · exact Action.twins_pure _
  · exact Action.twins_fail _

omit [DirectSolver R] in
theorem twins_requireDifferent (scope wrt : String) (computed : Option (Settings R))
    (computedAt : Site R) (check : Settings R) (checkAt : Site R) :
    Action.Twins rel (requireDifferent scope wrt computed computedAt check checkAt)
      (requireDifferent scope wrt computed computedAt check checkAt) := by
  unfold requireDifferent
  split
  · exact Action.twins_fail _
  · exact Action.twins_pure _

omit [DirectSolver R] in
/-- The scheme of a check only makes notes of what lies outside patterns, and has no plan yet. -/
theorem ready_of_checkScheme {σ : Type} (T : Target R σ) {owner : String} {site : Site R}
    {requests : List (Request R)} {scheme : Scheme R}
    (h : (Outcome.ofExcept ((Scheme.empty owner site .ignore).addRequests requests)).mapError
      (ModelError.approximation (R := R)) = .ok scheme) :
    scheme.role.policy ≠ .reject ∧ scheme.Current T := by
  rw [Outcome.mapError_eq_ok, Outcome.ofExcept_eq_ok] at h
  refine ⟨?_, (Scheme.current_empty owner site .ignore).addRequests h⟩
  rw [Scheme.role_of_addRequests h]
  intro h
  cases h

variable (hm : m.Steady)

include hm

/-- **Fresh partials** are the same in matched states, and leave those that a component holds
alone. -/
theorem couples_freshPartials {c : Nat} {component : ModelComponent R M}
    (hcomponent : m.components[c]? = some component) {P : String × String → Prop}
    (check : Settings R) (site : Site R) :
    Action.Couples (m.Agreeing anchors c P) (fun j j' s t => j = j' ∧ m.Agreeing anchors c P s t)
      (m.Agreeing anchors c P) (m.freshPartials c component check site)
      (m.freshPartials c component check site) := by
  unfold freshPartials
  refine Action.couples_ofOutcome_bind (fun _ _ h => h) fun scheme hscheme => ?_
  refine Action.couples_get_bind fun s t hs => ?_
  rw [hs.inputs_eq, hs.outputs_eq, hs.stack_eq]
  obtain ⟨hlenient, hcurrent⟩ := ready_of_checkScheme (component.target false) hscheme
  let keep (_ : Scheme R) (diagnostics : Diagnostics) (s : ModelState R M) : ModelState R M :=
    { s with diagnostics := s.diagnostics.append diagnostics }
  have hkeep (a b : Scheme R) (d d' : Diagnostics) (μ ν : M) (n n' : Nat) (s t : ModelState R M)
      (h : m.Agreeing anchors c P s t) : m.Agreeing anchors c P
        (keep a d (s.modifyComponent c fun k => { k with memory := μ, runs := n }))
        (keep b d' (t.modifyComponent c fun k => { k with memory := ν, runs := n' })) := by
    have hran : m.Agreeing anchors c P
        (s.modifyComponent c fun k => { k with memory := μ, runs := n })
        (t.modifyComponent c fun k => { k with memory := ν, runs := n' }) :=
      h.remember (fun _ => ⟨rfl, rfl⟩) fun _ => ⟨rfl, rfl⟩
    exact hran.congr rfl rfl hran.inputs_eq hran.outputs_eq hran.stack_eq
  refine (couples_onComponent hm (List.mem_of_getElem? hcomponent) _ _ _ hlenient ⟨rfl, hcurrent⟩
    ⟨rfl, hcurrent⟩ _ (fun s t (h : m.Agreeing anchors c P s t) => h.isSome_eq c)
    (fun a b d d' μ ν n n' s t _ _ h => hkeep a b d d' μ ν n n' s t h) s t hs).mono
      (fun _ _ _ _ h => ⟨h.1.1, h.2⟩) fun _ _ h => h

theorem couples_comparePartials {c : Nat} {component : ModelComponent R M}
    (hcomponent : m.components[c]? = some component) {P : String × String → Prop}
    (hP : ∀ pair, P pair) (fresh : Jacobian R) :
    Action.Couples (m.Agreeing anchors c P) (fun x y s t => x = y ∧ m.Matched anchors s t)
      (m.Matched anchors) (comparePartials c component fresh)
      (comparePartials c component fresh) := by
  refine couples_kept_bind (fun s t hs => hs.isSome_eq c) fun s t k l hs hk hl => ?_
  rw [hs.blocks_eq hm hcomponent hP hk hl]
  refine Action.twins_mapM (fun x _ => ?_) s t hs.toMatched
  obtain ⟨⟨of, wrt⟩, block⟩ := x
  exact Action.twins_bind (Action.twins_ofOutcome _) fun fresh =>
    Action.twins_bind (Action.twins_optionMapM fun b => Action.twins_ofOutcome _) fun _ =>
      Action.twins_ofOutcome _

theorem twins_checkComponent {c : Nat} {component : ModelComponent R M}
    (hcomponent : m.components[c]? = some component) (settings : CheckSettings R) :
    Action.Twins (m.Matched anchors) (m.checkComponent c component settings)
      (m.checkComponent c component settings) := by
  unfold checkComponent
  split
  · exact Action.twins_pure _
  · refine Action.twins_bind (twins_requireValid _) fun _ => ?_
    refine Action.twins_bind (Action.twins_forEach fun q _ =>
      twins_requireDifferent _ _ _ _ _ _) fun _ => ?_
    refine Action.couples_bind (couples_linearizeAt hm none none) fun _ _ => ?_
    intro s t hs
    refine Action.couples_bind ((couples_freshPartials hm hcomponent _ _).mono (fun _ _ h => h)
      (fun _ _ _ _ h => h) fun _ _ h => h.toMatched) (fun fresh fresh' => ?_) s t
        (hs component hcomponent)
    rintro s t ⟨rfl, hs⟩
    refine Action.couples_bind (couples_comparePartials hm hcomponent
      (fun _ _ hon => by cases hon) fresh) (fun found found' => ?_) s t hs
    rintro s t ⟨rfl, hs⟩
    exact .value ⟨rfl, hs⟩

/-- **Checks of partials** answer the same in matched states. -/
theorem twins_checkPartials (settings : CheckSettings R) :
    Action.Twins (m.Matched anchors) (m.checkPartials settings) (m.checkPartials settings) := by
  refine Action.twins_bind (Action.twins_mapM fun x hx => ?_) fun _ => Action.twins_pure _
  obtain ⟨component, c⟩ := x
  exact twins_checkComponent hm (List.mem_zipIdx_iff_getElem?.1 (List.mem_filter.1 hx).1) settings

/-- **Checks of totals** answer the same in linked states. -/
theorem twins_checkTotals [StrictScalar R] {first : ModelState R M} (of wrt : List (DriverVariable R))
    (settings : CheckSettings R) : Action.Twins (m.Linked first) (m.checkTotals of wrt settings)
      (m.checkTotals of wrt settings) := by
  unfold checkTotals
  refine Action.twins_bind (twins_requireValid _) fun _ => ?_
  refine Action.twins_bind (twins_requireDifferent _ _ _ _ _ _) fun _ => ?_
  refine Action.twins_bind (twins_computeTotals hm of wrt) fun totals => ?_
  refine Action.twins_bind (Action.twins_ofOutcome _) fun requests => ?_
  refine Action.couples_ofOutcome_bind (fun _ _ h => h) fun scheme hscheme => ?_
  obtain ⟨hlenient, hcurrent⟩ := ready_of_checkScheme (m.groupTarget m.root m.schedule) hscheme
  refine Action.twins_bind (twins_linked fun anchors => twins_onGroup hm m.root m.schedule hlenient
    ⟨rfl, hcurrent⟩ ⟨rfl, hcurrent⟩ fun _ _ _ _ _ _ h => h) fun blocks => ?_
  refine Action.twins_bind (Action.twins_mapM fun x _ => ?_) fun _ => Action.twins_pure _
  obtain ⟨of, wrt, block⟩ := x
  exact Action.twins_bind (Action.twins_ofOutcome _) fun _ => Action.twins_ofOutcome _

end Check

end Model

end Sensitivity
