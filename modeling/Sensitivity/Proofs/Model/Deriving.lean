import Sensitivity.Check
import Sensitivity.Proofs.Breach

/-!
# What derivatives are computed with

Total derivatives, and checks of derivatives, are put together from a few parts: linearizing
components, approximating across groups, and fresh approximations to compare with. Everything else
reads and combines what these found. A property of states that none of the parts ends is not ended
by any of the whole (`Model.Undisturbed`), and where it is said what a breach of a part leaves, it is
known what a breach of the whole leaves.
-/

namespace Sensitivity

variable {R M : Type} [Scalar R]

namespace Model

section Parts

variable (m : Model R M) {P Q : ModelState R M → Prop}

omit [Scalar R] in
/-- Setting the values of a variable writes them. -/
theorem sustains_setValue_of_write
    (hwrite : ∀ {s} kind span values, P s → P (s.setVector kind ((s.vector kind).writeReal span values)))
    (name : String) (values : List R) : (m.setValue name values).Sustains P Q := by
  have hmodify (v : ModelVariable R) : Action.Sustains P Q
      (modify fun s => s.setVector v.kind ((s.vector v.kind).writeReal v.span values.toArray) :
        ModelWork R M Unit) := Action.sustains_modify fun _ => hwrite _ _ _
  unfold setValue
  refine Action.sustains_bind (Action.sustains_ofOutcome _) fun v => ?_
  dsimp only
  split
  · exact Action.sustains_bind (Action.sustains_fail _) fun _ => hmodify v
  · exact hmodify v

/-- A perturbation replaces the values of the variables of one kind. -/
theorem sustains_perturb_of_set (hset : ∀ {s} kind v, P s → P (s.setVector kind v))
    (label name : String) (index : Nat) (delta : Delta R) :
    (m.perturb label name index delta).Sustains P Q := by
  unfold perturb
  refine Action.sustains_get_bind fun s hs => ?_
  suffices h : Action.Sustains P Q _ from h s hs
  refine Action.sustains_bind (Action.sustains_ofOutcome _) fun found => ?_
  exact Action.sustains_bind (Action.sustains_ofOutcome _) fun v => Action.sustains_set (hset _ v hs)

theorem sustains_denseOf (b : Block R) :
    (denseOf b : ModelWork R M (DenseMatrix R)).Sustains P Q := Action.sustains_ofOutcome _

/-- Reading the blocks of a component does no more than linearizing it. -/
theorem sustains_componentBlocks {c : Nat}
    (h : ∀ relevant, (m.linearizeAt c relevant none).Sustains P Q) (reached reaching : List Bool) :
    (m.componentBlocks reached reaching c).Sustains P Q := by
  unfold componentBlocks
  refine Action.sustains_bind (Action.sustains_ofOutcome _) fun component => ?_
  dsimp only
  split
  · exact Action.sustains_pure _
  · refine Action.sustains_bind (h _) fun _ => ?_
    refine Action.sustains_bind (Action.sustains_read _) fun kept => ?_
    exact Action.sustains_mapM fun _ =>
      Action.sustains_bind (sustains_denseOf _) fun _ => Action.sustains_pure _

theorem preserves_componentBlocks {c : Nat}
    (h : ∀ relevant, (m.linearizeAt c relevant none).Preserves P) (reached reaching : List Bool) :
    (m.componentBlocks reached reaching c).Preserves P :=
  (m.sustains_componentBlocks (fun relevant => (h relevant).sustains) reached reaching).preserves

theorem sustains_namedBlock (blocks : Jacobian R) (names : DriverVariable R × DriverVariable R)
    (q : Request R) :
    (namedBlock blocks names q : ModelWork R M ((String × String) × DenseMatrix R)).Sustains
      P Q := by
  unfold namedBlock
  dsimp only
  split
  · exact Action.sustains_bind (sustains_denseOf _) fun _ => Action.sustains_pure _
  · exact Action.sustains_fail _

theorem sustains_requireValid (s : Settings R) :
    (requireValid s : ModelWork R M Unit).Sustains P Q := by
  unfold requireValid
  split
  · exact Action.sustains_pure _
  · exact Action.sustains_fail _

theorem sustains_requireDifferent (scope wrt : String) (computed : Option (Settings R))
    (computedAt : Site R) (check : Settings R) (checkAt : Site R) :
    (requireDifferent scope wrt computed computedAt check checkAt :
      ModelWork R M Unit).Sustains P Q := by
  unfold requireDifferent
  split
  · exact Action.sustains_fail _
  · exact Action.sustains_pure _

theorem sustains_comparePartials (c : Nat) (component : ModelComponent R M) (fresh : Jacobian R) :
    (comparePartials c component fresh : ModelWork R M (List (Comparison R))).Sustains P Q := by
  unfold comparePartials
  refine Action.sustains_bind (Action.sustains_read _) fun kept => ?_
  refine Action.sustains_mapM fun ((of, wrt), block) => ?_
  refine Action.sustains_bind (sustains_denseOf block) fun fresh => ?_
  exact Action.sustains_bind (Action.sustains_optionMapM fun b => sustains_denseOf b) fun _ =>
    Action.sustains_ofOutcome _

section Check

variable (hlinearize : ∀ c relevant, (m.linearizeAt c relevant none).Sustains P Q)
  (hfresh : ∀ c component check site, (m.freshPartials c component check site).Sustains P Q)

include hlinearize hfresh

/-- Checking a component linearizes it and approximates its partials afresh. -/
theorem sustains_checkComponent (c : Nat) (component : ModelComponent R M)
    (settings : CheckSettings R) : (m.checkComponent c component settings).Sustains P Q := by
  unfold checkComponent
  split
  · exact Action.sustains_pure _
  · refine Action.sustains_bind (sustains_requireValid _) fun _ => ?_
    refine Action.sustains_bind (Action.sustains_forEach fun p =>
      sustains_requireDifferent _ _ _ _ _ _) fun _ => ?_
    refine Action.sustains_bind (hlinearize c none) fun _ => ?_
    refine Action.sustains_bind (hfresh c component _ _) fun fresh => ?_
    exact Action.sustains_bind (sustains_comparePartials c component fresh) fun _ =>
      Action.sustains_pure _

theorem sustains_checkPartials (settings : CheckSettings R) :
    (m.checkPartials settings).Sustains P Q :=
  Action.sustains_bind (Action.sustains_mapM fun (component, c) =>
    m.sustains_checkComponent hlinearize hfresh c component settings) fun _ =>
      Action.sustains_pure _

end Check

variable [DirectSolver R]

/-- The totals of the root are approximated with the scheme that was prepared for them. -/
theorem sustains_approximatedTotals
    (hprepare : ∀ scheme requests, (m.prepareRoot scheme requests).Sustains P Q)
    (happroximate : ∀ scheme, (m.approximateGroup m.root m.schedule scheme).Sustains P Q)
    (of wrt : List (DriverVariable R)) (settings : Settings R) :
    (m.approximatedTotals of wrt settings).Sustains P Q := by
  unfold approximatedTotals
  refine Action.sustains_bind (Action.sustains_ofOutcome _) fun requests => ?_
  refine Action.sustains_bind Action.sustains_get fun s => ?_
  refine Action.sustains_bind (hprepare _ requests) fun scheme => ?_
  refine Action.sustains_bind (happroximate scheme) fun blocks => ?_
  exact Action.sustains_bind (Action.sustains_mapM fun (names, q) =>
    sustains_namedBlock blocks names q) fun _ => Action.sustains_pure _

end Parts

variable [DirectSolver R]

/-- A property of states that no part of a computation of derivatives ends, unless it breaches and
leaves a state with `Q`. -/
structure Undisturbed (m : Model R M) (P Q : ModelState R M → Prop) : Prop where
  linearizeAt : ∀ c relevant, (m.linearizeAt c relevant none).Sustains P Q
  freshPartials : ∀ c component check site, (m.freshPartials c component check site).Sustains P Q
  /-- A group inside the model is approximated with the scheme that it has. -/
  approximateGroup : ∀ {s g scheme} body, P s → s.schemes[g.number]?.join = some scheme →
    Action.Ends P Q ((m.approximateGroup g body scheme).perform s)
  approximatedTotals : ∀ of wrt settings, m.root.approximation = some settings →
    (m.approximatedTotals of wrt settings).Sustains P Q
  approximateAfresh : ∀ g body scheme, (m.approximateAfresh g body scheme).Sustains P Q

namespace Undisturbed

variable {m : Model R M} {P Q : ModelState R M → Prop} (hm : m.Undisturbed P Q)

include hm

theorem groupBlocks (g : ModelGroup R) (body : Schedule R) :
    (m.groupBlocks g body).Sustains P Q := by
  refine Action.sustains_get_bind fun s hs => ?_
  dsimp only
  split
  · exact .inl hs
  · rename_i scheme hscheme
    refine Action.ends_bind (hm.approximateGroup body hs hscheme) fun blocks t _ ht => ?_
    suffices h : Action.Sustains P Q _ from h t ht
    refine Action.sustains_mapM fun ((of, wrt), block) => ?_
    exact Action.sustains_bind (Action.sustains_ofOutcome _) fun _ =>
      Action.sustains_bind (Action.sustains_ofOutcome _) fun _ =>
        Action.sustains_bind (sustains_denseOf block) fun _ => Action.sustains_pure _

/-- Collecting blocks does no more than linearizing components and approximating across groups. -/
theorem collectBlocks (reached reaching : List Bool) (schedule : Schedule R) :
    (m.collectBlocks reached reaching schedule).Sustains P Q := by
  induction schedule with
  | done => exact Action.sustains_pure _
  | component c rest ih =>
    exact Action.sustains_bind (m.sustains_componentBlocks (hm.linearizeAt c) reached reaching)
      fun _ => Action.sustains_bind ih fun _ => Action.sustains_pure _
  | group g body rest ihBody ihRest =>
    have hrest (own : List (LinkBlock R)) : (m.collectBlocks reached reaching rest >>=
        fun blocks => pure (own ++ blocks)).Sustains P Q :=
      Action.sustains_bind ihRest fun _ => Action.sustains_pure _
    unfold Model.collectBlocks
    dsimp only
    split
    · split
      · exact Action.sustains_bind (hm.groupBlocks g body) fun own => hrest own
      · exact Action.sustains_bind (Action.sustains_pure _) fun own => hrest own
    · exact Action.sustains_bind ihBody fun own => hrest own

theorem chainRuleTotals (of wrt : List (DriverVariable R)) :
    (m.chainRuleTotals of wrt).Sustains P Q := by
  unfold Model.chainRuleTotals
  refine Action.sustains_bind (Action.sustains_mapM fun _ => Action.sustains_ofOutcome _)
    fun responses => ?_
  refine Action.sustains_bind (Action.sustains_mapM fun _ => Action.sustains_ofOutcome _)
    fun designs => ?_
  refine Action.sustains_bind (Action.sustains_ofOutcome _) fun reached => ?_
  refine Action.sustains_bind (Action.sustains_ofOutcome _) fun reaching => ?_
  refine Action.sustains_bind (hm.collectBlocks reached reaching _) fun blocks => ?_
  exact Action.sustains_bind (Action.sustains_ofOutcome _) fun x => Action.sustains_pure _

/-- **Total derivatives** do no more than their parts. -/
theorem computeTotals (of wrt : List (DriverVariable R)) :
    (m.computeTotals of wrt).Sustains P Q := by
  have hselections : (Action.forEach (of ++ wrt) fun v => do
      discard <| Action.ofOutcome (.ofExcept (m.selection v)) : ModelWork R M Unit).Sustains P Q :=
    Action.sustains_forEach fun v => Action.sustains_discard (Action.sustains_ofOutcome _)
  unfold Model.computeTotals
  dsimp only
  split
  on_goal 1 => refine Action.sustains_bind (Action.sustains_fail _) fun _ => ?_
  all_goals
    refine Action.sustains_bind hselections fun _ => ?_
    split
    · exact hm.approximatedTotals of wrt _ ‹_›
    · exact hm.chainRuleTotals of wrt

theorem computeScaledTotals (of wrt : List (DriverVariable R)) :
    (m.computeScaledTotals of wrt).Sustains P Q :=
  Action.sustains_bind (hm.computeTotals of wrt) fun _ => Action.sustains_ofOutcome _

/-- **Checking partial derivatives** does no more than its parts. -/
theorem checkPartials (settings : CheckSettings R) : (m.checkPartials settings).Sustains P Q :=
  m.sustains_checkPartials hm.linearizeAt hm.freshPartials settings

/-- **Checking total derivatives** does no more than its parts. -/
theorem checkTotals (of wrt : List (DriverVariable R)) (settings : CheckSettings R) :
    (m.checkTotals of wrt settings).Sustains P Q := by
  unfold Model.checkTotals
  refine Action.sustains_bind (sustains_requireValid _) fun _ => ?_
  refine Action.sustains_bind (sustains_requireDifferent _ _ _ _ _ _) fun _ => ?_
  refine Action.sustains_bind (hm.computeTotals of wrt) fun totals => ?_
  refine Action.sustains_bind (Action.sustains_ofOutcome _) fun requests => ?_
  refine Action.sustains_bind (Action.sustains_ofOutcome _) fun scheme => ?_
  refine Action.sustains_bind (hm.approximateAfresh _ _ scheme) fun blocks => ?_
  refine Action.sustains_bind (Action.sustains_mapM fun (of, wrt, block) => ?_) fun _ =>
    Action.sustains_pure _
  exact Action.sustains_bind (sustains_denseOf block) fun _ => Action.sustains_ofOutcome _

end Undisturbed

end Model

end Sensitivity
