import Sensitivity.Component.Expression
import Sensitivity.Proofs.Model.Component
import Sensitivity.Proofs.Model.Holding

/-!
# Components whose derivatives depend on the point

Independent variables and components given by expressions have no state
(`Component.stateless_independent`, `ExpressionComponent.stateless`), and make the same writes in
every call (`ModelComponent.rewrites_of_independent`, `ModelComponent.rewrites_of_expressions`): the
first make none, the others write the values of one pair after another until one of them cannot be
computed or does not fit.

Whether values fit depends on the form of a block alone, and neither these writes nor approximations
change the form of a block.
-/

namespace Sensitivity

variable {R M : Type}

theorem Component.stateless_independent [Scalar R] (memory : M)
    (outputs : List (String × VariableSpec R)) : (independent memory outputs).Stateless where
  real _ _ _ _ := rfl
  complex _ _ _ _ := rfl

theorem ModelComponent.rewrites_of_independent [Scalar R] {c : ModelComponent R M} {memory : M}
    {outputs : List (String × VariableSpec R)} (hc : c.component = .independent memory outputs) :
    c.Rewrites [] := by
  intro x
  refine ⟨[], .ok (), List.prefix_rfl, fun _ => rfl, fun μ p _ => ⟨p, rfl, ?_⟩⟩
  rw [hc]
  exact ⟨rfl, rfl⟩

namespace Partials

/-- The forms of all blocks. -/
def form (p : Partials R) (pair : String × String) : Option (Nat × Nat × Option (Pattern × Nat)) :=
  (p.blocks.get? pair).map Block.form

/-- A write of values or of a block in the same form leaves all forms as they are. -/
theorem form_of_write {p p' : Partials R} {w : (String × String) × BlockWrite R}
    (h : p.write w = .ok p')
    (hw : ∀ old new, p.blocks.get? w.1 = some old → w.2.result? old = some new →
      new.form = old.form) : p'.form = p.form := by
  funext pair
  obtain ⟨old, new, hold, hnew, rfl⟩ := write_eq_ok.1 h
  unfold form
  rw [Table.get?_insert]
  split
  · rename_i hpair
    rw [hpair, hold, Option.map_some, Option.map_some, hw old new hold hnew]
  · rfl

/-- Whether values fit depends on the form of the block. -/
theorem set_cases (forms : String × String → Option (Nat × Nat × Option (Pattern × Nat)))
    (of wrt : String) (flat : Array R) :
    (∃ e, ∀ p : Partials R, p.form = forms → p.set of wrt flat = .error e) ∨
      ∀ p : Partials R, p.form = forms → ∃ p', p.set of wrt flat = .ok p' ∧ p'.form = forms := by
  cases hform : forms (of, wrt) with
  | none =>
    refine .inl ⟨.unknownVariable (DeclarationError.partialsName of wrt), fun p hp => ?_⟩
    have hnone : p.blocks.get? (of, wrt) = none := by
      rw [← hp] at hform
      exact Option.map_eq_none_iff.1 hform
    simp only [set, block, hnone, bind, Except.bind]
  | some form =>
    have hget {p : Partials R} (hp : p.form = forms) :
        ∃ b, p.blocks.get? (of, wrt) = some b ∧ b.form = form := by
      rw [← hp] at hform
      exact Option.map_eq_some_iff.1 hform
    by_cases hblock : ∃ b : Block R, b.form = form
    · obtain ⟨b, rfl⟩ := hblock
      cases hset : b.setValues flat with
      | error mismatch =>
        refine .inl ⟨.shapeMismatch mismatch, fun p hp => ?_⟩
        obtain ⟨own, hown, hform⟩ := hget hp
        simp only [set, block, hown, bind, Except.bind, Block.setValues_congr hform, hset]
        rfl
      | ok b' =>
        refine .inr fun p hp => ?_
        obtain ⟨own, hown, hform⟩ := hget hp
        have hwrite : p.write ((of, wrt), .values flat) = .ok ⟨p.blocks.insert (of, wrt) b'⟩ := by
          refine write_eq_ok.2 ⟨own, b', hown, ?_, rfl⟩
          rw [BlockWrite.result?, Block.setValues_congr hform, hset]
          rfl
        refine ⟨_, hwrite, (form_of_write hwrite fun old new _ hnew => ?_).trans hp⟩
        exact Block.form_of_setValues (Except.eq_ok_of_toOption hnew)
    · refine .inr fun p hp => ?_
      obtain ⟨own, -, hown⟩ := hget hp
      exact absurd ⟨own, hown⟩ hblock

end Partials

namespace ExpressionComponent

variable [Elementary R] (e : ExpressionComponent R)

/-- What a component given by expressions computes depends on its inputs and outputs alone. -/
theorem stateless : e.toComponent.Stateless where
  real _ _ _ _ := rfl
  complex _ _ _ _ := rfl

/-- The values that a rule writes do not depend on the blocks. -/
theorem exists_fill_eq (l : Layout) (x : Array R) (rule : AnalyticRule R) :
    ∃ values : Outcome (DeclarationError R) (Array R), ∀ p, fill l x p rule =
      values >>= fun flat => Outcome.ofExcept (p.set rule.of rule.wrt flat) := by
  cases hvalues : rule.values.mapM fun e => e.eval (⟨l.inputs, x⟩ : NamedValues R) ⟨∅, #[]⟩ with
  | none => exact ⟨.error .breach, fun p => by simp only [fill, hvalues]; rfl⟩
  | some values =>
    cases hsingle : rule.single with
    | false =>
      refine ⟨.ok values.toArray, fun p => ?_⟩
      simp only [fill, hvalues, hsingle]
      rfl
    | true =>
      cases values with
      | nil => exact ⟨.error .breach, fun p => by simp only [fill, hvalues, hsingle]; rfl⟩
      | cons v _ => exact ⟨.ok #[v], fun p => by simp only [fill, hvalues, hsingle]; rfl⟩

/-- Whether a rule can be carried out depends on the inputs and the forms of the blocks. -/
theorem fill_cases (l : Layout) (x : Array R) (rule : AnalyticRule R)
    (forms : String × String → Option (Nat × Nat × Option (Pattern × Nat))) :
    (∃ f, ∀ p, p.form = forms → fill l x p rule = .error f) ∨
      ∃ flat, ∀ p, p.form = forms → ∃ p', p.set rule.of rule.wrt flat = .ok p' ∧
        fill l x p rule = .ok p' ∧ p'.form = forms := by
  obtain ⟨values, hfill⟩ := exists_fill_eq l x rule
  cases values with
  | error f => exact .inl ⟨f, fun p _ => hfill p⟩
  | ok flat =>
    have hfill (p : Partials R) : fill l x p rule =
      Outcome.ofExcept (p.set rule.of rule.wrt flat) := hfill p
    rcases Partials.set_cases forms rule.of rule.wrt flat with ⟨e, he⟩ | hok
    · exact .inl ⟨.error e, fun p hp => by rw [hfill, he p hp]; rfl⟩
    · refine .inr ⟨flat, fun p hp => ?_⟩
      obtain ⟨p', hset, hp'⟩ := hok p hp
      exact ⟨p', hset, by rw [hfill, hset]; rfl, hp'⟩

/-- Filling in by some rules. -/
def fillAll (l : Layout) (x : Array R) (rules : List (AnalyticRule R)) :
    Action (Unit × Partials R) (DeclarationError R) Unit :=
  Action.forEach rules fun rule => do
    let (m, p) ← get
    set (m, ← Action.ofOutcome (fill l x p rule))

/-- Filling in ends at a rule that cannot be carried out, and goes on after one that can. -/
theorem perform_fillAll_cons (l : Layout) (x : Array R) (rule : AnalyticRule R)
    (rest : List (AnalyticRule R)) (μ : Unit) (p : Partials R) :
    (∀ f, fill l x p rule = .error f →
        (fillAll l x (rule :: rest)).perform (μ, p) = (.error f, μ, p)) ∧
      ∀ p', fill l x p rule = .ok p' →
        (fillAll l x (rule :: rest)).perform (μ, p) = (fillAll l x rest).perform (μ, p') := by
  have hcons : fillAll l x (rule :: rest) =
      ((get : Action (Unit × Partials R) (DeclarationError R) _) >>= fun s =>
        Action.ofOutcome (fill l x s.2 rule) >>= fun p => set (s.1, p)) >>= fun _ =>
          fillAll l x rest := rfl
  rw [hcons, Action.perform_bind, Action.perform_get_bind, Action.perform_bind,
    Action.perform_ofOutcome]
  constructor
  · intro f hf
    simp only [hf]
  · intro p' hp'
    simp only [hp', Action.perform_set]

/-- The pairs that some rules write to. -/
def targets (rules : List (AnalyticRule R)) : List ((String × String) × Bool) :=
  rules.map fun rule => ((rule.of, rule.wrt), false)

/-- **Filling in makes the same writes**, whatever the values of the blocks are, and leaves their
forms alone. -/
theorem writes_of_fillAll (l : Layout) (x : Array R) (rules : List (AnalyticRule R))
    (forms : String × String → Option (Nat × Nat × Option (Pattern × Nat))) :
    ∃ (ws : List ((String × String) × BlockWrite R)) (answer : Outcome (DeclarationError R) Unit),
      (ws.map fun w => (w.1, w.2.isBlock)) <+: targets rules ∧
      (answer = .ok () → ws.length = (targets rules).length) ∧
      ∀ μ p, p.form = forms → ∃ p', ws.foldlM Partials.write p = .ok p' ∧
        ((fillAll l x rules).perform (μ, p)).1 = answer ∧
        ((fillAll l x rules).perform (μ, p)).2.2 = p' ∧ p'.form = forms := by
  induction rules with
  | nil =>
    exact ⟨[], .ok (), List.prefix_rfl, fun _ => rfl, fun μ p hp => ⟨p, rfl, rfl, rfl, hp⟩⟩
  | cons rule rest ih =>
    rcases fill_cases l x rule forms with ⟨f, hf⟩ | ⟨flat, hflat⟩
    · refine ⟨[], .error f, List.nil_prefix, fun h => (by cases h), fun μ p hp => ⟨p, rfl, ?_⟩⟩
      rw [(perform_fillAll_cons l x rule rest μ p).1 f (hf p hp)]
      exact ⟨rfl, rfl, hp⟩
    · obtain ⟨ws, answer, htargets, hlength, hrest⟩ := ih
      refine ⟨((rule.of, rule.wrt), .values flat) :: ws, answer, ?_, fun h => ?_, fun μ p hp => ?_⟩
      · exact List.cons_prefix_cons.2 ⟨rfl, htargets⟩
      · rw [List.length_cons, hlength h]
        rfl
      · obtain ⟨p', hset, hfill, hp'⟩ := hflat p hp
        obtain ⟨p'', hwrites, hcall⟩ := hrest μ p' hp'
        rw [(perform_fillAll_cons l x rule rest μ p).2 p' hfill]
        refine ⟨p'', ?_, hcall⟩
        rw [List.foldlM_cons]
        exact Except.bind_eq_ok.2 ⟨p', hset, hwrites⟩

end ExpressionComponent

namespace ModelComponent

variable [Elementary R] {c : ModelComponent R Unit} {e : ExpressionComponent R}

/-- The blocks that a component given by expressions can hold are in the forms of the start. -/
theorem form_of_holds (hc : c.component = e.toComponent) {p : Partials R} (h : c.Holds p) :
    p.form = c.initial.form := by
  induction h with
  | start => rfl
  | call x μ _ _ ih =>
    obtain ⟨ws, answer, -, -, hcall⟩ :=
      ExpressionComponent.writes_of_fillAll e.layout x e.analytic c.initial.form
    obtain ⟨p', -, -, hp', hform⟩ := hcall μ _ ih
    rw [hc]
    exact (congrArg Partials.form hp').trans hform
  | @store p p' pair old b _ _ hold hform hinsert ih =>
    have hwrite : p.write (pair, .block b) = .ok p' := hinsert
    refine (Partials.form_of_write hwrite fun own new hown hnew => ?_).trans ih
    have hsame := congrFun ih pair
    simp only [Partials.form, hown, hold, Option.map_some, Option.some.injEq] at hsame
    simp only [BlockWrite.result?, Option.ite_none_right_eq_some, Option.some.injEq] at hnew
    rw [← hnew.2, hform, hsame]

/-- **A component given by expressions makes the same writes in every call.** -/
theorem rewrites_of_expressions (hc : c.component = e.toComponent) :
    c.Rewrites (ExpressionComponent.targets e.analytic) := by
  intro x
  obtain ⟨ws, answer, htargets, hlength, hcall⟩ :=
    ExpressionComponent.writes_of_fillAll e.layout x e.analytic c.initial.form
  refine ⟨ws, answer, htargets, hlength, fun μ p hp => ?_⟩
  obtain ⟨p', hwrites, hanswer, hp', -⟩ := hcall μ p (form_of_holds hc hp)
  rw [hc]
  exact ⟨p', hwrites, hanswer, hp'⟩

end ModelComponent

end Sensitivity
