import Sensitivity.Problem
import Sensitivity.Proofs.Action

/-!
# How often a problem can be set up

A problem takes calls in any order; an error of one is an answer, and the next one follows
(`Problem.after`). The first setup is judged on its own arguments: it answers what building the model
from the system and the driver variables registered so far answers (`Problem.after_of_fresh`). It
takes the system along, whether or not it succeeds, and no other call touches what it leaves
(`Problem.Call.spent`). So every later setup is told that the problem is already set up, while the
problem has a model only if the first setup succeeded (`Problem.setup_judged`); after a first setup
that failed, both are denied (`Problem.exists_lost_system`).
-/

namespace Sensitivity

namespace Outcome

variable {ε ε' α β : Type} {e : ε}

/-- An outcome that does not report an error. -/
def Spares (e : ε) (o : Outcome ε α) : Prop := o ≠ fail e

theorem spares_ok (a : α) : Spares e (.ok a) := nofun

theorem spares_fail {e' : ε} (h : e' ≠ e) : Spares e (fail e' : Outcome ε α) :=
  fun he => h (Fault.error.inj (Except.error.inj he))

theorem spares_fail_bind {e' : ε} (h : e' ≠ e) (f : α → Outcome ε β) :
    Spares e (fail e' >>= f) := spares_fail h

theorem spares_ofOption (o : Option α) : Spares e (ofOption o) := by
  cases o <;> exact nofun

theorem spares_ofExcept {x : Except ε α} (h : x ≠ .error e) : Spares e (ofExcept x) := by
  cases x with
  | ok a => exact nofun
  | error e' => exact spares_fail fun he => h (congrArg _ he)

theorem spares_mapError {f : ε' → ε} (h : ∀ e', f e' ≠ e) (o : Outcome ε' α) :
    Spares e (o.mapError f) := by
  rcases o with (e' | _) | a
  · exact spares_fail (h e')
  · exact nofun
  · exact nofun

theorem Spares.bind {o : Outcome ε α} {f : α → Outcome ε β} (ho : Spares e o)
    (hf : ∀ a, Spares e (f a)) : Spares e (o >>= f) := by
  intro he
  rcases Except.bind_eq_error.1 he with he | ⟨a, -, he⟩
  · exact ho he
  · exact hf a he

/-- A loop over checks. -/
theorem spares_forIn {f : α → Outcome ε (ForInStep PUnit)} (hf : ∀ x, Spares e (f x))
    (xs : List α) : Spares e (forIn xs PUnit.unit fun x _ => f x) := by
  induction xs with
  | nil => exact spares_ok _
  | cons x rest ih =>
    rw [List.forIn_cons]
    refine (hf x).bind fun step => ?_
    cases step with
    | done _ => exact spares_ok _
    | yield _ => exact ih

end Outcome

namespace Flattening

variable {R M : Type}

theorem spares_addVariable (f : Flattening R M) (path : String) (kind : VariableKind) (owner : Nat)
    (name : String) (spec : VariableSpec R) :
    (f.addVariable path kind owner name spec).Spares (.setup .alreadySetUp) := by
  unfold addVariable
  dsimp only
  split
  · refine Outcome.spares_fail_bind ?_ _
    exact nofun
  · exact (Outcome.spares_ofOption _).bind fun _ => Outcome.spares_ok _

theorem spares_addVariables (path : String) (kind : VariableKind) (owner : Nat)
    (specs : List (String × VariableSpec R)) (f : Flattening R M) :
    (addVariables path kind owner specs f).Spares (.setup .alreadySetUp) := by
  induction specs generalizing f with
  | nil => exact Outcome.spares_ok _
  | cons e rest ih =>
    obtain ⟨name, spec⟩ := e
    exact (spares_addVariable f path kind owner name spec).bind fun _ =>
      (ih _).bind fun _ => Outcome.spares_ok _

theorem spares_addComponent (f : Flattening R M) (path : String) (component : Component R M) :
    (f.addComponent path component).Spares (.setup .alreadySetUp) := by
  unfold addComponent
  refine (Outcome.spares_mapError nofun _).bind fun d => ?_
  refine (Outcome.spares_mapError nofun _).bind fun partials => ?_
  refine (spares_addVariables _ _ _ _ _).bind fun inputs => ?_
  refine (spares_addVariables _ _ _ _ _).bind fun outputs => ?_
  exact (Outcome.spares_ofOption _).bind fun _ => Outcome.spares_ok _

theorem spares_checkName (path : String) (seen : List String) (name : String) :
    (checkName (R := R) path seen name).Spares (.setup .alreadySetUp) := by
  unfold checkName
  dsimp only
  have hseen : (if seen.contains name then
      Outcome.fail (.setup (.duplicateSubsystem (joinPath path name))) else pure () :
      Outcome (ModelError R) Unit).Spares (.setup .alreadySetUp) := by
    split
    · exact Outcome.spares_fail nofun
    · exact Outcome.spares_ok _
  split
  · refine Outcome.spares_fail_bind ?_ _
    exact nofun
  · exact hseen

/-- Laying a tree out never reports that it was set up before. -/
theorem spares_addMembers (path : String) (seen : List String) (members : Members R M)
    (f : Flattening R M) : (addMembers path seen members f).Spares (.setup .alreadySetUp) := by
  induction members generalizing path seen f with
  | empty => exact Outcome.spares_ok _
  | component name component rest ih =>
    refine (spares_checkName path seen name).bind fun _ => ?_
    refine (spares_addComponent f _ component).bind fun _ => ?_
    exact (ih _ _ _).bind fun _ => Outcome.spares_ok _
  | group name settings members rest ihMembers ihRest =>
    refine (spares_checkName path seen name).bind fun _ => ?_
    refine (ihMembers _ _ _).bind fun _ => ?_
    exact (ihRest _ _ _).bind fun _ => Outcome.spares_ok _

end Flattening

namespace Model

variable {R M : Type}

/-- A driver variable is refused for its name or for its entries. -/
theorem selection_ne_setup (m : Model R M) (v : DriverVariable R) (issue : SetupIssue) :
    m.selection v ≠ .error (.setup issue) := by
  unfold selection lookup
  intro h
  rcases Except.bind_eq_error.1 h with h | ⟨a, -, h⟩
  · split at h <;> cases h
  · dsimp only at h
    split at h
    · cases h
    · split at h <;> cases h

variable [Scalar R]

theorem spares_ofGroup (g : Group R M) (s : SetupSettings) :
    (ofGroup g s).Spares (.setup .alreadySetUp) := by
  unfold ofGroup
  refine (Flattening.spares_addMembers _ _ _ _).bind fun laid => ?_
  refine (Outcome.spares_mapError nofun _).bind fun joined => ?_
  refine (Outcome.spares_ofOption _).bind fun graph => ?_
  refine (Outcome.spares_forIn (fun ⟨group, body⟩ => ?_) _).bind fun _ => Outcome.spares_ok _
  dsimp only
  split
  · refine Outcome.spares_fail_bind ?_ _
    exact nofun
  · exact Outcome.spares_ok _

theorem spares_start (m : Model R M) : m.start.Spares (.setup .alreadySetUp) :=
  (Outcome.spares_mapError nofun _).bind fun _ => Outcome.spares_ok _

end Model

namespace Problem

variable {R M : Type}

section Building

variable [Scalar R]

/-- **Building a model never reports that it was set up before.** -/
theorem spares_build (g : Group R M) (s : SetupSettings) (drivers : List (DriverVariable R)) :
    (build g s drivers).Spares (.setup .alreadySetUp) := by
  unfold build
  refine (Model.spares_ofGroup g s).bind fun m => ?_
  refine (Model.spares_start m).bind fun state => ?_
  refine (Outcome.spares_forIn (fun v => ?_) _).bind fun _ => Outcome.spares_ok _
  refine Outcome.Spares.bind ?_ fun _ => Outcome.spares_ok _
  have hselection := Outcome.spares_ofExcept (m.selection_ne_setup v .alreadySetUp)
  exact hselection.bind fun _ => Outcome.spares_ok _

end Building

/-- A call on a problem. -/
inductive Call (R : Type) where
  | addDesignVariable (v : DriverVariable R)
  | addObjective (v : DriverVariable R)
  | addConstraint (v : DriverVariable R)
  | setup (s : SetupSettings)
  | setValue (name : String) (values : List R)
  | run
  | totals (of wrt : List String)

namespace Call

/-- The design variable that a call registers. -/
def designVariable? : Call R → Option (DriverVariable R)
  | addDesignVariable v => some v
  | _ => none

/-- The objective that a call registers. -/
def objective? : Call R → Option (DriverVariable R)
  | addObjective v => some v
  | _ => none

/-- The constraint that a call registers. -/
def constraint? : Call R → Option (DriverVariable R)
  | addConstraint v => some v
  | _ => none

end Call

/-- The driver variables that calls register: design variables, objectives, constraints. -/
def drivers (calls : List (Call R)) : List (DriverVariable R) :=
  calls.filterMap Call.designVariable? ++
    (calls.filterMap Call.objective? ++ calls.filterMap Call.constraint?)

/-- The first setup among calls, with the calls before it. -/
def firstSetup? : List (Call R) → Option (List (Call R) × SetupSettings)
  | [] => none
  | .setup s :: _ => some ([], s)
  | c :: rest => (firstSetup? rest).map fun r => (c :: r.1, r.2)

theorem exists_of_firstSetup? {calls before : List (Call R)} {first : SetupSettings}
    (h : firstSetup? calls = some (before, first)) :
    firstSetup? before = none ∧ ∃ rest, calls = before ++ .setup first :: rest := by
  induction calls generalizing before with
  | nil => cases h
  | cons c rest ih =>
    cases c with
    | setup s =>
      cases h
      exact ⟨rfl, rest, rfl⟩
    | _ =>
      obtain ⟨⟨before', first'⟩, hrest, heq⟩ := Option.map_eq_some_iff.1 h
      cases heq
      obtain ⟨hnone, rest', rfl⟩ := ih hrest
      exact ⟨by simp [firstSetup?, hnone], rest', rfl⟩

/-- A problem that was not set up, with what was registered. -/
def fresh (g : Group R M) (calls : List (Call R)) : Problem R M where
  system := some g
  live := none
  designVariables := calls.filterMap Call.designVariable?
  objectives := calls.filterMap Call.objective?
  constraints := calls.filterMap Call.constraint?

section Parts

variable {g : Group R M} {p : Problem R M} {calls : List (Call R)}

/-- There is nothing to work on without a model. -/
theorem onModel_of_live {α : Type} {work : Model R M → ModelWork R M α} {p : Problem R M}
    (h : p.live = none) : (onModel work).perform p = (Outcome.fail .notSetUp, p) := by
  simp [onModel, h]

/-- Work on the model gives no system, and no model where there is none. -/
theorem onModel_spent {α : Type} (work : Model R M → ModelWork R M α) (p : Problem R M) :
    ((onModel work).perform p).2.system = p.system ∧
      ((onModel work).perform p).2.live.isSome = p.live.isSome := by
  cases hlive : p.live <;> simp [onModel, hlive]

theorem exists_model_iff : (∃ live, p.model = .ok live) ↔ p.live.isSome = true := by
  cases h : p.live <;> simp [model, h]

variable [Scalar R]

/-- A setup that is told that the problem is already set up. -/
def Refused (p : Problem R M) (s : SetupSettings) : Prop :=
  ((setup s).perform p).1 = Outcome.fail (.setup .alreadySetUp)

/-- **The first setup** answers what building the model answers, and takes the system along. -/
theorem perform_setup_fresh (g : Group R M) (calls : List (Call R)) (s : SetupSettings) :
    ((setup s).perform (fresh g calls)).1 = (build g s (drivers calls)).map (fun _ => ()) ∧
      ((setup s).perform (fresh g calls)).2.system = none ∧
      ((setup s).perform (fresh g calls)).2.live = (build g s (drivers calls)).toOption := by
  have hdrivers : (fresh g calls).designVariables ++ (fresh g calls).responses = drivers calls := rfl
  have hsystem : (fresh g calls).system = some g := rfl
  simp only [setup, Action.perform_of, hsystem, hdrivers]
  cases build g s (drivers calls) <;> exact ⟨rfl, rfl, rfl⟩

/-- A setup without a system is refused, and changes nothing. -/
theorem perform_setup_spent (h : p.system = none) (s : SetupSettings) :
    (setup s).perform p = (Outcome.fail (.setup .alreadySetUp), p) := by
  simp [setup, h]

end Parts

variable [Scalar R] [DirectSolver R]

/-- The work of a call. -/
def Call.work : Call R → ProblemWork R M Unit
  | addDesignVariable v => modify (Problem.addDesignVariable v)
  | addObjective v => modify (Problem.addObjective v)
  | addConstraint v => modify (Problem.addConstraint v)
  | setup s => Problem.setup s
  | setValue name values => Problem.setValue name values
  | run => Problem.run
  | totals of wrt => discard (Problem.totals of wrt)

/-- A problem after calls, each of which may have answered with an error. -/
def after (p : Problem R M) (calls : List (Call R)) : Problem R M :=
  calls.foldl (fun p c => (c.work.perform p).2) p

section Life

variable {g : Group R M} {p : Problem R M} {calls : List (Call R)}

/-- A call other than a setup only registers what it says, as there is no model to work on. -/
theorem Call.work_fresh {c : Call R} (hc : ∀ s, c ≠ .setup s) (g : Group R M)
    (calls : List (Call R)) : (c.work.perform (fresh g calls)).2 = fresh g (calls ++ [c]) := by
  have hregisters {c : Call R} (hd : c.designVariable? = none) (ho : c.objective? = none)
      (hr : c.constraint? = none) : fresh g calls = fresh g (calls ++ [c]) := by
    simp [fresh, List.filterMap_append, hd, ho, hr]
  cases c with
  | setup s => exact absurd rfl (hc s)
  | addDesignVariable v =>
    simp [work, Problem.addDesignVariable, fresh, designVariable?, objective?, constraint?]
  | addObjective v =>
    simp [work, Problem.addObjective, fresh, designVariable?, objective?, constraint?]
  | addConstraint v =>
    simp [work, Problem.addConstraint, fresh, designVariable?, objective?, constraint?]
  | setValue name values =>
    rw [work, Problem.setValue, onModel_of_live rfl]
    exact hregisters rfl rfl rfl
  | run =>
    rw [work, Problem.run, onModel_of_live rfl]
    exact hregisters rfl rfl rfl
  | totals of wrt =>
    rw [work, Action.perform_discard, Problem.totals, Action.perform_get_bind, onModel_of_live rfl]
    exact hregisters rfl rfl rfl

/-- **Before the first setup** a problem only gathers what is registered. -/
theorem after_of_fresh (h : firstSetup? calls = none) :
    after (ofGroup g) calls = fresh g calls := by
  have hrun (before calls : List (Call R)) (h : firstSetup? calls = none) :
      after (fresh g before) calls = fresh g (before ++ calls) := by
    induction calls generalizing before with
    | nil => rw [List.append_nil, after, List.foldl_nil]
    | cons c rest ih =>
      have hc : ∀ s, c ≠ .setup s := by
        rintro s rfl
        cases h
      have hrest : firstSetup? rest = none := by
        cases c with
        | setup s => exact absurd rfl (hc s)
        | _ => exact Option.map_eq_none_iff.1 h
      have hstep := ih (before ++ [c]) hrest
      rw [← Call.work_fresh hc, List.append_assoc] at hstep
      exact hstep
  exact hrun [] calls h

/-- **No call gives a system back**, or changes whether there is a model. -/
theorem Call.spent (c : Call R) (h : p.system = none) :
    (c.work.perform p).2.system = none ∧ (c.work.perform p).2.live.isSome = p.live.isSome := by
  cases c with
  | addDesignVariable v => exact ⟨h, rfl⟩
  | addObjective v => exact ⟨h, rfl⟩
  | addConstraint v => exact ⟨h, rfl⟩
  | setup s =>
    rw [work, perform_setup_spent h]
    exact ⟨h, rfl⟩
  | setValue name values =>
    obtain ⟨hsystem, hlive⟩ := onModel_spent (fun m => m.setValue name values) p
    exact ⟨hsystem.trans h, hlive⟩
  | run =>
    obtain ⟨hsystem, hlive⟩ := onModel_spent Model.run p
    exact ⟨hsystem.trans h, hlive⟩
  | totals of wrt =>
    rw [work, Action.perform_discard, Problem.totals, Action.perform_get_bind]
    obtain ⟨hsystem, hlive⟩ := onModel_spent (fun m => m.computeTotals
      (driverVariables of p.responses) (driverVariables wrt p.designVariables)) p
    exact ⟨hsystem.trans h, hlive⟩

theorem after_spent (h : p.system = none) (calls : List (Call R)) :
    (after p calls).system = none ∧ (after p calls).live.isSome = p.live.isSome := by
  induction calls generalizing p with
  | nil => exact ⟨h, rfl⟩
  | cons c rest ih =>
    obtain ⟨hsystem, hlive⟩ := c.spent h
    obtain ⟨hsystem', hlive'⟩ := ih hsystem
    exact ⟨hsystem', hlive'.trans hlive⟩

/-- **After the first setup** the system is gone, and there is a model if that setup succeeded. -/
theorem after_of_firstSetup? {before : List (Call R)} {first : SetupSettings}
    (h : firstSetup? calls = some (before, first)) :
    (after (ofGroup g) calls).system = none ∧
      (after (ofGroup g) calls).live.isSome = (build g first (drivers before)).toOption.isSome := by
  obtain ⟨hnone, rest, rfl⟩ := exists_of_firstSetup? h
  have hafter : after (ofGroup g) (before ++ .setup first :: rest) =
      after ((setup first).perform (fresh g before)).2 rest := by
    rw [after, List.foldl_append, List.foldl_cons, ← after, ← after, after_of_fresh hnone]
    rfl
  obtain ⟨-, hsystem, hlive⟩ := perform_setup_fresh g before first
  obtain ⟨hsystem', hlive'⟩ := after_spent hsystem rest
  rw [hafter]
  exact ⟨hsystem', hlive'.trans (congrArg Option.isSome hlive)⟩

/-- **A setup is refused exactly after another one**, whatever became of that one; a problem has a
model exactly if its first setup could build one. Both agree exactly if no first setup failed. A
setup that is refused changes nothing; one that is not answers what building the model answers. -/
theorem setup_judged (g : Group R M) (calls : List (Call R)) (s : SetupSettings) :
    (Refused (after (ofGroup g) calls) s ↔ (firstSetup? calls).isSome = true) ∧
    ((∃ live, (after (ofGroup g) calls).model = .ok live) ↔
      ∃ before first live, firstSetup? calls = some (before, first) ∧
        build g first (drivers before) = .ok live) ∧
    ((Refused (after (ofGroup g) calls) s ↔ ∃ live, (after (ofGroup g) calls).model = .ok live) ↔
      ∀ before first, firstSetup? calls = some (before, first) →
        ∃ live, build g first (drivers before) = .ok live) ∧
    match firstSetup? calls with
    | none => ((setup s).perform (after (ofGroup g) calls)).1 =
        (build g s (drivers calls)).map fun _ => ()
    | some _ => (setup s).perform (after (ofGroup g) calls) =
        (Outcome.fail (.setup .alreadySetUp), after (ofGroup g) calls) := by
  cases hfirst : firstSetup? calls with
  | none =>
    have hafter := after_of_fresh (g := g) hfirst
    have hanswer := (perform_setup_fresh g calls s).1
    have hrefused : ¬ Refused (after (ofGroup g) calls) s := by
      rw [hafter, Refused, hanswer]
      intro h
      refine spares_build g s (drivers calls) ?_
      cases hbuild : build g s (drivers calls) <;> simp_all [Except.map, Outcome.fail]
    have hmodel : ¬ ∃ live, (after (ofGroup g) calls).model = .ok live := by
      rw [exists_model_iff, hafter]
      exact Bool.false_ne_true
    refine ⟨by simpa using hrefused, by simpa using hmodel, by simp [hrefused, hmodel], ?_⟩
    rw [hafter]
    exact hanswer
  | some found =>
    obtain ⟨before, first⟩ := found
    obtain ⟨hsystem, hlive⟩ := after_of_firstSetup? (g := g) hfirst
    have hperform := perform_setup_spent hsystem s
    have hrefused : Refused (after (ofGroup g) calls) s := congrArg Prod.fst hperform
    have hmodel : (∃ live, (after (ofGroup g) calls).model = .ok live) ↔
        ∃ live, build g first (drivers before) = .ok live := by
      rw [exists_model_iff, hlive]
      cases build g first (drivers before) <;> simp [Except.toOption]
    refine ⟨by simpa using hrefused, hmodel.trans ?_, ?_, hperform⟩
    · simp
    · simp only [hrefused, true_iff, hmodel, Option.some.injEq, Prod.mk.injEq]
      constructor
      · rintro hbuilt _ _ ⟨rfl, rfl⟩
        exact hbuilt
      · exact fun hbuilt => hbuilt _ _ ⟨rfl, rfl⟩

end Life

section Lost

/-- A system that connects what it does not have. -/
def unconnectable : Group Float Unit where
  settings := { GroupSettings.plain with connections := [("a.y", "b.x")] }
  members := .empty

/-- **A setup that failed leaves a problem that can neither be used nor set up**: it has no model, and
the next setup is told that it is already set up, instead of what is wrong with the system. -/
theorem exists_lost_system : ∃ (g : Group Float Unit) (calls : List (Call Float))
    (s : SetupSettings), (after (ofGroup g) calls).model = .error .notSetUp ∧
      Refused (after (ofGroup g) calls) s ∧
      build g s (drivers calls) = Outcome.fail (.connection (.missingSource "a.y" "b.x")) :=
  ⟨unconnectable, [.setup .standard], .standard, rfl, rfl, rfl⟩

end Lost

end Problem

end Sensitivity
