import Sensitivity.Proofs.Approximation.Completing
import Sensitivity.Proofs.Approximation.Stepping
import Sensitivity.Proofs.Graph.Relevance
import Sensitivity.Proofs.Replying

/-!
# Directions that are answered

A target is steady where it announces the same numbers of entries for its variables at all times, and
answers what it is asked about entries that exist (`Target.Steady`); any of its operations may fail.
On such a target every direction is answered, by differences (`Stencil.replies_difference`) and by
complex steps (`StepEngine.replies_runIdle`). What is read has the announced entries
(`Target.Sized`), and a failure is one that the target itself reports (`Target.Reports`).
-/

namespace Sensitivity

variable {R σ : Type}

/-- A target that, where `P` holds, answers what it is asked about the variables and the entries that
it announces, and whose values have the announced numbers of entries. Operations that succeed do not
end `P`. The dependencies are among nodes that exist. -/
structure Target.Steady (T : Target R σ) (P : σ → Prop) (extent : String → Option Nat) : Prop where
  size : ∀ {s}, P s → ∀ name, (T.size s name).Gives (fun n => extent name = some n) fun _ => True
  values : ∀ {s}, P s → ∀ {name n}, extent name = some n → ∀ part,
    (T.values s name part).Gives (fun vs => vs.length = n) fun _ => True
  perturb : ∀ {s}, P s → ∀ {name n}, extent name = some n → ∀ {i}, i < n → ∀ delta,
    Action.Replies (fun _ t => P t) (fun _ _ => True) ((T.perturb name i delta).perform s)
  evaluate : ∀ {s}, P s → ∀ active mode,
    Action.Replies (fun _ t => P t) (fun _ _ => True) ((T.evaluate active mode).perform s)
  restore : ∀ {s t}, P s → P t → P (T.restore s t)
  enter : ∀ {s}, P s → ∀ owner h, P (T.enter owner h s)
  leave : ∀ {s}, P s → P (T.leave s)
  graph : ∀ {s}, P s → ∀ {g}, T.graph s = some g → g.Grounded

/-- Some operation of a target ends with an error where `P` holds. -/
inductive Target.Reports (T : Target R σ) (P : σ → Prop) (e : ApproximationError R) : Prop
  | size {s : σ} (hs : P s) {name : String} (h : T.size s name = .fail e)
  | values {s : σ} (hs : P s) {name : String} {part : Part} (h : T.values s name part = .fail e)
  | perturb {s : σ} (hs : P s) {name : String} {i : Nat} {delta : Delta R}
    (h : ((T.perturb name i delta).perform s).1 = .fail e)
  | evaluate {s : σ} (hs : P s) {active : ActiveSet} {mode : Mode}
    (h : ((T.evaluate active mode).perform s).1 = .fail e)

/-- An error that says that directions are missing only where the target itself does. -/
def Target.Accounts (T : Target R σ) (P : σ → Prop) (e : ApproximationError R) : Prop :=
  ∀ done total, e = .incomplete done total → T.Reports P e

/-- Values for each of some variables, as many as it has entries. -/
def Target.Sized (extent : String → Option Nat) (names : List String)
    (values : Table String (List R)) : Prop :=
  ∀ name ∈ names, ∃ vs, values.get? name = some vs ∧ extent name = some vs.length

variable {T : Target R σ} {P : σ → Prop} {extent : String → Option Nat} {s : σ}

namespace Target

theorem accounts_of_reports {e : ApproximationError R} (h : T.Reports P e) : T.Accounts P e :=
  fun _ _ _ => h

namespace Steady

variable (hT : T.Steady P extent)

include hT

theorem gives_size (hs : P s) (name : String) :
    (T.size s name).Gives (fun n => extent name = some n) (T.Accounts P) :=
  (hT.size hs name).report fun _ he => accounts_of_reports (.size hs he)

theorem gives_values (hs : P s) {name : String} {n : Nat} (hname : extent name = some n) (part : Part) :
    (T.values s name part).Gives (fun vs => vs.length = n) (T.Accounts P) :=
  (hT.values hs hname part).report fun _ he => accounts_of_reports (.values hs he)

theorem replies_perturb (hs : P s) {name : String} {n : Nat} (hname : extent name = some n) {i : Nat}
    (hi : i < n) (delta : Delta R) : Action.Replies (fun _ t => P t) (fun e _ => T.Accounts P e)
      ((T.perturb name i delta).perform s) :=
  Outcome.Gives.report (hT.perturb hs hname hi delta) fun _ he => accounts_of_reports (.perturb hs he)

theorem replies_evaluate (hs : P s) (active : ActiveSet) (mode : Mode) :
    Action.Replies (fun _ t => P t) (fun e _ => T.Accounts P e)
      ((T.evaluate active mode).perform s) :=
  Outcome.Gives.report (hT.evaluate hs active mode) fun _ he => accounts_of_reports (.evaluate hs he)

/-- Variables that exist are read with all their entries. -/
theorem replies_readAll (hs : P s) {of : List String} (hof : ∀ name ∈ of, ∃ n, extent name = some n)
    (part : Part) : Action.Replies (fun read t => P t ∧ Sized extent of (.ofList read))
      (fun e _ => T.Accounts P e) ((T.readAll of part).perform s) := by
  rw [readAll, Action.perform_read]
  have hread : (of.mapM fun n => do return (n, ← T.values s n part)).Gives (fun _ => True)
      (T.Accounts P) := Outcome.gives_mapM fun name hname => by
    obtain ⟨n, hn⟩ := hof name hname
    exact Outcome.gives_bind (hT.gives_values hs hn part) fun _ _ => trivial
  refine (hread.and fun read hread => ?_).mono (fun _ h => ⟨hs, h.2⟩) fun _ h => h
  intro name hname
  obtain ⟨⟨name', vs⟩, hvs⟩ := Except.exists_of_mapM hread hname
  have hmem := (Except.mem_mapM hread).2 ⟨name, hname, hvs⟩
  obtain ⟨_, -, hpair⟩ := Except.bind_eq_ok.1 hvs
  cases hpair
  obtain ⟨ws, hws⟩ : ∃ ws, (Table.ofList read).get? name = some ws :=
    Option.ne_none_iff_exists'.1 fun hnone => (Table.get?_eq_none_iff _ _).1 hnone
      (Table.mem_keys_ofList.2 (List.mem_map_of_mem (f := Prod.fst) hmem))
  refine ⟨ws, hws, ?_⟩
  -- whichever reading of the variable was kept, it is what the target answered
  obtain ⟨_, -, hread'⟩ := (Except.mem_mapM hread).1 (Table.mem_of_get?_ofList hws)
  obtain ⟨_, hvalues, hpair⟩ := Except.bind_eq_ok.1 hread'
  cases hpair
  obtain ⟨n, hn⟩ := hof name hname
  have hlength := hT.values hs hn part
  rw [hvalues] at hlength
  rw [hn, show ws.length = n from hlength]

end Steady

end Target

variable [Scalar R] {perturbations : List (Perturbation R)} {active : ActiveSet} {of : List String}

namespace Stencil

omit [Scalar R] in
theorem length_addWeighted [Scalar R] (weight : R) (sum vs : List R) :
    (addWeighted weight sum vs).length = sum.length := by
  induction sum generalizing vs with
  | nil => cases vs <;> rfl
  | cons a rest ih =>
    cases vs with
    | nil => rfl
    | cons v vs => simp [addWeighted, ih]

/-- A point adds to the sums, and none gains or loses entries. -/
theorem sized_accumulate {sums : Table String (List R)} (h : Target.Sized extent of sums) (weight : R)
    (point : List (String × List R)) : Target.Sized extent of (accumulate weight sums point) := by
  induction point generalizing sums with
  | nil => exact h
  | cons nv rest ih =>
    cases hacc : sums.get? nv.1 with
    | none =>
      have hrest : accumulate weight sums (nv :: rest) = accumulate weight sums rest := by
        simp only [accumulate, List.foldl_cons, hacc]
      exact hrest ▸ ih h
    | some acc =>
      have hrest : accumulate weight sums (nv :: rest) =
          accumulate weight (sums.insert nv.1 (addWeighted weight acc nv.2)) rest := by
        simp only [accumulate, List.foldl_cons, hacc]
      refine hrest ▸ ih fun name hname => ?_
      obtain ⟨vs, hvs, hlength⟩ := h name hname
      by_cases hnv : name = nv.1
      · subst hnv
        obtain rfl := Option.some.inj (hvs.symm.trans hacc)
        exact ⟨_, by rw [Table.get?_insert, if_pos rfl], by rw [length_addWeighted, hlength]⟩
      · exact ⟨vs, by rw [Table.get?_insert, if_neg hnv, hvs], hlength⟩

variable (hT : T.Steady P extent) (hasks : Target.Asks extent perturbations of)

include hT hasks

theorem replies_evaluatePoint (offset : R) (hs : P s) :
    Action.Replies (fun _ t => P t) (fun e _ => T.Accounts P e)
      ((evaluatePoint T perturbations offset active of).perform s) := by
  refine Action.replies_bind (Action.replies_forEach (fun p hp t ht => ?_) hs) fun _ t ht => ?_
  · obtain ⟨n, hn, hlt⟩ := hasks.entries p hp
    exact hT.replies_perturb ht hn hlt _
  · refine Action.replies_bind (hT.replies_evaluate ht active .real) fun _ u hu => ?_
    exact (hT.replies_readAll hu hasks.of .real).mono (fun _ _ h => h.1) fun _ _ h => h

/-- Points are evaluated one after another, until one of them fails. -/
theorem replies_sumPoints {saved : σ} (hsaved : P saved) (points : List (R × R))
    {sums : Table String (List R)} (hsums : Target.Sized extent of sums) (hs : P s) :
    Action.Replies (fun sums t => P t ∧ Target.Sized extent of sums) (fun e _ => T.Accounts P e)
      ((sumPoints T saved perturbations active of points sums).perform s) := by
  induction points generalizing s sums with
  | nil => exact ⟨hs, hsums⟩
  | cons point rest ih =>
    have hpoint : Action.Replies (fun _ t => P t) (fun e _ => T.Accounts P e)
        ((T.thenRestore saved (evaluatePoint T perturbations point.1 active of)).perform s) :=
      Outcome.Gives.mono (replies_evaluatePoint hT hasks point.1 hs)
        (fun _ ht => hT.restore hsaved ht) fun _ h => h
    exact Action.replies_bind hpoint fun read t ht => ih (sized_accumulate hsums point.2 read) ht

/-- **A difference is answered**, with all entries of the variables that are asked for. -/
theorem replies_difference (st : Stencil R) {baseline : Table String (List R)}
    (hbaseline : Target.Sized extent of baseline) (hs : P s) :
    Action.Replies (fun numerators t => P t ∧ Target.Sized extent of numerators)
      (fun e _ => T.Accounts P e)
      ((st.difference T perturbations active of baseline).perform s) := by
  obtain ⟨start, hstart⟩ := st.exists_startSums fun name hname => by
    obtain ⟨vs, hvs, -⟩ := hbaseline name hname
    exact List.mem_map_of_mem (f := Prod.fst) ((Table.get?_eq_some_iff _ _ _).1 hvs)
  have hsums : Target.Sized extent of start := fun name hname => by
    obtain ⟨f, hf, hsum⟩ := get?_of_startSums hstart hname
    obtain ⟨vs, hvs, hlength⟩ := hbaseline name hname
    obtain rfl := Option.some.inj (hf.symm.trans hvs)
    exact ⟨_, hsum, by rw [List.length_map, hlength]⟩
  refine Action.replies_ok_bind ((Outcome.ofExcept_eq_ok _ _).2 hstart) ?_
  rw [Action.perform_get_bind]
  refine Action.replies_bind (replies_sumPoints hT hasks hs st.points hsums hs) fun sums t h => ?_
  refine ⟨h.1, fun name hname => ?_⟩
  obtain ⟨vs, hvs, hlength⟩ := h.2 name hname
  exact ⟨_, by rw [Table.get?_map, hvs]; rfl, by rw [List.length_map, hlength]⟩

end Stencil

namespace StepEngine

omit [Scalar R] in
/-- Work on the target leaves the engine as it is, whether or not it fails. -/
theorem replies_onTarget {α : Type} {Q : α → σ → Prop} {E : ApproximationError R → Prop}
    {a : Action σ (ApproximationError R) α} {d : Driven σ} {engine : StepEngine σ}
    (hd : d.engine = engine) (ha : Action.Replies Q (fun e _ => E e) (a.perform d.target)) :
    Action.Replies (fun x d => d.engine = engine ∧ Q x d.target)
      (fun e d => E e ∧ d.engine = engine) ((onTarget a).perform d) :=
  Action.replies_on (ha.mono (fun _ _ h => ⟨hd, h⟩) fun _ _ h => ⟨h, hd⟩)

variable (hT : T.Steady P extent) (hasks : Target.Asks extent perturbations of)

include hT hasks

/-- A step is begun and captured, or is under way still; the state to return to is saved. -/
theorem replies_start_capture (owner : String) (active : ActiveSet) (hs : P s) :
    Action.Replies (fun read d => d.engine = ⟨.captured, some s⟩ ∧ P d.target ∧
        Target.Sized extent of read)
      (fun e d => T.Accounts P e ∧ d.engine = ⟨.perturbed, some s⟩)
      ((start T owner perturbations >>= fun _ => capture T active of).perform ⟨idle, s⟩) := by
  refine Action.replies_bind (Q := fun _ d => d.engine = ⟨.perturbed, some s⟩ ∧ P d.target) ?_
    fun _ d ⟨hengine, hd⟩ => ?_
  · unfold start
    rw [perform_require_bind (by rfl)]
    refine Action.replies_modify_bind (Action.replies_forEach (fun p hp d ⟨hengine, hd⟩ => ?_)
      ⟨rfl, hT.enter hs _ _⟩)
    obtain ⟨n, hn, hlt⟩ := hasks.entries p hp
    exact replies_onTarget hengine (hT.replies_perturb hd hn hlt _)
  · unfold capture
    rw [perform_require_bind (by rw [hengine]; rfl)]
    refine Action.replies_bind (replies_onTarget hengine (hT.replies_evaluate hd active .complex))
      fun _ d ⟨hengine, hd⟩ => ?_
    refine Action.replies_bind (replies_onTarget hengine (hT.replies_readAll hd hasks.of .imag))
      fun read d ⟨hengine, hd, hread⟩ => ?_
    refine Action.replies_modify_bind (Action.replies_pure ⟨?_, hd, hread⟩)
    rw [hengine]

/-- **A complex step is answered**, with all entries of the variables that are asked for. -/
theorem replies_runIdle (owner : String) (hs : P s) :
    Action.Replies (fun numerators t => P t ∧ Target.Sized extent of numerators)
      (fun e _ => T.Accounts P e)
      ((runIdle T owner perturbations active of).perform s) := by
  have hbegun := replies_start_capture hT hasks owner active hs
  refine Action.replies_on ?_
  rcases hperform : (start T owner perturbations >>= fun _ => capture T active of).perform ⟨idle, s⟩
    with ⟨(e | _) | read, d⟩ <;> rw [hperform] at hbegun
  · obtain ⟨haccounts, hengine⟩ := hbegun
    obtain ⟨hend, -⟩ := perform_attempt_finish (T := T) hperform
      (by rw [hengine]; exact Phase.noConfusion) (by rw [hengine])
    exact Outcome.gives_of_eq_fail hend haccounts
  · exact hbegun.elim
  · obtain ⟨hengine, htarget, hread⟩ := hbegun
    obtain ⟨hend, hstate⟩ := perform_attempt_finish (T := T) hperform
      (by rw [hengine]; exact Phase.noConfusion) (by rw [hengine])
    have hrun : (run T owner perturbations active of).perform ⟨idle, s⟩ =
        (.ok read, ⟨idle, T.leave (T.restore s d.target)⟩) :=
      Prod.ext hend (hstate (Outcome.answers_ok read))
    rw [hrun]
    exact ⟨hT.leave (hT.restore hs htarget), hread⟩

end StepEngine

end Sensitivity
