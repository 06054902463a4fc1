import Sensitivity.Proofs.Success

/-!
# Actions that answer

An operation that may fail answers with a value or with an error, and a breach is neither.
`Outcome.Gives Q E` says that an outcome is an answer, with `Q` of the value or `E` of the error;
`Action.Replies Q E` says it of a performed action, together with the state that it leaves. Where
nothing fails this is `Action.Yields`; here a loop goes on as long as there are values, and the first
error is that of one of its rounds.
-/

namespace Sensitivity

variable {σ τ ε ε' α β : Type}

namespace Outcome

variable {Q : α → Prop} {E : ε → Prop}

/-- An outcome is a value with `Q` or an error with `E`. -/
def Gives (Q : α → Prop) (E : ε → Prop) : Outcome ε α → Prop
  | .ok x => Q x
  | .error (.error e) => E e
  | .error .breach => False

theorem Gives.answers {o : Outcome ε α} (h : o.Gives Q E) : o.Answers := by
  rintro rfl
  exact h

/-- What an error is known to be. -/
theorem Gives.of_eq_fail {o : Outcome ε α} (h : o.Gives Q E) {e : ε} (ho : o = fail e) : E e := by
  rw [ho] at h
  exact h

/-- An outcome that has no error to end with is a value. -/
theorem Gives.exists_eq_ok {o : Outcome ε α} (h : o.Gives Q fun _ => False) :
    ∃ x, o = .ok x ∧ Q x := by
  rcases o with (e | _) | x
  · exact h.elim
  · exact h.elim
  · exact ⟨x, rfl, h⟩

/-- What is known of every error is known of this one. -/
theorem Gives.report {o : Outcome ε α} (h : o.Gives Q fun _ => True) (hE : ∀ e, o = fail e → E e) :
    o.Gives Q E := by
  rcases o with (e | _) | x
  · exact hE e rfl
  · exact h
  · exact h

theorem gives_of_eq_ok {o : Outcome ε α} {x : α} (ho : o = .ok x) (hx : Q x) : o.Gives Q E := by
  rw [ho]
  exact hx

theorem gives_of_eq_fail {o : Outcome ε α} {e : ε} (ho : o = fail e) (he : E e) : o.Gives Q E := by
  rw [ho]
  exact he

/-- What is known of every value is known of this one. -/
theorem Gives.and {K : α → Prop} {o : Outcome ε α} (h : o.Gives Q E)
    (hK : ∀ x, o = .ok x → K x) : o.Gives (fun x => Q x ∧ K x) E := by
  rcases o with (e | _) | x
  · exact h
  · exact h
  · exact ⟨h, hK x rfl⟩

theorem Gives.mono {Q' : α → Prop} {E' : ε → Prop} {o : Outcome ε α} (h : o.Gives Q E)
    (hQ : ∀ x, Q x → Q' x) (hE : ∀ e, E e → E' e) : o.Gives Q' E' := by
  rcases o with (e | _) | x
  · exact hE e h
  · exact h
  · exact hQ x h

theorem gives_ofExcept {x : Except ε α} (hQ : ∀ a, x = .ok a → Q a) (hE : ∀ e, x = .error e → E e) :
    (ofExcept x : Outcome ε α).Gives Q E := by
  cases x with
  | ok a => exact hQ a rfl
  | error e => exact hE e rfl

theorem gives_bind {S : β → Prop} {o : Outcome ε α} {f : α → Outcome ε β} (ho : o.Gives Q E)
    (hf : ∀ x, Q x → (f x).Gives S E) : (o >>= f).Gives S E := by
  rcases o with (e | _) | x
  · exact ho
  · exact ho
  · exact hf x ho

/-- Outcomes that all answer answer as a list. -/
theorem gives_mapM {f : α → Outcome ε β} {xs : List α} (hf : ∀ x ∈ xs, (f x).Gives (fun _ => True) E) :
    (xs.mapM f).Gives (fun _ => True) E := by
  induction xs with
  | nil => trivial
  | cons x rest ih =>
    rw [List.mapM_cons]
    refine gives_bind (hf x List.mem_cons_self) fun _ _ => ?_
    exact gives_bind (ih fun y hy => hf y (List.mem_cons_of_mem x hy)) fun _ _ => trivial

/-- Steps that all answer answer one after another, each with something that later steps do not end. -/
theorem gives_foldlM {f : β → α → Outcome ε β} {Q : α → β → Prop} {xs : List α} {b : β}
    (hf : ∀ x ∈ xs, ∀ b, (f b x).Gives (fun b' => Q x b' ∧ ∀ y, Q y b → Q y b') E) :
    (xs.foldlM f b).Gives (fun b' => (∀ x ∈ xs, Q x b') ∧ ∀ y, Q y b → Q y b') E := by
  induction xs generalizing b with
  | nil => exact ⟨fun _ hx => absurd hx List.not_mem_nil, fun _ h => h⟩
  | cons x rest ih =>
    rw [List.foldlM_cons]
    refine gives_bind (hf x List.mem_cons_self b) fun next ⟨hx, hkeeps⟩ => ?_
    refine (ih fun y hy => hf y (List.mem_cons_of_mem x hy)).mono (fun last hlast => ?_) fun _ h => h
    refine ⟨fun y hy => ?_, fun y hy => hlast.2 y (hkeeps y hy)⟩
    rcases List.mem_cons.1 hy with rfl | hy
    · exact hlast.2 y hx
    · exact hlast.1 y hy

/-- Checks that all answer answer as a loop. -/
theorem gives_forIn {f : α → Outcome ε Unit} (xs : List α)
    (hf : ∀ x ∈ xs, (f x).Gives (fun _ => True) E) :
    (forIn xs PUnit.unit fun x _ => do f x; pure (ForInStep.yield PUnit.unit)).Gives
      (fun _ => True) E := by
  induction xs with
  | nil => trivial
  | cons x rest ih =>
    rw [List.forIn_cons]
    refine gives_bind (gives_bind (hf x List.mem_cons_self) fun _ _ =>
      (rfl : ForInStep.yield PUnit.unit = _)) fun r hr => ?_
    rw [← hr]
    exact ih fun y hy => hf y (List.mem_cons_of_mem x hy)

end Outcome

namespace Action

variable {a : Action σ ε α} {f : α → Action σ ε β} {s : σ} {P : σ → Prop} {Q : α → σ → Prop}
  {S : β → σ → Prop} {E : ε → σ → Prop}

/-- An action ended with a value or an error, and with a state such that `Q` or `E` holds of both. -/
def Replies (Q : α → σ → Prop) (E : ε → σ → Prop) (r : Outcome ε α × σ) : Prop :=
  r.1.Gives (fun x => Q x r.2) fun e => E e r.2

theorem Replies.mono {Q' : α → σ → Prop} {E' : ε → σ → Prop} {r : Outcome ε α × σ}
    (h : Replies Q E r) (hQ : ∀ x t, Q x t → Q' x t) (hE : ∀ e t, E e t → E' e t) : Replies Q' E' r :=
  Outcome.Gives.mono h (fun x => hQ x r.2) fun e => hE e r.2

/-- What is known of every successful end is known of this one. -/
theorem Replies.and {K : α → σ → Prop} {r : Outcome ε α × σ} (h : Replies Q E r)
    (hK : ∀ x t, r = (.ok x, t) → K x t) : Replies (fun x t => Q x t ∧ K x t) E r :=
  Outcome.Gives.and h fun x hx => hK x r.2 (Prod.ext hx rfl)

theorem replies_pure {x : α} (h : Q x s) : Replies Q E ((pure x : Action σ ε α).perform s) := h

theorem replies_bind (ha : Replies Q E (a.perform s))
    (hf : ∀ x t, Q x t → Replies S E ((f x).perform t)) : Replies S E ((a >>= f).perform s) := by
  rw [perform_bind]
  rcases hr : a.perform s with ⟨(e | _) | x, t⟩ <;> rw [hr] at ha
  · exact ha
  · exact ha
  · exact hf x t ha

/-- What comes after a reading starts from the same state. -/
theorem replies_read_bind {o : σ → Outcome ε α} {Q : α → Prop} (ho : (o s).Gives Q fun e => E e s)
    (hf : ∀ x, Q x → Replies S E ((f x).perform s)) : Replies S E ((read o >>= f).perform s) :=
  replies_bind (Q := fun x t => Q x ∧ t = s)
    (Outcome.Gives.mono ho (fun _ hx => ⟨hx, rfl⟩) fun _ h => h) fun x _ ⟨hx, ht⟩ => ht ▸ hf x hx

theorem replies_ofOutcome_bind {o : Outcome ε α} {Q : α → Prop} (ho : o.Gives Q fun e => E e s)
    (hf : ∀ x, Q x → Replies S E ((f x).perform s)) :
    Replies S E ((ofOutcome o >>= f).perform s) := replies_read_bind (o := fun _ => o) ho hf

theorem replies_ok_bind {o : Outcome ε α} {x : α} (ho : o = .ok x)
    (h : Replies S E ((f x).perform s)) : Replies S E ((ofOutcome o >>= f).perform s) := by
  rw [ho]
  exact h

theorem replies_modify_bind {g : σ → σ} {f : Unit → Action σ ε β}
    (h : Replies S E ((f ()).perform (g s))) :
    Replies S E (((modify g : Action σ ε Unit) >>= f).perform s) := h

theorem replies_on {part : σ → τ} {back : σ → τ → σ} {b : Action τ ε α}
    (h : Replies (fun x u => Q x (back s u)) (fun e u => E e (back s u)) (b.perform (part s))) :
    Replies Q E ((on part back b).perform s) := h

/-- An attempt has the answer as a value. -/
theorem replies_attempt {F : ε' → σ → Prop} (h : Replies Q E (a.perform s)) :
    Replies (fun r t => (Outcome.ofExcept r : Outcome ε α).Gives (fun x => Q x t) fun e => E e t) F
      ((attempt a : Action σ ε' (Except ε α)).perform s) := by
  simp only [attempt, perform_of]
  rcases hr : a.perform s with ⟨(e | _) | x, t⟩ <;> rw [hr] at h <;> exact h

/-- **A loop answers** when each of its rounds does, where something holds that successful rounds keep
up. -/
theorem replies_forEach {xs : List β} {f : β → Action σ ε Unit}
    (hf : ∀ x ∈ xs, ∀ s, P s → Replies (fun _ t => P t) E ((f x).perform s)) (hs : P s) :
    Replies (fun _ t => P t) E ((forEach xs f).perform s) := by
  induction xs generalizing s with
  | nil => exact hs
  | cons x rest ih =>
    refine replies_bind (hf x List.mem_cons_self s hs) fun _ t ht => ?_
    exact ih (fun y hy => hf y (List.mem_cons_of_mem x hy)) ht

end Action

end Sensitivity
