import Sensitivity.Proofs.Action

/-!
# What a breach leaves behind

After a breach there is nothing to go on from, but there is a state: everything that the action had
done so far. `Action.Sustains P Q a` says that `a` leads from states with `P` to states with `P`,
whether it ends with a value or with an error, and that a breach leaves a state with `P` or at least
one with `Q`. With a `Q` that always holds this is `Action.Preserves P`; with one that never does, `P`
survives a breach too.

As the functions that a caller supplies may breach whenever they are called, what holds after every
breach holds at every such call.
-/

namespace Sensitivity

namespace Action

variable {σ τ ε ε' α β : Type} {P Q : σ → Prop} {a : Action σ ε α}

/-- An action ended in a state with `P`, or with a breach in a state with `Q`. -/
def Ends (P Q : σ → Prop) (r : Outcome ε α × σ) : Prop := P r.2 ∨ r.1 = .error .breach ∧ Q r.2

/-- From states with `P` an action ends in states with `P`, or with a breach in states with `Q`. -/
def Sustains (P Q : σ → Prop) (a : Action σ ε α) : Prop := ∀ s, P s → Ends P Q (a.perform s)

/-- An answer leaves a state with `P`. -/
theorem Ends.of_answers {r : Outcome ε α × σ} (h : Ends P Q r) (ha : r.1.Answers) : P r.2 :=
  h.resolve_right fun hbreach => ha hbreach.1

theorem Ends.mono {Q' : σ → Prop} {r : Outcome ε α × σ} (h : Ends P Q r) (hQ : ∀ s, Q s → Q' s) :
    Ends P Q' r := h.imp_right fun hbreach => ⟨hbreach.1, hQ _ hbreach.2⟩

theorem Sustains.mono {Q' : σ → Prop} (h : a.Sustains P Q) (hQ : ∀ s, Q s → Q' s) :
    a.Sustains P Q' := fun s hs => (h s hs).mono hQ

theorem Sustains.preserves (h : a.Sustains P Q) : a.Preserves P :=
  fun s hs ha => (h s hs).of_answers ha

/-- Nothing has to be left by a breach. -/
theorem ends_of_answers {r : Outcome ε α × σ} (h : r.1.Answers → P r.2) :
    Ends P (fun _ => True) r := by
  by_cases ha : r.1.Answers
  · exact .inl (h ha)
  · exact .inr ⟨not_not.1 ha, trivial⟩

theorem Preserves.sustains (h : a.Preserves P) : a.Sustains P fun _ => True :=
  fun s hs => ends_of_answers (h s hs)

/-- Where a breach leaves no less than an answer, it makes no difference. -/
theorem Ends.of_imp {r : Outcome ε α × σ} (h : Ends P Q r) (hPQ : ∀ s, P s → Q s) : Q r.2 :=
  Or.elim h (hPQ _) And.right

@[simp] theorem sustains_pure (x : α) : (pure x : Action σ ε α).Sustains P Q := fun _ h => .inl h

@[simp] theorem sustains_fail (e : ε) : (fail e : Action σ ε α).Sustains P Q := fun _ h => .inl h

@[simp] theorem sustains_ofOutcome (o : Outcome ε α) :
    (ofOutcome o : Action σ ε α).Sustains P Q := fun _ h => .inl h

@[simp] theorem sustains_read (f : σ → Outcome ε α) : (read f : Action σ ε α).Sustains P Q :=
  fun _ h => .inl h

@[simp] theorem sustains_get : (get : Action σ ε σ).Sustains P Q := fun _ h => .inl h

theorem sustains_set {t : σ} (h : P t) : (set t : Action σ ε Unit).Sustains P Q :=
  fun _ _ => .inl h

theorem sustains_modify {f : σ → σ} (h : ∀ s, P s → P (f s)) :
    (modify f : Action σ ε Unit).Sustains P Q := fun s hs => .inl (h s hs)

/-- The second part of a sequence starts from the state that the first one leaves, with the value
that it had there. -/
theorem ends_bind {s : σ} {f : α → Action σ ε β} (ha : Ends P Q (a.perform s))
    (hf : ∀ x t, a.perform s = (.ok x, t) → P t → Ends P Q ((f x).perform t)) :
    Ends P Q ((a >>= f).perform s) := by
  rw [perform_bind]
  rcases h : a.perform s with ⟨e | x, t⟩
  · rw [h] at ha
    exact ha.imp_right fun hbreach => ⟨by rw [Except.error.inj hbreach.1], hbreach.2⟩
  · rw [h] at ha
    exact hf x t h (ha.of_answers (Outcome.answers_ok x))

theorem sustains_bind {f : α → Action σ ε β} (ha : a.Sustains P Q)
    (hf : ∀ x, (f x).Sustains P Q) : (a >>= f).Sustains P Q :=
  fun s hs => ends_bind (ha s hs) fun x t _ ht => hf x t ht

/-- What comes after a value may rely on how it came about. -/
theorem sustains_bind_of_value {f : α → Action σ ε β} (ha : a.Sustains P Q)
    (hf : ∀ x s t, a.perform s = (.ok x, t) → (f x).Sustains P Q) : (a >>= f).Sustains P Q :=
  fun s hs => ends_bind (ha s hs) fun x t h ht => hf x s t h t ht

/-- What comes after a reading of the state may rely on what was read. -/
theorem sustains_get_bind {f : σ → Action σ ε β} (h : ∀ s, P s → Ends P Q ((f s).perform s)) :
    ((get : Action σ ε σ) >>= f).Sustains P Q := h

/-- What comes after a part of the state may rely on what it was. -/
theorem ends_read_bind {s : σ} {f : σ → Outcome ε α} {g : α → Action σ ε β} (hs : P s)
    (h : ∀ x, f s = .ok x → Ends P Q ((g x).perform s)) :
    Ends P Q ((read f >>= g).perform s) :=
  ends_bind (.inl hs) fun x t hx _ => by
    obtain rfl : s = t := congrArg Prod.snd hx
    exact h x (congrArg Prod.fst hx)

/-- What comes after an outcome may rely on its value. -/
theorem ends_ofOutcome_bind {s : σ} {o : Outcome ε α} {f : α → Action σ ε β} (hs : P s)
    (h : ∀ x, o = .ok x → Ends P Q ((f x).perform s)) :
    Ends P Q ((ofOutcome o >>= f).perform s) :=
  ends_read_bind (f := fun _ => o) hs h

theorem sustains_ofOutcome_bind {o : Outcome ε α} {f : α → Action σ ε β}
    (h : ∀ x, o = .ok x → (f x).Sustains P Q) : (ofOutcome o >>= f).Sustains P Q :=
  fun s hs => ends_ofOutcome_bind hs fun x hx => h x hx s hs

theorem sustains_map (g : α → β) (ha : a.Sustains P Q) : (g <$> a).Sustains P Q := by
  rw [← bind_pure_comp]
  exact sustains_bind ha fun _ => sustains_pure _

theorem sustains_discard (ha : a.Sustains P Q) : (discard a).Sustains P Q := sustains_map _ ha

/-- Rewording the error of an action leaves its breach. -/
theorem ends_mapError (g : ε → ε') {s : σ} (ha : Ends P Q (a.perform s)) :
    Ends P Q ((mapError g a).perform s) :=
  ha.imp_right fun hbreach => ⟨by rw [perform_mapError, hbreach.1]; rfl, hbreach.2⟩

theorem sustains_mapError (g : ε → ε') (ha : a.Sustains P Q) : (mapError g a).Sustains P Q :=
  fun s hs => ends_mapError g (ha s hs)

/-- A breach goes through an attempt. -/
theorem ends_attempt {s : σ} (ha : Ends P Q (a.perform s)) :
    Ends P Q ((attempt a : Action σ ε' (Except ε α)).perform s) := by
  simp only [attempt, perform_of]
  rcases h : a.perform s with ⟨(e | _) | x, t⟩ <;> rw [h] at ha
  · exact .inl (ha.of_answers (Outcome.answers_error e))
  · exact ha.imp_right fun hbreach => ⟨rfl, hbreach.2⟩
  · exact .inl (ha.of_answers (Outcome.answers_ok x))

theorem sustains_attempt (ha : a.Sustains P Q) :
    (attempt a : Action σ ε' (Except ε α)).Sustains P Q := fun s hs => ends_attempt (ha s hs)

/-- An action on a part of the state leaves what its effect on the part leaves. -/
theorem sustains_on {part : σ → τ} {back : σ → τ → σ} {b : Action τ ε α} {P' Q' : τ → Prop}
    (hb : b.Sustains P' Q') (hpart : ∀ s, P s → P' (part s))
    (hback : ∀ s t, P s → P' t → P (back s t)) (hbreach : ∀ s t, P s → Q' t → Q (back s t)) :
    (b.on part back).Sustains P Q := fun s hs =>
  (hb _ (hpart s hs)).imp (hback s _ hs) fun h => ⟨h.1, hbreach s _ hs h.2⟩

theorem sustains_forEach_of_mem {xs : List β} {f : β → Action σ ε Unit}
    (hf : ∀ x ∈ xs, (f x).Sustains P Q) : (forEach xs f).Sustains P Q := by
  induction xs with
  | nil => exact sustains_pure ()
  | cons x rest ih =>
    exact sustains_bind (hf x List.mem_cons_self) fun _ =>
      ih fun y hy => hf y (List.mem_cons_of_mem x hy)

theorem sustains_forEach {xs : List β} {f : β → Action σ ε Unit}
    (hf : ∀ x, (f x).Sustains P Q) : (forEach xs f).Sustains P Q :=
  sustains_forEach_of_mem fun x _ => hf x

theorem sustains_mapM {xs : List β} {f : β → Action σ ε α} (hf : ∀ x, (f x).Sustains P Q) :
    (xs.mapM f).Sustains P Q := by
  induction xs with
  | nil => exact sustains_pure []
  | cons x rest ih =>
    rw [List.mapM_cons]
    exact sustains_bind (hf x) fun _ => sustains_bind ih fun _ => sustains_pure _

theorem sustains_optionMapM {x : Option β} {f : β → Action σ ε α}
    (hf : ∀ x, (f x).Sustains P Q) : (x.mapM f).Sustains P Q := by
  cases x with
  | none => exact sustains_pure none
  | some x => exact sustains_map some (hf x)

end Action

end Sensitivity
