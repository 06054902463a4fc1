import Sensitivity.Proofs.Action

/-!
# Runs side by side

Two actions are coupled when, started in related states, they end alike: both with a value, both
with the same error, or both with a breach (`Action.Couples`). What relates the states before,
after a value and after an error may differ, and so may the values. `Action.Twins rel` is the usual
case: the values are equal, and whatever happens the states stay related by `rel`.

A computation whose steps are coupled with those of another is coupled with it; each way of building
an action has a lemma here.
-/

namespace Sensitivity

namespace Action

variable {σ τ ε ε' α β γ δ : Type}

/-- Results that are alike: related values, or the same error, or a breach. -/
inductive Alike (post : α → β → σ → σ → Prop) (err : σ → σ → Prop) :
    Outcome ε α × σ → Outcome ε β × σ → Prop
  | value {x : α} {y : β} {s t : σ} (h : post x y s t) : Alike post err (.ok x, s) (.ok y, t)
  | error {e : ε} {s t : σ} (h : err s t) :
      Alike post err (.error (.error e), s) (.error (.error e), t)
  | breach {s t : σ} : Alike post err (.error .breach, s) (.error .breach, t)

/-- From states related by `pre` two actions end alike. -/
def Couples (pre : σ → σ → Prop) (post : α → β → σ → σ → Prop) (err : σ → σ → Prop)
    (a : Action σ ε α) (b : Action σ ε β) : Prop :=
  ∀ s t, pre s t → Alike post err (a.perform s) (b.perform t)

/-- From states related by `rel` two actions answer the same, and the states stay related. -/
def Twins (rel : σ → σ → Prop) (a b : Action σ ε α) : Prop :=
  Couples rel (fun x y s t => x = y ∧ rel s t) rel a b

section Couples

variable {pre err : σ → σ → Prop} {post : α → β → σ → σ → Prop}

theorem Alike.mono {post' : α → β → σ → σ → Prop} {err' : σ → σ → Prop}
    {r : Outcome ε α × σ} {q : Outcome ε β × σ} (h : Alike post err r q)
    (hpost : ∀ x y s t, post x y s t → post' x y s t) (herr : ∀ s t, err s t → err' s t) :
    Alike post' err' r q := by
  cases h with
  | value h => exact .value (hpost _ _ _ _ h)
  | error h => exact .error (herr _ _ h)
  | breach => exact .breach

/-- What relates the states before can be strengthened, and what relates them after weakened. -/
theorem Couples.mono {pre' err' : σ → σ → Prop} {post' : α → β → σ → σ → Prop} {a : Action σ ε α}
    {b : Action σ ε β} (h : Couples pre post err a b) (hpre : ∀ s t, pre' s t → pre s t)
    (hpost : ∀ x y s t, post x y s t → post' x y s t) (herr : ∀ s t, err s t → err' s t) :
    Couples pre' post' err' a b :=
  fun s t hs => (h s t (hpre s t hs)).mono hpost herr

theorem couples_pure {x : α} {y : β} (h : ∀ s t, pre s t → post x y s t) :
    Couples pre post err (pure x : Action σ ε α) (pure y) := fun s t hs => .value (h s t hs)

theorem couples_bind {mid : α → β → σ → σ → Prop} {last : γ → δ → σ → σ → Prop}
    {a : Action σ ε α} {b : Action σ ε β} {f : α → Action σ ε γ} {g : β → Action σ ε δ}
    (ha : Couples pre mid err a b) (hf : ∀ x y, Couples (mid x y) last err (f x) (g y)) :
    Couples pre last err (a >>= f) (b >>= g) := by
  intro s t hs
  rw [perform_bind, perform_bind]
  have h := ha s t hs
  generalize a.perform s = r at h
  generalize b.perform t = q at h
  cases h with
  | value h => exact hf _ _ _ _ h
  | error h => exact .error h
  | breach => exact .breach

/-- Sequences that begin with a reading of the state. -/
theorem couples_get_bind {f : σ → Action σ ε α} {g : σ → Action σ ε β}
    (h : ∀ s t, pre s t → Alike post err ((f s).perform s) ((g t).perform t)) :
    Couples pre post err ((get : Action σ ε σ) >>= f) ((get : Action σ ε σ) >>= g) := h

/-- Sequences that begin with the same outcome. -/
theorem couples_ofOutcome_bind {o : Outcome ε γ} {f : γ → Action σ ε α} {g : γ → Action σ ε β}
    (herr : ∀ s t, pre s t → err s t) (h : ∀ x, o = .ok x → Couples pre post err (f x) (g x)) :
    Couples pre post err (ofOutcome o >>= f) (ofOutcome o >>= g) := by
  rcases o with (e | _) | x
  · exact fun s t hs => .error (herr s t hs)
  · exact fun s t _ => .breach
  · exact h x rfl

theorem couples_modify {f g : σ → σ} {post : Unit → Unit → σ → σ → Prop}
    (h : ∀ s t, pre s t → post () () (f s) (g t)) :
    Couples pre post err (modify f : Action σ ε Unit) (modify g) := fun s t hs => .value (h s t hs)

theorem couples_mapError (f : ε → ε') {a : Action σ ε α} {b : Action σ ε β}
    (h : Couples pre post err a b) : Couples pre post err (mapError f a) (mapError f b) := by
  intro s t hs
  rw [perform_mapError, perform_mapError]
  have h := h s t hs
  generalize a.perform s = r at h
  generalize b.perform t = q at h
  cases h with
  | value h => exact .value h
  | error h => exact .error h
  | breach => exact .breach

/-- Actions on parts are coupled as they are on the parts. -/
theorem couples_on {part part' : σ → τ} {back back' : σ → τ → σ} {a : Action τ ε α}
    {b : Action τ ε β} {pre' err' : τ → τ → Prop} {post' : α → β → τ → τ → Prop}
    (h : Couples pre' post' err' a b) (hpart : ∀ s t, pre s t → pre' (part s) (part' t))
    (hpost : ∀ s t x y u v, pre s t → post' x y u v → post x y (back s u) (back' t v))
    (herr : ∀ s t u v, pre s t → err' u v → err (back s u) (back' t v)) :
    Couples pre post err (a.on part back) (b.on part' back') := by
  intro s t hs
  rw [perform_on, perform_on]
  have h := h _ _ (hpart s t hs)
  generalize a.perform (part s) = r at h
  generalize b.perform (part' t) = q at h
  cases h with
  | value h => exact .value (hpost _ _ _ _ _ _ hs h)
  | error h => exact .error (herr _ _ _ _ hs h)
  | breach => exact .breach

end Couples

section Twins

variable {rel : σ → σ → Prop} {a b : Action σ ε α}

/-- Twins give the same answer. -/
theorem Twins.outcome_eq (h : Twins rel a b) {s t : σ} (hs : rel s t) :
    (a.perform s).1 = (b.perform t).1 := by
  have h := h s t hs
  generalize a.perform s = r at h
  generalize b.perform t = q at h
  cases h with
  | value h => rw [h.1]
  | error _ => rfl
  | breach => rfl

/-- Twins leave related states, unless they breach. -/
theorem Twins.rel_of_answers (h : Twins rel a b) {s t : σ} (hs : rel s t)
    (ha : (a.perform s).1.Answers) : rel (a.perform s).2 (b.perform t).2 := by
  have h := h s t hs
  generalize a.perform s = r at h ha
  generalize b.perform t = q at h
  cases h with
  | value h => exact h.2
  | error h => exact h
  | breach => exact absurd rfl ha

/-- What each of two runs preserves by itself can be added to what relates them. -/
theorem Twins.and {P Q : σ → Prop} (h : Twins rel a b) (ha : a.Preserves P) (hb : b.Preserves Q) :
    Twins (fun s t => rel s t ∧ P s ∧ Q t) a b := by
  rintro s t ⟨hs, hp, hq⟩
  have h := h s t hs
  have hp := ha s hp
  have hq := hb t hq
  generalize a.perform s = r at h hp
  generalize b.perform t = q at h hq
  cases h with
  | value h => exact .value ⟨h.1, h.2, hp (by simp), hq (by simp)⟩
  | error h => exact .error ⟨h, hp (by simp), hq (by simp)⟩
  | breach => exact .breach

@[simp] theorem twins_pure (x : α) : Twins rel (pure x : Action σ ε α) (pure x) :=
  couples_pure fun _ _ h => ⟨rfl, h⟩

@[simp] theorem twins_fail (e : ε) : Twins rel (fail e : Action σ ε α) (fail e) :=
  fun _ _ h => .error h

theorem twins_bind {f g : α → Action σ ε β} (ha : Twins rel a b)
    (hf : ∀ x, Twins rel (f x) (g x)) : Twins rel (a >>= f) (b >>= g) := by
  refine couples_bind ha fun x y s t ⟨hxy, hs⟩ => ?_
  subst hxy
  exact hf x s t hs

theorem twins_get_bind {f g : σ → Action σ ε α}
    (h : ∀ s t, rel s t → Twins rel (f s) (g t)) :
    Twins rel ((get : Action σ ε σ) >>= f) ((get : Action σ ε σ) >>= g) :=
  couples_get_bind fun s t hs => h s t hs s t hs

theorem twins_ofOutcome (o : Outcome ε α) : Twins rel (ofOutcome o) (ofOutcome o) := by
  rcases o with (e | _) | x
  · exact fun _ _ h => .error h
  · exact fun _ _ _ => .breach
  · exact fun _ _ h => .value ⟨rfl, h⟩

theorem twins_read {f g : σ → Outcome ε α} (h : ∀ s t, rel s t → f s = g t) :
    Twins rel (read f) (read g) := by
  intro s t hs
  have := twins_ofOutcome (f s) s t hs
  rw [perform_read, perform_read, ← h s t hs]
  exact this

theorem twins_modify {f g : σ → σ} (h : ∀ s t, rel s t → rel (f s) (g t)) :
    Twins rel (modify f : Action σ ε Unit) (modify g) :=
  couples_modify fun s t hs => ⟨rfl, h s t hs⟩

theorem twins_set {u v : σ} (h : rel u v) : Twins rel (set u : Action σ ε Unit) (set v) :=
  fun _ _ _ => .value ⟨rfl, h⟩

theorem twins_map (f : α → β) (h : Twins rel a b) : Twins rel (f <$> a) (f <$> b) := by
  rw [← bind_pure_comp, ← bind_pure_comp]
  exact twins_bind h fun x => twins_pure (f x)

theorem twins_discard (h : Twins rel a b) : Twins rel (discard a) (discard b) := twins_map _ h

theorem twins_mapError (f : ε → ε') (h : Twins rel a b) :
    Twins rel (mapError f a) (mapError f b) := couples_mapError f h

theorem twins_attempt (h : Twins rel a b) :
    Twins rel (attempt a : Action σ ε' (Except ε α)) (attempt b) := by
  intro s t hs
  have h := h s t hs
  simp only [attempt, perform_of]
  generalize a.perform s = r at h
  generalize b.perform t = q at h
  cases h with
  | value h => exact .value ⟨by rw [h.1], h.2⟩
  | error h => exact .value ⟨rfl, h⟩
  | breach => exact .breach

theorem twins_on {part part' : σ → τ} {back back' : σ → τ → σ} {c d : Action τ ε α}
    {rel' : τ → τ → Prop} (h : Twins rel' c d) (hpart : ∀ s t, rel s t → rel' (part s) (part' t))
    (hback : ∀ s t u v, rel s t → rel' u v → rel (back s u) (back' t v)) :
    Twins rel (c.on part back) (d.on part' back') :=
  couples_on h hpart (fun s t _ _ u v hs hu => ⟨hu.1, hback s t u v hs hu.2⟩)
    fun s t u v hs hu => hback s t u v hs hu

theorem twins_forEach {xs : List β} {f g : β → Action σ ε Unit}
    (h : ∀ x ∈ xs, Twins rel (f x) (g x)) : Twins rel (forEach xs f) (forEach xs g) := by
  induction xs with
  | nil => exact twins_pure ()
  | cons x rest ih =>
    exact twins_bind (h x List.mem_cons_self) fun _ => ih fun y hy => h y (List.mem_cons_of_mem _ hy)

theorem twins_mapM {xs : List β} {f g : β → Action σ ε α}
    (h : ∀ x ∈ xs, Twins rel (f x) (g x)) : Twins rel (xs.mapM f) (xs.mapM g) := by
  induction xs with
  | nil => exact twins_pure []
  | cons x rest ih =>
    rw [List.mapM_cons, List.mapM_cons]
    exact twins_bind (h x List.mem_cons_self) fun _ =>
      twins_bind (ih fun y hy => h y (List.mem_cons_of_mem _ hy)) fun _ => twins_pure _

theorem twins_optionMapM {x : Option β} {f g : β → Action σ ε α} (h : ∀ x, Twins rel (f x) (g x)) :
    Twins rel (x.mapM f) (x.mapM g) := by
  cases x with
  | none => exact twins_pure none
  | some x => exact twins_map some (h x)

end Twins

end Action

end Sensitivity
