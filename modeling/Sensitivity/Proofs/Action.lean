import Mathlib.Data.List.Forall2
import Sensitivity.Action

/-!
# What an action preserves

`Action.Preserves inv a` says that `a`, unless it breaches, leads from a state with
`inv` to a state with `inv`. An error is an answer like a value (`Outcome.Answers`):
the invariant has to survive it too. Each way of building an action has a lemma
here, so that an invariant of a long computation follows from those of its steps.

`Action.Keeps view a` is the frame property: whatever the view of the state was
before, it is the same afterwards. `Action.Respects view a` is the complement: the
outcome of `a`, and the view it leaves, depend on the view of the state alone.
-/

namespace Sensitivity

variable {σ τ ε ε' α β γ : Type}

/-- A value or a reported error. -/
def Outcome.Answers (o : Outcome ε α) : Prop := o ≠ .error .breach

namespace Outcome

@[simp] theorem answers_ok (a : α) : Answers (.ok a : Outcome ε α) := by simp [Answers]

@[simp] theorem answers_error (e : ε) : Answers (.error (.error e) : Outcome ε α) := by
  simp [Answers]

@[simp] theorem not_answers_breach : ¬ Answers (.error .breach : Outcome ε α) := by simp [Answers]

instance decidableAnswers : (o : Outcome ε α) → Decidable o.Answers
  | .ok a => .isTrue (answers_ok a)
  | .error (.error e) => .isTrue (answers_error e)
  | .error .breach => .isFalse not_answers_breach

@[simp] theorem answers_mapError (f : ε → ε') (o : Outcome ε α) :
    Answers (o.mapError f) ↔ Answers o := by
  rcases o with (_ | _) | _ <;> simp [mapError]

/-- Rewording errors changes no value. -/
@[simp] theorem mapError_eq_ok (f : ε → ε') (o : Outcome ε α) (a : α) :
    o.mapError f = .ok a ↔ o = .ok a := by
  rcases o with (_ | _) | _ <;> simp [mapError]

@[simp] theorem ofOption_eq_ok (o : Option α) (a : α) :
    (ofOption o : Outcome ε α) = .ok a ↔ o = some a := by
  cases o <;> simp [ofOption, breach]

@[simp] theorem expect_eq_ok (e : ε) (o : Option α) (a : α) :
    (expect e o : Outcome ε α) = .ok a ↔ o = some a := by
  cases o <;> simp [expect, fail]

@[simp] theorem ofExcept_eq_ok (x : Except ε α) (a : α) :
    (ofExcept x : Outcome ε α) = .ok a ↔ x = .ok a := by
  cases x <;> simp [ofExcept, fail]

end Outcome

/-- A value of a sequence comes from a value of each part. -/
theorem Except.bind_eq_ok {x : Except ε α} {f : α → Except ε β} {b : β} :
    (x >>= f) = .ok b ↔ ∃ a, x = .ok a ∧ f a = .ok b := by
  cases x <;> simp [bind, Except.bind]

/-- What goes wrong in a sequence goes wrong in one of its parts. -/
theorem Except.bind_eq_error {x : Except ε α} {f : α → Except ε β} {e : ε} :
    (x >>= f) = .error e ↔ x = .error e ∨ ∃ a, x = .ok a ∧ f a = .error e := by
  cases x <;> simp [bind, Except.bind]

/-- The values of a list of computations, one for each. -/
theorem Except.mapM_eq_ok {f : α → Except ε β} {xs : List α} {ys : List β} :
    xs.mapM f = .ok ys ↔ List.Forall₂ (fun x y => f x = .ok y) xs ys := by
  induction xs generalizing ys with
  | nil => cases ys <;> simp [pure, Except.pure]
  | cons x xs ih =>
    rw [List.mapM_cons]
    simp only [Except.bind_eq_ok, ih]
    cases ys <;> simp [pure, Except.pure]

/-- What a list of computations yields is what one of them yields. -/
theorem Except.mapM_singleton_eq_ok {f : α → Except ε β} {x : α} {ys : List β} :
    [x].mapM f = .ok ys ↔ ∃ y, f x = .ok y ∧ ys = [y] := by
  rw [Except.mapM_eq_ok, List.forall₂_cons_left_iff]
  simp

theorem Except.mem_mapM {f : α → Except ε β} {xs : List α} {ys : List β}
    (h : xs.mapM f = .ok ys) {y : β} : y ∈ ys ↔ ∃ x ∈ xs, f x = .ok y := by
  rw [Except.mapM_eq_ok] at h
  induction h with
  | nil => simp
  | cons hx _ ih => simp [ih, hx, eq_comm]

/-- Each of the elements that correspond to others does so to one of them. -/
theorem exists_of_forall₂ {P : α → β → Prop} {xs : List α} {ys : List β}
    (h : List.Forall₂ P xs ys) {y : β} (hy : y ∈ ys) : ∃ x ∈ xs, P x y := by
  induction h with
  | nil => cases hy
  | @cons x _ xs ys hx _ ih =>
    rcases List.mem_cons.1 hy with rfl | hy
    · exact ⟨x, List.mem_cons_self, hx⟩
    · obtain ⟨z, hz, hzy⟩ := ih hy
      exact ⟨z, List.mem_cons_of_mem x hz, hzy⟩

/-- Each of a list of computations has a value. -/
theorem Except.exists_of_mapM {f : α → Except ε β} {xs : List α} {ys : List β}
    (h : xs.mapM f = .ok ys) {x : α} (hx : x ∈ xs) : ∃ y, f x = .ok y := by
  rw [Except.mapM_eq_ok] at h
  induction h with
  | nil => cases hx
  | cons hy _ ih =>
    rcases List.mem_cons.1 hx with rfl | hx
    · exact ⟨_, hy⟩
    · exact ih hx

/-- With each entry answered, the answers are those of the entries. -/
theorem Except.mapM_eq_filterMap {f : α → Except ε β} {xs : List α} {ys : List β}
    (h : xs.mapM f = .ok ys) : xs.filterMap (fun x => (f x).toOption) = ys := by
  rw [Except.mapM_eq_ok] at h
  induction h with
  | nil => rfl
  | cons hx _ ih =>
    rw [List.filterMap_cons, hx, ← ih]
    rfl

/-- What each step of a fold preserves holds at its end. -/
theorem Except.of_foldlM_eq_ok {f : β → α → Except ε β} {P : β → Prop} {xs : List α} {b b' : β}
    (hf : ∀ b, ∀ x ∈ xs, ∀ b', P b → f b x = .ok b' → P b') (hb : P b)
    (h : xs.foldlM f b = .ok b') : P b' := by
  induction xs generalizing b with
  | nil =>
    cases h
    exact hb
  | cons x rest ih =>
    rw [List.foldlM_cons] at h
    obtain ⟨next, hnext, h⟩ := Except.bind_eq_ok.1 h
    exact ih (fun b y hy => hf b y (List.mem_cons_of_mem x hy))
      (hf b x List.mem_cons_self next hb hnext) h

/-- The values of a list of partial computations, one for each. -/
theorem Option.mapM_eq_some {f : α → Option β} {xs : List α} {ys : List β} :
    xs.mapM f = some ys ↔ List.Forall₂ (fun x y => f x = some y) xs ys := by
  induction xs generalizing ys with
  | nil => cases ys <;> simp
  | cons x xs ih =>
    rw [List.mapM_cons]
    simp only [Option.bind_eq_bind, Option.bind_eq_some_iff, ih]
    cases ys <;> simp

/-- What a list of partial computations yields is what one of them yields. -/
theorem Option.mem_mapM {f : α → Option β} {xs : List α} {ys : List β}
    (h : xs.mapM f = some ys) {y : β} : y ∈ ys ↔ ∃ x ∈ xs, f x = some y := by
  rw [Option.mapM_eq_some] at h
  induction h with
  | nil => simp
  | cons hx _ ih => simp [ih, hx, eq_comm]

/-- Partial computations that all have values have a list of them. -/
theorem Option.exists_mapM {f : α → Option β} {xs : List α} (h : ∀ x ∈ xs, ∃ y, f x = some y) :
    ∃ ys, xs.mapM f = some ys := by
  induction xs with
  | nil => exact ⟨[], rfl⟩
  | cons x rest ih =>
    obtain ⟨y, hy⟩ := h x List.mem_cons_self
    obtain ⟨ys, hys⟩ := ih fun z hz => h z (List.mem_cons_of_mem x hz)
    exact ⟨y :: ys, Option.mapM_eq_some.2 (.cons hy (Option.mapM_eq_some.1 hys))⟩

/-- The value of an outcome that has one. -/
theorem Except.eq_ok_of_toOption {x : Except ε α} {a : α} (h : x.toOption = some a) :
    x = .ok a := by
  cases x with
  | error e => cases h
  | ok b => cases h; rfl

/-- A loop over checks succeeds when every check does. -/
theorem Except.of_forIn_eq_ok {f : α → Except ε Unit} {xs : List α}
    (h : (forIn xs PUnit.unit fun x _ => do f x; pure (ForInStep.yield PUnit.unit)) = .ok ()) :
    ∀ x ∈ xs, f x = .ok () := by
  induction xs with
  | nil => simp
  | cons x rest ih =>
    simp only [List.forIn_cons, Except.bind_eq_ok] at h
    obtain ⟨_, ⟨⟨⟩, hx, hy⟩, hrest⟩ := h
    cases hy
    intro y hy
    rcases List.mem_cons.1 hy with rfl | hy
    · exact hx
    · exact ih hrest y hy

namespace Action

section Values

variable {a : Action σ ε α} {f : α → Action σ ε β} {s t : σ} {x : α} {v : β}

/-- An action with a value, and where it leads. -/
theorem perform_eq_ok (h : (a.perform s).1 = .ok x) : a.perform s = (.ok x, (a.perform s).2) :=
  Prod.ext h rfl

/-- A value of a sequence comes from a value of each part. -/
theorem bind_eq_ok :
    (a >>= f).perform s = (.ok v, t) ↔
      ∃ x u, a.perform s = (.ok x, u) ∧ (f x).perform u = (.ok v, t) := by
  rw [perform_bind]
  rcases h : a.perform s with ⟨_ | x, u⟩
  · simp
  · simp only [Prod.mk.injEq, Except.ok.injEq]
    constructor
    · exact fun h => ⟨x, u, ⟨rfl, rfl⟩, h⟩
    · rintro ⟨_, _, ⟨rfl, rfl⟩, h⟩
      exact h

/-- Actions that do the same to every state are the same. -/
theorem ext_perform {a b : Action σ ε α} (h : ∀ s, a.perform s = b.perform s) : a = b := funext h

/-- Sequences with the same first part are the same if they go on in the same way from every value
that it can end with. -/
theorem bind_congr_of_value {g : α → Action σ ε β}
    (h : ∀ x s t, a.perform s = (.ok x, t) → f x = g x) : a >>= f = a >>= g := by
  refine ext_perform fun s => ?_
  rw [perform_bind, perform_bind]
  rcases ha : a.perform s with ⟨_ | x, t⟩
  · rfl
  · simp only [h x s t ha]

theorem perform_discard (a : Action σ ε α) (s : σ) :
    (discard a).perform s = ((a.perform s).1.map fun _ => (), (a.perform s).2) := by
  show ((fun _ => PUnit.unit) <$> a).perform s = _
  rw [← bind_pure_comp, perform_bind]
  rcases a.perform s with ⟨_ | x, t⟩ <;> rfl

/-- A sequence that begins with an outcome. -/
theorem ofOutcome_bind_eq_ok {o : Outcome ε α} :
    (ofOutcome o >>= f).perform s = (.ok v, t) ↔
      ∃ x, o = .ok x ∧ (f x).perform s = (.ok v, t) := by
  rw [perform_bind]
  cases o <;> simp

/-- A sequence that begins with a reading of the state. -/
theorem perform_get_bind {f : σ → Action σ ε β} :
    ((get : Action σ ε σ) >>= f).perform s = (f s).perform s := rfl

/-- The values of a list of actions, each of them performed in some state. -/
theorem forall₂_of_mapM {g : α → Action σ ε β} {xs : List α} {ys : List β}
    (h : (xs.mapM g).perform s = (.ok ys, t)) :
    List.Forall₂ (fun x y => ∃ u w, (g x).perform u = (.ok y, w)) xs ys := by
  induction xs generalizing ys s with
  | nil =>
    cases h
    exact .nil
  | cons x rest ih =>
    rw [List.mapM_cons] at h
    obtain ⟨y, u, hy, h⟩ := bind_eq_ok.1 h
    obtain ⟨rest', w, hrest, h⟩ := bind_eq_ok.1 h
    cases h
    exact .cons ⟨s, u, hy⟩ (ih hrest)

/-- Outcomes for the elements of a list leave the state alone. -/
theorem mapM_ofOutcome (g : α → Outcome ε β) (xs : List α) (s : σ) :
    (xs.mapM fun x => (ofOutcome (g x) : Action σ ε β)).perform s = (xs.mapM g, s) := by
  induction xs with
  | nil => rfl
  | cons x rest ih =>
    rw [List.mapM_cons, List.mapM_cons, perform_bind, perform_ofOutcome]
    cases g x with
    | error e => rfl
    | ok y =>
      dsimp only
      rw [perform_bind, ih]
      cases rest.mapM g <;> rfl

/-- A successful attempt is a successful action. -/
theorem attempt_eq_ok :
    (attempt a : Action σ ε' (Except ε α)).perform s = (.ok (.ok x), t) ↔
      a.perform s = (.ok x, t) := by
  simp only [attempt, perform_of]
  split <;> simp_all [Outcome.breach]

end Values

/-- Unless it breaches, an action leads from states with `inv` to states with `inv`. -/
def Preserves (inv : σ → Prop) (a : Action σ ε α) : Prop :=
  ∀ s, inv s → (a.perform s).1.Answers → inv (a.perform s).2

/-- Unless it breaches, an action leaves a view of the state as it was. -/
def Keeps (view : σ → γ) (a : Action σ ε α) : Prop :=
  ∀ c, a.Preserves fun s => view s = c

section Preserves

variable {inv : σ → Prop} {a : Action σ ε α}

/-- Where an action with a value leads. -/
theorem Preserves.of_ok {s t : σ} {x : α} (ha : a.Preserves inv) (hs : inv s)
    (h : a.perform s = (.ok x, t)) : inv t := by
  have ht := ha s hs
  rw [h] at ht
  exact ht (Outcome.answers_ok x)

@[simp] theorem preserves_pure (x : α) : (pure x : Action σ ε α).Preserves inv := fun _ h _ => h

@[simp] theorem preserves_fail (e : ε) : (fail e : Action σ ε α).Preserves inv := fun _ h _ => h

@[simp] theorem preserves_ofOutcome (o : Outcome ε α) :
    (ofOutcome o : Action σ ε α).Preserves inv := fun _ h _ => h

@[simp] theorem preserves_read (f : σ → Outcome ε α) : (read f : Action σ ε α).Preserves inv :=
  fun _ h _ => h

@[simp] theorem preserves_get : (get : Action σ ε σ).Preserves inv := fun _ h _ => h

theorem preserves_set {t : σ} (h : inv t) : (set t : Action σ ε Unit).Preserves inv :=
  fun _ _ _ => h

theorem preserves_modify {f : σ → σ} (h : ∀ s, inv s → inv (f s)) :
    (modify f : Action σ ε Unit).Preserves inv := fun s hs _ => h s hs

/-- The second part of a sequence starts from the state that the first one leaves. -/
theorem inv_bind {s : σ} {f : α → Action σ ε β}
    (ha : (a.perform s).1.Answers → inv (a.perform s).2) (hf : ∀ x, (f x).Preserves inv)
    (h : ((a >>= f).perform s).1.Answers) : inv ((a >>= f).perform s).2 := by
  rw [perform_bind] at h ⊢
  rcases ho : a.perform s with ⟨_ | x, u⟩
  · simp only [ho] at h ha ⊢
    exact ha (by simpa [Outcome.Answers] using h)
  · simp only [ho] at h ha ⊢
    exact hf x u (ha (by simp)) h

theorem preserves_bind {f : α → Action σ ε β} (ha : a.Preserves inv)
    (hf : ∀ x, (f x).Preserves inv) : (a >>= f).Preserves inv :=
  fun s hs => inv_bind (ha s hs) hf

/-- What comes after a reading of the state may rely on what was read. -/
theorem preserves_get_bind {f : σ → Action σ ε β}
    (h : ∀ s, inv s → ((f s).perform s).1.Answers → inv ((f s).perform s).2) :
    ((get : Action σ ε σ) >>= f).Preserves inv := by
  intro s hs ha
  rw [perform_bind, perform_get] at ha ⊢
  exact h s hs ha

/-- What comes after an outcome may rely on its value. -/
theorem preserves_ofOutcome_bind {o : Outcome ε α} {f : α → Action σ ε β}
    (h : ∀ x, o = .ok x → (f x).Preserves inv) : (ofOutcome o >>= f).Preserves inv := by
  rcases o with e | x
  · exact fun s hs _ => hs
  · exact h x rfl

theorem preserves_map (g : α → β) (ha : a.Preserves inv) : (g <$> a).Preserves inv := by
  rw [← bind_pure_comp]
  exact preserves_bind ha fun _ => preserves_pure _

theorem preserves_discard (ha : a.Preserves inv) : (discard a).Preserves inv :=
  preserves_map _ ha

theorem preserves_mapError (g : ε → ε') (ha : a.Preserves inv) :
    (mapError g a).Preserves inv := by
  intro s hs h
  rw [perform_mapError] at h ⊢
  exact ha s hs ((Outcome.answers_mapError g _).1 h)

/-- An attempt has a value for an error. -/
theorem attempt_ne_error (a : Action σ ε α) (s : σ) (e : ε') :
    ((attempt a : Action σ ε' (Except ε α)).perform s).1 ≠ .error (.error e) := by
  simp only [attempt, perform_of]
  split <;> simp [Outcome.breach]

/-- A breach goes through, so an attempt answers only where the action does. -/
theorem inv_attempt {s : σ} (ha : (a.perform s).1.Answers → inv (a.perform s).2)
    (h : ((attempt a : Action σ ε' (Except ε α)).perform s).1.Answers) :
    inv ((attempt a : Action σ ε' (Except ε α)).perform s).2 := by
  simp only [attempt, perform_of] at h ⊢
  rcases ho : a.perform s with ⟨(e | _) | x, u⟩
  · simp only [ho] at ha ⊢
    exact ha (by simp)
  · simp [ho, Outcome.breach] at h
  · simp only [ho] at ha ⊢
    exact ha (by simp)

theorem preserves_attempt (ha : a.Preserves inv) :
    (attempt a : Action σ ε' (Except ε α)).Preserves inv := fun s hs => inv_attempt (ha s hs)

/-- An action on a part preserves what its effect on the part preserves. -/
theorem preserves_on {part : σ → τ} {back : σ → τ → σ} {b : Action τ ε α}
    (h : ∀ s, inv s → (b.perform (part s)).1.Answers → inv (back s (b.perform (part s)).2)) :
    (b.on part back).Preserves inv := fun s hs ha => h s hs ha

theorem preserves_forEach {xs : List β} {f : β → Action σ ε Unit}
    (hf : ∀ x, (f x).Preserves inv) : (forEach xs f).Preserves inv := by
  induction xs with
  | nil => exact preserves_pure ()
  | cons x rest ih => exact preserves_bind (hf x) fun _ => ih

end Preserves

/-- What keeps a view keeps every view of it. -/
theorem Keeps.comp {view : σ → γ} {a : Action σ ε α} {δ : Type} (g : γ → δ) (h : a.Keeps view) :
    a.Keeps fun s => g (view s) := by
  rintro c s rfl ha
  exact congrArg g (h _ s rfl ha)

/-- States with equal views answer alike and are left with equal views. -/
def Respects (view : σ → γ) (a : Action σ ε α) : Prop :=
  ∀ s t, view s = view t →
    (a.perform s).1 = (a.perform t).1 ∧ view (a.perform s).2 = view (a.perform t).2

section Respects

variable {view : σ → γ} {a : Action σ ε α}

theorem respects_pure (x : α) : (pure x : Action σ ε α).Respects view := fun _ _ h => ⟨rfl, h⟩

theorem respects_bind {f : α → Action σ ε β} (ha : a.Respects view)
    (hf : ∀ x, (f x).Respects view) : (a >>= f).Respects view := by
  intro s t h
  obtain ⟨ho, hv⟩ := ha s t h
  rw [perform_bind, perform_bind]
  rcases hs : a.perform s with ⟨_ | x, u⟩ <;> rcases ht : a.perform t with ⟨_ | y, w⟩ <;>
    simp only [hs, ht, reduceCtorEq, Except.error.injEq, Except.ok.injEq] at ho hv
  · exact ⟨by rw [ho], hv⟩
  · subst ho
    exact hf x u w hv

theorem respects_forEach {xs : List β} {f : β → Action σ ε Unit}
    (hf : ∀ x, (f x).Respects view) : (forEach xs f).Respects view := by
  induction xs with
  | nil => exact respects_pure ()
  | cons x rest ih => exact respects_bind (hf x) fun _ => ih

end Respects

theorem forEach_map {xs : List α} (g : α → β) (f : β → Action σ ε Unit) :
    forEach (xs.map g) f = forEach xs fun x => f (g x) := by
  induction xs with
  | nil => rfl
  | cons x rest ih => simp only [List.map_cons, forEach, ih]

theorem forEach_append (xs ys : List α) (f : α → Action σ ε Unit) :
    forEach (xs ++ ys) f = forEach xs f >>= fun _ => forEach ys f := by
  induction xs with
  | nil => simp [forEach]
  | cons x rest ih => simp only [List.cons_append, forEach, ih, bind_assoc]

theorem forEach_flatMap (xs : List α) (l : α → List β) (f : β → Action σ ε Unit) :
    forEach (xs.flatMap l) f = forEach xs fun x => forEach (l x) f := by
  induction xs with
  | nil => rfl
  | cons x rest ih => rw [List.flatMap_cons, forEach_append, forEach, ih]

end Action

end Sensitivity
