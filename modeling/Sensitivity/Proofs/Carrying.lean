import Sensitivity.Proofs.Action

/-!
# Successes that carry over

One action carries over to another along a map of states when each of its successes is one of the other
from the image of the state, with the image of the value and in the image of the last state
(`Action.Carries`). Nothing is said about errors: the other action may succeed where the first one
refuses.

An action that is built from parts carries over when the parts do; each way of building an action has
a lemma here.
-/

namespace Sensitivity

namespace Action

variable {σ τ σ' τ' ε ε' α β α' β' : Type}

/-- Each success of `a` is a success of `b` from the image of the state under `f`: its value and its
last state are the images under `g` and `f`. -/
def Carries (f : σ → τ) (g : α → β) (a : Action σ ε α) (b : Action τ ε β) : Prop :=
  ∀ s x t, a.perform s = (.ok x, t) → b.perform (f s) = (.ok (g x), f t)

variable {f : σ → τ} {g : α → β}

theorem carries_refl (a : Action σ ε α) : Carries id id a a := fun _ _ _ h => h

theorem carries_pure (x : α) : Carries f g (pure x : Action σ ε α) (pure (g x)) := by
  intro s y t h
  cases h
  rfl

/-- What never succeeds carries over to anything. -/
theorem carries_fail (e : ε) (b : Action τ ε β) : Carries f g (fail e) b := by
  intro s x t h
  cases h

theorem carries_bind {g' : α' → β'} {a : Action σ ε α} {b : Action τ ε β} {k : α → Action σ ε α'}
    {k' : β → Action τ ε β'} (ha : Carries f g a b) (hk : ∀ x, Carries f g' (k x) (k' (g x))) :
    Carries f g' (a >>= k) (b >>= k') := by
  intro s y u h
  obtain ⟨x, t, hx, hy⟩ := bind_eq_ok.1 h
  exact bind_eq_ok.2 ⟨g x, f t, ha s x t hx, hk x t y u hy⟩

theorem carries_get : Carries f f (get : Action σ ε σ) get := by
  intro s x t h
  cases h
  rfl

theorem carries_ofOutcome {o : Outcome ε α} {o' : Outcome ε β}
    (h : ∀ x, o = .ok x → o' = .ok (g x)) : Carries f g (ofOutcome o) (ofOutcome o') := by
  intro s x t hx
  rw [perform_ofOutcome, Prod.mk.injEq] at hx
  obtain ⟨hx, rfl⟩ := hx
  rw [perform_ofOutcome, h x hx]

theorem carries_read {p : σ → Outcome ε α} {q : τ → Outcome ε β}
    (h : ∀ s x, p s = .ok x → q (f s) = .ok (g x)) : Carries f g (read p) (read q) := by
  intro s x t hx
  rw [perform_read, Prod.mk.injEq] at hx
  obtain ⟨hx, rfl⟩ := hx
  rw [perform_read, h s x hx]

theorem carries_modify {p : σ → σ} {q : τ → τ} (h : ∀ s, q (f s) = f (p s)) :
    Carries f id (modify p : Action σ ε Unit) (modify q) := by
  intro s x t hx
  cases hx
  rw [perform_modify, h]

theorem carries_set {s : σ} {t : τ} (h : t = f s) :
    Carries f id (set s : Action σ ε Unit) (set t) := carries_modify fun _ => h

theorem carries_discard {a : Action σ ε α} {b : Action τ ε β} (h : Carries f g a b) :
    Carries f id (discard a) (discard b) := by
  have hbind {σ α : Type} (a : Action σ ε α) : discard a = a >>= fun _ => pure () :=
    (bind_pure_comp _ a).symm
  rw [hbind, hbind]
  exact carries_bind h fun _ => carries_pure ()

theorem carries_mapError (e : ε → ε') {a : Action σ ε α} {b : Action τ ε β} (h : Carries f g a b) :
    Carries f g (mapError e a) (mapError e b) := by
  intro s x t hx
  rw [perform_mapError, Prod.mk.injEq, Outcome.mapError_eq_ok] at hx
  obtain ⟨hx, rfl⟩ := hx
  rw [perform_mapError, h s x _ (perform_eq_ok hx)]
  rfl

/-- Actions on parts carry over as they do on the parts. -/
theorem carries_on {k : σ' → τ'} {part : σ → σ'} {back : σ → σ' → σ} {part' : τ → τ'}
    {back' : τ → τ' → τ} {a : Action σ' ε α} {b : Action τ' ε β} (h : Carries k g a b)
    (hpart : ∀ s, part' (f s) = k (part s))
    (hback : ∀ s u, back' (f s) (k u) = f (back s u)) :
    Carries f g (a.on part back) (b.on part' back') := by
  intro s x t hx
  rw [perform_on, Prod.mk.injEq] at hx
  obtain ⟨hx, rfl⟩ := hx
  rw [perform_on, hpart, h _ x _ (perform_eq_ok hx), hback]

/-- What comes after an attempt carries over when it does after a success, if there is no success after
an error. -/
theorem carries_attempt_bind {g' : α' → β'} {a : Action σ ε α} {b : Action τ ε β}
    {k : Except ε α → Action σ ε' α'} {k' : Except ε β → Action τ ε' β'} (ha : Carries f g a b)
    (herror : ∀ e s y t, (k (.error e)).perform s ≠ (.ok y, t))
    (hk : ∀ x, Carries f g' (k (.ok x)) (k' (.ok (g x)))) :
    Carries f g' (attempt a >>= k) (attempt b >>= k') := by
  intro s y u h
  obtain ⟨r, t, hr, hy⟩ := bind_eq_ok.1 h
  cases r with
  | error e => exact absurd hy (herror e t y u)
  | ok x =>
    have hx : a.perform s = (.ok x, t) := attempt_eq_ok.1 hr
    exact bind_eq_ok.2 ⟨.ok (g x), f t, attempt_eq_ok.2 (ha s x t hx), hk x t y u hy⟩

theorem carries_forEach {xs : List α} {p : α → Action σ ε Unit} {q : α → Action τ ε Unit}
    (h : ∀ x ∈ xs, Carries f id (p x) (q x)) : Carries f id (forEach xs p) (forEach xs q) := by
  induction xs with
  | nil => exact carries_pure ()
  | cons x rest ih =>
    exact carries_bind (h x List.mem_cons_self) fun _ => ih fun y hy => h y (List.mem_cons_of_mem _ hy)

end Action

end Sensitivity
