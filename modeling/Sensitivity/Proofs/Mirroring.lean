import Sensitivity.Proofs.Action

/-!
# Actions that show in an image

One action mirrors another along a map of states when, from the image of a state, it answers the same
and leaves the image of what the other one leaves (`Action.Mirrors`). Errors and breaches are mirrored
like values. The map may forget part of the state, so an action that only takes notes of what it does
is mirrored by the one that does not.

An action that is built from parts is mirrored when the parts are; each way of building an action has a
lemma here.
-/

namespace Sensitivity

namespace Action

variable {σ τ σ' τ' ε ε' α β : Type}

/-- From the image of a state under `f` the action `b` answers what `a` answers from the state, and
leaves the image of what `a` leaves. -/
def Mirrors (f : σ → τ) (a : Action σ ε α) (b : Action τ ε α) : Prop :=
  ∀ s, b.perform (f s) = ((a.perform s).1, f (a.perform s).2)

variable {f : σ → τ}

theorem mirrors_pure (x : α) : Mirrors f (pure x : Action σ ε α) (pure x) := fun _ => rfl

theorem mirrors_fail (e : ε) : Mirrors f (fail e : Action σ ε α) (fail e) := fun _ => rfl

theorem mirrors_ofOutcome (o : Outcome ε α) : Mirrors f (ofOutcome o) (ofOutcome o) := fun _ => rfl

theorem mirrors_read {p : σ → Outcome ε α} {q : τ → Outcome ε α} (h : ∀ s, q (f s) = p s) :
    Mirrors f (read p) (read q) := fun s => by rw [perform_read, perform_read, h]

theorem mirrors_modify {p : σ → σ} {q : τ → τ} (h : ∀ s, q (f s) = f (p s)) :
    Mirrors f (modify p : Action σ ε Unit) (modify q) := fun s => by
  rw [perform_modify, perform_modify, h]

theorem mirrors_bind {a : Action σ ε α} {b : Action τ ε α} {k : α → Action σ ε β}
    {k' : α → Action τ ε β} (ha : Mirrors f a b) (hk : ∀ x, Mirrors f (k x) (k' x)) :
    Mirrors f (a >>= k) (b >>= k') := by
  intro s
  rw [perform_bind, perform_bind, ha s]
  rcases a.perform s with ⟨e | x, t⟩
  · rfl
  · exact hk x t

/-- Sequences that begin with a reading of the state. -/
theorem mirrors_get_bind {k : σ → Action σ ε β} {k' : τ → Action τ ε β}
    (hk : ∀ s, Mirrors f (k s) (k' (f s))) :
    Mirrors f ((get : Action σ ε σ) >>= k) ((get : Action τ ε τ) >>= k') := fun s => hk s s

theorem mirrors_mapError (g : ε → ε') {a : Action σ ε α} {b : Action τ ε α} (h : Mirrors f a b) :
    Mirrors f (mapError g a) (mapError g b) := fun s => by
  rw [perform_mapError, perform_mapError, h s]

theorem mirrors_attempt {a : Action σ ε α} {b : Action τ ε α} (h : Mirrors f a b) :
    Mirrors f (attempt a : Action σ ε' (Except ε α)) (attempt b) := by
  intro s
  simp only [attempt, perform_of, h s]
  rcases a.perform s with ⟨(e | _) | x, t⟩ <;> rfl

/-- Actions on parts are mirrored as they are on the parts. -/
theorem mirrors_on {k : σ' → τ'} {part : σ → σ'} {back : σ → σ' → σ} {part' : τ → τ'}
    {back' : τ → τ' → τ} {a : Action σ' ε α} {b : Action τ' ε α} (h : Mirrors k a b)
    (hpart : ∀ s, part' (f s) = k (part s)) (hback : ∀ s u, back' (f s) (k u) = f (back s u)) :
    Mirrors f (a.on part back) (b.on part' back') := by
  intro s
  rw [perform_on, perform_on, hpart, h, hback]

/-- An action on states with something beside them, which it leaves alone. -/
def beside (a : Action σ ε α) : Action (σ × τ) ε α := a.on Prod.fst fun s t => (t, s.2)

/-- What stands beside a state does not matter to it. -/
theorem mirrors_beside (a : Action σ ε α) :
    Mirrors Prod.fst (a.beside : Action (σ × τ) ε α) a := fun _ => rfl

theorem mirrors_forEach {xs : List β} {p : β → Action σ ε Unit} {q : β → Action τ ε Unit}
    (h : ∀ x, Mirrors f (p x) (q x)) : Mirrors f (forEach xs p) (forEach xs q) := by
  induction xs with
  | nil => exact mirrors_pure ()
  | cons x rest ih => exact mirrors_bind (h x) fun _ => ih

end Action

end Sensitivity
