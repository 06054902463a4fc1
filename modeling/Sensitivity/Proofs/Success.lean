import Sensitivity.Proofs.Action

/-!
# Actions that succeed

What is known of the value and the state that an action ends with says nothing about whether it ends
with a value at all. `Action.Yields Q` says both: a performed action ended with a value, and with a
state such that `Q` holds of the two. It goes through sequences (`Action.yields_bind`), and through
loops with what holds after every round (`Action.yields_forEach`).
-/

namespace Sensitivity

variable {σ τ ε ε' α β : Type}

/-- Computations that all have values have a list of them. -/
theorem Except.exists_mapM {f : α → Except ε β} {xs : List α} (h : ∀ x ∈ xs, ∃ y, f x = .ok y) :
    ∃ ys, xs.mapM f = .ok ys := by
  induction xs with
  | nil => exact ⟨[], rfl⟩
  | cons x rest ih =>
    obtain ⟨y, hy⟩ := h x List.mem_cons_self
    obtain ⟨ys, hys⟩ := ih fun z hz => h z (List.mem_cons_of_mem x hz)
    exact ⟨y :: ys, Except.mapM_eq_ok.2 (.cons hy (Except.mapM_eq_ok.1 hys))⟩

/-- Steps that all succeed, where something holds, and keep it up, succeed one after another. -/
theorem Except.exists_foldlM {f : β → α → Except ε β} {P : β → Prop} {xs : List α} {b : β}
    (hf : ∀ x ∈ xs, ∀ b, P b → ∃ b', f b x = .ok b' ∧ P b') (hb : P b) :
    ∃ b', xs.foldlM f b = .ok b' ∧ P b' := by
  induction xs generalizing b with
  | nil => exact ⟨b, rfl, hb⟩
  | cons x rest ih =>
    obtain ⟨next, hnext, hP⟩ := hf x List.mem_cons_self b hb
    obtain ⟨last, hlast, hP⟩ := ih (fun y hy => hf y (List.mem_cons_of_mem x hy)) hP
    exact ⟨last, by rw [List.foldlM_cons, hnext]; exact hlast, hP⟩

namespace Action

variable {a : Action σ ε α} {f : α → Action σ ε β} {s : σ} {P : σ → Prop} {Q : α → σ → Prop}
  {S : β → σ → Prop}

/-- An action ended with a value, and with a state such that `Q` holds of both. -/
def Yields (Q : α → σ → Prop) (r : Outcome ε α × σ) : Prop := ∃ x t, r = (.ok x, t) ∧ Q x t

theorem Yields.mono {Q' : α → σ → Prop} {r : Outcome ε α × σ} (h : Yields Q r)
    (hQ : ∀ x t, Q x t → Q' x t) : Yields Q' r := by
  obtain ⟨x, t, hr, hx⟩ := h
  exact ⟨x, t, hr, hQ x t hx⟩

/-- What is known of every successful end is known of this one. -/
theorem Yields.and {Q' : α → σ → Prop} {r : Outcome ε α × σ} (h : Yields Q r)
    (hQ : ∀ x t, r = (.ok x, t) → Q' x t) : Yields (fun x t => Q x t ∧ Q' x t) r := by
  obtain ⟨x, t, hr, hx⟩ := h
  exact ⟨x, t, hr, hx, hQ x t hr⟩

theorem yields_pure {x : α} (h : Q x s) : Yields Q ((pure x : Action σ ε α).perform s) :=
  ⟨x, s, rfl, h⟩

theorem yields_modify {g : σ → σ} {Q : Unit → σ → Prop} (h : Q () (g s)) :
    Yields Q ((modify g : Action σ ε Unit).perform s) := ⟨(), g s, rfl, h⟩

theorem yields_bind (ha : Yields Q (a.perform s)) (hf : ∀ x t, Q x t → Yields S ((f x).perform t)) :
    Yields S ((a >>= f).perform s) := by
  obtain ⟨x, t, hr, hx⟩ := ha
  rw [perform_bind, hr]
  exact hf x t hx

theorem yields_get_bind {f : σ → Action σ ε β} (h : Yields S ((f s).perform s)) :
    Yields S (((get : Action σ ε σ) >>= f).perform s) := h

theorem yields_modify_bind {g : σ → σ} {f : Unit → Action σ ε β}
    (h : Yields S ((f ()).perform (g s))) :
    Yields S (((modify g : Action σ ε Unit) >>= f).perform s) := h

theorem yields_ofOutcome_bind {o : Outcome ε α} {x : α} (ho : o = .ok x)
    (h : Yields S ((f x).perform s)) : Yields S ((ofOutcome o >>= f).perform s) := by
  rw [ho]
  exact h

theorem yields_read_bind {o : σ → Outcome ε α} {x : α} (ho : o s = .ok x)
    (h : Yields S ((f x).perform s)) : Yields S ((read o >>= f).perform s) := by
  rw [perform_bind, perform_read, ho]
  exact h

theorem yields_mapError (g : ε → ε') (h : Yields Q (a.perform s)) :
    Yields Q ((mapError g a).perform s) := by
  obtain ⟨x, t, hr, hx⟩ := h
  exact ⟨x, t, by rw [perform_mapError, hr]; rfl, hx⟩

theorem yields_on {part : σ → τ} {back : σ → τ → σ} {b : Action τ ε α}
    (h : Yields (fun x u => Q x (back s u)) (b.perform (part s))) :
    Yields Q ((on part back b).perform s) := by
  obtain ⟨x, u, hr, hx⟩ := h
  exact ⟨x, back s u, by rw [perform_on, hr], hx⟩

/-- An attempt at something that succeeds. -/
theorem yields_attempt (h : Yields Q (a.perform s)) :
    Yields (fun (r : Except ε α) t => ∃ x, r = .ok x ∧ Q x t)
      ((attempt a : Action σ ε' (Except ε α)).perform s) := by
  obtain ⟨x, t, hr, hx⟩ := h
  exact ⟨.ok x, t, attempt_eq_ok.2 hr, x, rfl, hx⟩

/-- Steps that give values and leave the state alone give a list of them. -/
theorem yields_mapM_kept {P : α → β → Prop} {xs : List α}
    (hf : ∀ x ∈ xs, Yields (fun y t => t = s ∧ P x y) ((f x).perform s)) :
    Yields (fun ys t => t = s ∧ List.Forall₂ P xs ys) ((xs.mapM f).perform s) := by
  induction xs with
  | nil => exact yields_pure ⟨rfl, .nil⟩
  | cons x rest ih =>
    rw [List.mapM_cons]
    refine yields_bind (hf x List.mem_cons_self) fun y t ⟨ht, hy⟩ => ?_
    subst ht
    refine yields_bind (ih fun z hz => hf z (List.mem_cons_of_mem x hz)) fun ys t ⟨ht, hys⟩ => ?_
    subst ht
    exact yields_pure ⟨rfl, .cons hy hys⟩

/-- **A loop succeeds** when each of its rounds does, where something holds, and keeps it up. -/
theorem yields_forEach {xs : List β} {f : β → Action σ ε Unit}
    (hf : ∀ x ∈ xs, ∀ s, P s → Yields (fun _ t => P t) ((f x).perform s)) (hs : P s) :
    Yields (fun _ t => P t) ((forEach xs f).perform s) := by
  induction xs generalizing s with
  | nil => exact yields_pure hs
  | cons x rest ih =>
    refine yields_bind (hf x List.mem_cons_self s hs) fun _ t ht => ?_
    exact ih (fun y hy => hf y (List.mem_cons_of_mem x hy)) ht

end Action

end Sensitivity
