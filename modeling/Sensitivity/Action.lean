/-!
# Outcomes and actions

A computation ends in one of three ways: with a value, with an error that it
reports, or with a breach, when a caller broke the contract of an operation (an
index outside its range, a name that was never declared, an operation out of
turn). Errors are answers and the work goes on after them; after a breach there
is nothing to go on from.

An action also changes a state, and keeps what it did to the state up to an error.
-/

namespace Sensitivity

/-- Why a computation has no value. -/
inductive Fault (ε : Type) where
  /-- A reported error. -/
  | error (e : ε)
  /-- A broken contract of the caller. -/
  | breach
deriving DecidableEq

/-- A value, an error or a breach. -/
abbrev Outcome (ε α : Type) := Except (Fault ε) α

namespace Outcome

variable {ε ε' α : Type}

/-- Ends with an error. -/
def fail (e : ε) : Outcome ε α := .error (.error e)

/-- Ends with a breach. -/
def breach : Outcome ε α := .error .breach

/-- Rewords the error of an outcome. -/
def mapError (f : ε → ε') : Outcome ε α → Outcome ε' α
  | .ok a => .ok a
  | .error (.error e) => .error (.error (f e))
  | .error .breach => .error .breach

/-- A value that has to be there. -/
def ofOption : Option α → Outcome ε α
  | some a => .ok a
  | none => breach

/-- A value whose absence is the error `e`. -/
def expect (e : ε) : Option α → Outcome ε α
  | some a => .ok a
  | none => fail e

/-- A computation that cannot breach. -/
def ofExcept : Except ε α → Outcome ε α
  | .ok a => .ok a
  | .error e => fail e

end Outcome

/-- A computation on a state `σ`. The state survives an error. -/
abbrev Action (σ ε α : Type) := ExceptT (Fault ε) (StateM σ) α

namespace Action

variable {σ τ ε ε' α : Type}

/-- An action from what it does to a state. -/
def of (f : σ → Outcome ε α × σ) : Action σ ε α := ExceptT.mk f

/-- Performs an action on a state. -/
def perform (a : Action σ ε α) (s : σ) : Outcome ε α × σ := ExceptT.run a s

/-- Ends with an error. -/
def fail (e : ε) : Action σ ε α := of fun s => (Outcome.fail e, s)

/-- An outcome that leaves the state alone. -/
def ofOutcome (o : Outcome ε α) : Action σ ε α := of fun s => (o, s)

/-- An outcome read off the state. -/
def read (f : σ → Outcome ε α) : Action σ ε α := of fun s => (f s, s)

/-- Rewords the error of an action. -/
def mapError (f : ε → ε') (a : Action σ ε α) : Action σ ε' α :=
  of fun s =>
    let r := a.perform s
    (r.1.mapError f, r.2)

/-- The outcome of an action as a value; only a breach goes through. -/
def attempt (a : Action σ ε α) : Action σ ε' (Except ε α) :=
  of fun s =>
    match a.perform s with
    | (.ok v, t) => (.ok (.ok v), t)
    | (.error (.error e), t) => (.ok (.error e), t)
    | (.error .breach, t) => (Outcome.breach, t)

/-- Performs an action on a part of the state: `part` takes it out and `back` puts
it in again, also after an error. -/
def on (part : σ → τ) (back : σ → τ → σ) (a : Action τ ε α) : Action σ ε α :=
  of fun s =>
    let r := a.perform (part s)
    (r.1, back s r.2)

/-- Performs an action for each entry of a list, from the left. -/
def forEach (xs : List α) (f : α → Action σ ε Unit) : Action σ ε Unit :=
  match xs with
  | [] => pure ()
  | x :: rest => do
    f x
    forEach rest f

@[simp] theorem perform_of (f : σ → Outcome ε α × σ) (s : σ) : (of f).perform s = f s := rfl

@[simp] theorem perform_pure (a : α) (s : σ) :
    (pure a : Action σ ε α).perform s = (.ok a, s) := rfl

/-- What comes after a value starts from the state it leaves; a fault ends the action. -/
theorem perform_bind {β : Type} (a : Action σ ε α) (f : α → Action σ ε β) (s : σ) :
    (a >>= f).perform s =
      match a.perform s with
      | (.ok v, t) => (f v).perform t
      | (.error e, t) => (.error e, t) := by
  simp only [perform, bind, ExceptT.bind, ExceptT.mk, ExceptT.run, StateT.bind, ExceptT.bindCont]
  cases h : a s with
  | mk r t => cases r <;> rfl

@[simp] theorem perform_get (s : σ) : (get : Action σ ε σ).perform s = (.ok s, s) := rfl

@[simp] theorem perform_set (s t : σ) : (set t : Action σ ε Unit).perform s = (.ok (), t) := rfl

@[simp] theorem perform_modify (f : σ → σ) (s : σ) :
    (modify f : Action σ ε Unit).perform s = (.ok (), f s) := rfl

@[simp] theorem perform_fail (e : ε) (s : σ) :
    (fail e : Action σ ε α).perform s = (Outcome.fail e, s) := rfl

@[simp] theorem perform_ofOutcome (o : Outcome ε α) (s : σ) :
    (ofOutcome o).perform s = (o, s) := rfl

@[simp] theorem perform_read (f : σ → Outcome ε α) (s : σ) : (read f).perform s = (f s, s) := rfl

@[simp] theorem perform_mapError (f : ε → ε') (a : Action σ ε α) (s : σ) :
    (mapError f a).perform s = ((a.perform s).1.mapError f, (a.perform s).2) := rfl

/-- An action on a part changes the state as it changes the part. -/
@[simp] theorem perform_on (part : σ → τ) (back : σ → τ → σ) (a : Action τ ε α) (s : σ) :
    (on part back a).perform s = ((a.perform (part s)).1, back s (a.perform (part s)).2) := rfl

end Action

end Sensitivity
