import Mathlib

/-!
# Derivatives of affine systems

An affine system has slopes of output entries by input entries, and some input entries read output
entries (`Flow`). When entries change, an output entry changes by its tangent (`Flow.tangent`), which
is the only solution of the equations of the system (`Flow.eq_tangent`). It is zero where no path of
slopes and wires leads from a change (`Flow.of_tangent_ne_zero`).

A part of the system may be taken by itself: what it makes of changes of the inputs that it does not
read from itself, one at a time, adds up to the tangent (`Flow.tangent_eq_gather`). So parts may stand
in the system as a whole (`Flow.condense`), which leaves the tangents as they are unless an output
entry inside a part is changed that the part itself reads (`Flow.tangent_condense`).
-/

namespace Sensitivity

/-- The slopes of an affine system, and the output entry that an input entry reads. -/
structure Flow (R : Type) where
  /-- The number of input entries. -/
  inputs : Nat
  slope : Nat → Nat → R
  wire : Nat → Option Nat

namespace Flow

variable {R : Type} [CommRing R] (F : Flow R) (x y : Nat → R)

/-- The change of an input entry when output entries change by `z`, and input entries that read none
by `x`. -/
def feed (z : Nat → R) (j : Nat) : R :=
  match F.wire j with
  | some q => z q
  | none => x j

/-- The change of an output entry when input entries change by `x` and output entries by `y`, the
latter in addition to what is computed for them. -/
def tangent (r : Nat) : R :=
  y r + ∑ j ∈ Finset.range F.inputs, F.slope r j * match F.wire j with
    | some q => if q < r then tangent q else 0
    | none => x j
termination_by r

/-- Entries depend on entries before them. -/
def Ordered : Prop := ∀ r j q, F.slope r j ≠ 0 → F.wire j = some q → q < r

variable {F x y}

/-- **Tangents satisfy the equations of the system.** -/
theorem tangent_eq (hF : F.Ordered) (r : Nat) : F.tangent x y r =
    y r + ∑ j ∈ Finset.range F.inputs, F.slope r j * F.feed x (F.tangent x y) j := by
  rw [tangent]
  refine congrArg (y r + ·) (Finset.sum_congr rfl fun j _ => ?_)
  by_cases hslope : F.slope r j = 0
  · rw [hslope, zero_mul, zero_mul]
  · unfold feed
    split
    · rename_i q hwire
      rw [if_pos (hF r j q hslope hwire)]
    · rfl

/-- **Only tangents satisfy the equations of the system**, on entries that only depend on one another.
What an equation weighs with zero does not matter to it. -/
theorem eq_tangent (hF : F.Ordered) {Q : Nat → Prop}
    (hQ : ∀ r j q, Q r → F.slope r j ≠ 0 → F.wire j = some q → Q q) {E : Nat → Nat → R} {z : Nat → R}
    (hz : ∀ r, Q r → z r = y r + ∑ j ∈ Finset.range F.inputs, E r j * F.feed x z j)
    (hE : ∀ r, Q r → ∀ j < F.inputs, E r j = F.slope r j ∨ F.feed x z j = 0) {r : Nat} (hr : Q r) :
    z r = F.tangent x y r := by
  induction r using Nat.strongRecOn with
  | ind r ih =>
    rw [hz r hr, tangent_eq hF]
    refine congrArg (y r + ·) (Finset.sum_congr rfl fun j hj => ?_)
    have hsame : E r j * F.feed x z j = F.slope r j * F.feed x z j := by
      rcases hE r hr j (Finset.mem_range.1 hj) with h | h <;> simp only [h, mul_zero]
    rw [hsame]
    by_cases hslope : F.slope r j = 0
    · rw [hslope, zero_mul, zero_mul]
    · unfold feed
      split
      · rename_i q hwire
        rw [ih q (hF r j q hslope hwire) (hQ r j q hr hslope hwire)]
      · rfl

/-- Tangents are proportional to the changes. -/
theorem tangent_mul (hF : F.Ordered) (δ : R) (r : Nat) :
    F.tangent (fun j => δ * x j) (fun r => δ * y r) r = δ * F.tangent x y r := by
  refine (eq_tangent (Q := fun _ => True) (z := fun r => δ * F.tangent x y r) hF
    (fun _ _ _ _ _ _ => trivial) (fun r _ => ?_) (fun _ _ _ _ => .inl rfl) trivial).symm
  rw [tangent_eq hF r, mul_add, Finset.mul_sum]
  refine congrArg (δ * y r + ·) (Finset.sum_congr rfl fun j _ => ?_)
  rw [mul_left_comm]
  refine congrArg (F.slope r j * ·) ?_
  unfold feed
  split <;> rfl

/-- **What does not depend on a change does not change.** -/
theorem of_tangent_ne_zero (hF : F.Ordered) {A B : Nat → Prop} (hx : ∀ j, x j ≠ 0 → A j)
    (hy : ∀ r, y r ≠ 0 → B r) (hslope : ∀ r j, F.slope r j ≠ 0 → A j → B r)
    (hwire : ∀ j q, F.wire j = some q → B q → A j) {r : Nat} (h : F.tangent x y r ≠ 0) : B r := by
  induction r using Nat.strongRecOn with
  | ind r ih =>
    by_contra hr
    rw [tangent_eq hF, not_not.1 (mt (hy r) hr), zero_add] at h
    obtain ⟨j, -, hj⟩ := Finset.exists_ne_zero_of_sum_ne_zero h
    have hs := left_ne_zero_of_mul hj
    have hfeed := right_ne_zero_of_mul hj
    refine hr (hslope r j hs ?_)
    unfold feed at hfeed
    split at hfeed
    · rename_i q hq
      exact hwire j q hq (ih q (hF r j q hs hq) hfeed)
    · exact hx j hfeed

/-- The change of an input entry that does not depend on a change. -/
theorem of_feed_ne_zero {z : Nat → R} {A B : Nat → Prop} (hx : ∀ j, x j ≠ 0 → A j)
    (hz : ∀ r, z r ≠ 0 → B r) (hwire : ∀ j q, F.wire j = some q → B q → A j) {j : Nat}
    (h : F.feed x z j ≠ 0) : A j := by
  unfold feed at h
  split at h
  · rename_i q hq
    exact hwire j q hq (hz q h)
  · exact hx j h

section Within

variable (F) (P : Nat → Bool)

/-- The system with the wires that come from some output entries only. -/
def within : Flow R := { F with wire := fun j => (F.wire j).filter P }

/-- The change of one input entry. -/
def unit (k j : Nat) : R := if j = k then 1 else 0

/-- The sum of changes `v`, with weights `d`, of the inputs that a part does not read from itself. -/
def gather (v d : Nat → R) : R :=
  ∑ k ∈ Finset.range F.inputs, if ((F.wire k).filter P).isNone then d k * v k else 0

variable {F P}

theorem Ordered.within (hF : F.Ordered) (P : Nat → Bool) : (F.within P).Ordered :=
  fun r j q hslope hwire => hF r j q hslope (Option.filter_eq_some_iff.1 hwire).1

/-- Sums with weights that are sums themselves. -/
theorem sum_mul_gather (v : Nat → R) (s : Nat → R) (d : Nat → Nat → R) :
    ∑ j ∈ Finset.range F.inputs, s j * F.gather P v (d j) =
      F.gather P v fun k => ∑ j ∈ Finset.range F.inputs, s j * d j k := by
  unfold gather
  simp only [Finset.mul_sum]
  rw [Finset.sum_comm]
  refine Finset.sum_congr rfl fun k _ => ?_
  split
  · simp only [Finset.sum_mul, mul_assoc]
  · simp only [mul_zero, Finset.sum_const_zero]

/-- An input entry of a part adds up from what the part makes of its inputs, and of the changes `c` of
its outputs, if the output entry of the part does that it reads, if any. -/
theorem feed_eq_gather {v z c : Nat → R} {w : Nat → Nat → R} {j : Nat} (hj : j < F.inputs)
    (hv : F.feed x z j = v j)
    (h : ∀ q, F.wire j = some q → P q = true → z q = c q + F.gather P v fun k => w k q) :
    v j = (F.within P).feed (fun _ => 0) c j +
      F.gather P v fun k => (F.within P).feed (unit k) (w k) j := by
  cases hwire : (F.wire j).filter P with
  | none =>
    have hown (k : Nat) : (F.within P).feed (unit k) (w k) j = if j = k then 1 else 0 := by
      simp only [feed, within, hwire, unit]
    have hnone : (F.within P).feed (fun _ => 0) c j = 0 := by
      simp only [feed, within, hwire]
    rw [hnone, zero_add]
    unfold gather
    simp only [hown]
    rw [Finset.sum_eq_single_of_mem j (Finset.mem_range.2 hj) fun k _ hne => ?_]
    · rw [hwire, if_pos rfl, if_pos (by rfl), one_mul]
    · rw [if_neg hne.symm, zero_mul, ite_self]
  | some q =>
    obtain ⟨hq, hP⟩ := Option.filter_eq_some_iff.1 hwire
    have hinner (x z : Nat → R) : (F.within P).feed x z j = z q := by
      simp only [feed, within, hwire]
    simp only [hinner]
    rw [← h q hq hP, ← hv]
    simp only [feed, hq]

/-- **A part by itself**: tangents add up from what the part makes of the changes of its outputs, and
of each input that it does not read from itself. -/
theorem tangent_eq_gather (hF : F.Ordered) (r : Nat) : F.tangent x y r =
    (F.within P).tangent (fun _ => 0) y r + F.gather P (F.feed x (F.tangent x y)) fun k =>
      (F.within P).tangent (unit k) (fun _ => 0) r := by
  induction r using Nat.strongRecOn with
  | ind r ih =>
    have hrow (j : Nat) (hj : j ∈ Finset.range F.inputs) :
        F.slope r j * F.feed x (F.tangent x y) j = F.slope r j *
          (F.within P).feed (fun _ => 0) ((F.within P).tangent (fun _ => 0) y) j +
          F.slope r j * F.gather P (F.feed x (F.tangent x y)) fun k =>
            (F.within P).feed (unit k) ((F.within P).tangent (unit k) fun _ => 0) j := by
      by_cases hslope : F.slope r j = 0
      · rw [hslope, zero_mul, zero_mul, zero_mul, add_zero]
      · rw [← mul_add, ← feed_eq_gather (w := fun k => (F.within P).tangent (unit k) fun _ => 0)
          (Finset.mem_range.1 hj) rfl fun q hq _ => ih q (hF r j q hslope hq)]
    rw [tangent_eq hF, Finset.sum_congr rfl hrow, Finset.sum_add_distrib, sum_mul_gather,
      ← add_assoc, tangent_eq (hF.within P)]
    refine congrArg (_ + ·) (congrArg (F.gather P _) (funext fun k => ?_))
    rw [tangent_eq (hF.within P), zero_add]
    rfl

end Within

section Condense

variable (F) (part : Nat → Option (Nat → Bool))

/-- The system in which an output entry of a part depends on the inputs that the part does not read
from itself, as the part makes it. `part r` is the part that an output entry belongs to, if any. -/
def condense : Flow R :=
  { F with
    slope := fun r j =>
      match part r with
      | none => F.slope r j
      | some P =>
        if ((F.wire j).filter P).isNone then (F.within P).tangent (unit j) (fun _ => 0) r else 0 }

variable {F part}

/-- **Condensing parts changes no tangents**, as long as no change of an output entry matters inside
its own part. -/
theorem tangent_condense (hF : F.Ordered) (hcondensed : (F.condense part).Ordered)
    (hy : ∀ r P, part r = some P → (F.within P).tangent (fun _ => 0) y r = y r) (r : Nat) :
    (F.condense part).tangent x y r = F.tangent x y r := by
  refine (eq_tangent (Q := fun _ => True) hcondensed (fun _ _ _ _ _ _ => trivial) (fun r _ => ?_)
    (fun _ _ _ _ => .inl rfl) trivial).symm
  cases hpart : part r with
  | none =>
    simp only [condense, hpart]
    exact tangent_eq hF r
  | some P =>
    rw [tangent_eq_gather (P := P) hF r, hy r P hpart]
    simp only [condense, hpart, ite_mul, zero_mul]
    rfl

end Condense

end Flow

end Sensitivity
