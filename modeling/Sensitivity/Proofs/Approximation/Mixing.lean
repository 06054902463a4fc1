import Sensitivity.Approximation.Assembler
import Sensitivity.Proofs.Action
import Sensitivity.Scalar.Double

/-!
# Merges that are refused

Assemblers of different plans are not merged at all. Those of plans with as many requests and
directions are added slot by slot, and the first slot that holds a dense block in one of them and a
sparse one in the other ends the merge (`Assembler.FirstMixed`). The sums up to there stay in place
(`Assembler.addedBefore`): a refused merge has changed no mark of a direction and nothing that was
found outside a pattern, but the blocks before the mixed one (`Assembler.merge_refused_iff`). So what
is finished after it may hold values twice (`Assembler.exists_half_merged`).
-/

namespace Sensitivity

variable {R : Type} [Scalar R]

namespace Assembler

/-- Blocks of different kinds are refused; blocks of one kind that do not fit are a breach. -/
theorem addBlocks_eq_error_iff {a b : Block R} {e : ApproximationError R} :
    addBlocks a b = .error (.error e) ↔ a.isSparse ≠ b.isSparse ∧ e = .mergeKinds := by
  cases a <;> cases b <;> simp only [addBlocks, Block.isSparse]
  · rename_i m n
    cases m.combine? (· + ·) n <;> simp [Outcome.ofOption, Outcome.breach, Except.map]
  · simp [Outcome.fail, eq_comm]
  · simp [Outcome.fail, eq_comm]
  · simp

/-- The slots before place `k` add up with other slots, and those at this place are of different
kinds. -/
def FirstMixed (slots others : List (AssemblySlot R)) (k : Nat) : Prop :=
  (∀ i < k, ∃ s t b, slots[i]? = some s ∧ others[i]? = some t ∧
    addBlocks s.block t.block = .ok b) ∧
  ∃ s t, slots[k]? = some s ∧ others[k]? = some t ∧ s.block.isSparse ≠ t.block.isSparse

/-- Slots with the blocks of other slots added to those before place `k`. -/
def addedBefore : Nat → List (AssemblySlot R) → List (AssemblySlot R) → List (AssemblySlot R)
  | k + 1, s :: rest, t :: others =>
    { s with block := (addBlocks s.block t.block).toOption.getD s.block } ::
      addedBefore k rest others
  | _, slots, _ => slots

theorem firstMixed_zero {s t : AssemblySlot R} {slots others : List (AssemblySlot R)} :
    FirstMixed (s :: slots) (t :: others) 0 ↔ s.block.isSparse ≠ t.block.isSparse := by
  simp [FirstMixed]

theorem firstMixed_succ {s t : AssemblySlot R} {slots others : List (AssemblySlot R)} {k : Nat} :
    FirstMixed (s :: slots) (t :: others) (k + 1) ↔
      (∃ b, addBlocks s.block t.block = .ok b) ∧ FirstMixed slots others k := by
  constructor
  · rintro ⟨hbefore, hmixed⟩
    refine ⟨?_, fun i hi => ?_, by simpa using hmixed⟩
    · simpa using hbefore 0 (by omega)
    · simpa using hbefore (i + 1) (by omega)
  · rintro ⟨hfirst, hbefore, hmixed⟩
    refine ⟨fun i hi => ?_, by simpa using hmixed⟩
    cases i with
    | zero => simpa using hfirst
    | succ i => simpa using hbefore i (by omega)

/-- Adding slot by slot is refused at the first pair of different kinds, with the sums so far. -/
theorem addSlotBlocks_eq_error_iff {slots others found : List (AssemblySlot R)}
    {e : ApproximationError R} :
    addSlotBlocks slots others = (.error (.error e), found) ↔
      e = .mergeKinds ∧ ∃ k, FirstMixed slots others k ∧ found = addedBefore k slots others := by
  induction slots generalizing others found with
  | nil => simp [addSlotBlocks, FirstMixed]
  | cons s rest ih =>
    cases others with
    | nil => simp [addSlotBlocks, FirstMixed]
    | cons t others =>
      cases hadd : addBlocks s.block t.block with
      | error f =>
        have hcannot (k : Nat) : ¬ FirstMixed (s :: rest) (t :: others) (k + 1) := by
          simp [firstMixed_succ, hadd]
        have hplace : (∃ k, FirstMixed (s :: rest) (t :: others) k ∧
            found = addedBefore k (s :: rest) (t :: others)) ↔
            s.block.isSparse ≠ t.block.isSparse ∧ found = s :: rest := by
          constructor
          · rintro ⟨_ | k, hk, hfound⟩
            · exact ⟨firstMixed_zero.1 hk, hfound⟩
            · exact absurd hk (hcannot k)
          · rintro ⟨hkinds, hfound⟩
            exact ⟨0, firstMixed_zero.2 hkinds, hfound⟩
        have hkinds := addBlocks_eq_error_iff (a := s.block) (b := t.block) (e := e)
        rw [hadd, Except.error.injEq] at hkinds
        rw [hplace, addSlotBlocks, hadd, Prod.mk.injEq, Except.error.injEq, hkinds]
        tauto
      | ok b =>
        have hsame : ¬ FirstMixed (s :: rest) (t :: others) 0 := by
          rw [firstMixed_zero, not_not]
          by_contra hne
          cases hadd.symm.trans (addBlocks_eq_error_iff.2 ⟨hne, rfl⟩)
        have hplace : (∃ k, FirstMixed (s :: rest) (t :: others) k ∧
            found = addedBefore k (s :: rest) (t :: others)) ↔
            ∃ k, FirstMixed rest others k ∧
              found = { s with block := b } :: addedBefore k rest others := by
          constructor
          · rintro ⟨_ | k, hk, hfound⟩
            · exact absurd hk hsame
            · rw [addedBefore, hadd] at hfound
              exact ⟨k, (firstMixed_succ.1 hk).2, hfound⟩
          · rintro ⟨k, hk, hfound⟩
            refine ⟨k + 1, firstMixed_succ.2 ⟨⟨b, hadd⟩, hk⟩, ?_⟩
            rw [addedBefore, hadd]
            exact hfound
        rw [hplace, addSlotBlocks, hadd]
        dsimp only
        rw [Prod.mk.injEq]
        constructor
        · rintro ⟨hrest, rfl⟩
          obtain ⟨he, k, hk, hfound⟩ := ih.1 (Prod.ext hrest rfl)
          exact ⟨he, k, hk, by rw [← hfound]⟩
        · rintro ⟨he, k, hk, rfl⟩
          have hrest := ih.2 ⟨he, k, hk, rfl⟩
          exact ⟨congrArg Prod.fst hrest, by rw [hrest]⟩

/-- Assemblers with as many slots, and as many directions. -/
def Matches (a b : Assembler R) : Prop :=
  b.slots.length = a.slots.length ∧ b.deposited.length = a.deposited.length

/-- **What a refused merge leaves**: the assembler as it was if the plans differ, and else the sums of
all blocks before the first pair of a dense and a sparse one. -/
theorem merge_refused_iff (a b other : Assembler R) (e : ApproximationError R) :
    (merge other).perform a = (.error (.error e), b) ↔
      e = .mergePlans ∧ ¬ a.Matches other ∧ b = a ∨
      e = .mergeKinds ∧ a.Matches other ∧ ∃ k, FirstMixed a.slots other.slots k ∧
        b = { a with slots := addedBefore k a.slots other.slots } := by
  unfold merge
  rw [Action.perform_get_bind]
  by_cases hplan : a.Matches other
  · have hlengths : ¬ (other.slots.length ≠ a.slots.length ∨
        other.deposited.length ≠ a.deposited.length) := by
      rw [not_or, not_not, not_not]
      exact hplan
    rw [if_neg hlengths]
    cases hadded : addSlotBlocks a.slots other.slots with
    | mk added found =>
      cases added with
      | ok done =>
        have hnone (k : Nat) : ¬ FirstMixed a.slots other.slots k := fun hk => by
          cases hadded.symm.trans (addSlotBlocks_eq_error_iff.2 ⟨rfl, k, hk, rfl⟩)
        simp [Action.perform_bind, hplan, hnone]
      | error f =>
        simp only [Action.perform_bind, Action.perform_set, Action.perform_ofOutcome,
          Prod.mk.injEq, Except.error.injEq, hplan, not_true_eq_false, false_and, and_false,
          false_or, true_and]
        constructor
        · rintro ⟨rfl, rfl⟩
          obtain ⟨he, k, hk, rfl⟩ := addSlotBlocks_eq_error_iff.1 hadded
          exact ⟨he, k, hk, rfl⟩
        · rintro ⟨rfl, k, hk, rfl⟩
          cases hadded.symm.trans (addSlotBlocks_eq_error_iff.2 ⟨rfl, k, hk, rfl⟩)
          exact ⟨rfl, rfl⟩
  · have hlengths : other.slots.length ≠ a.slots.length ∨
        other.deposited.length ≠ a.deposited.length := by
      by_contra hsame
      rw [not_or, not_not, not_not] at hsame
      exact hplan hsame
    rw [if_pos hlengths]
    simp [Action.perform_bind, Outcome.fail, hplan, eq_comm]

/-- The assemblers of some requests on variables of some sizes, with any directions in. -/
inductive Built (requests : List (Request R)) (sizes : Sizes) : Assembler R → Prop
  | start {plan : Plan R} {a : Assembler R} (hplan : Plan.build requests sizes = .ok plan)
    (h : start requests sizes plan = .ok a) : Built requests sizes a
  | deposit {a b : Assembler R} {index : Nat} {d : Direction} {steps : List R}
    {numerators : Table String (List R)} (ha : Built requests sizes a)
    (h : (deposit index d steps numerators).perform a = (.ok (), b)) : Built requests sizes b

section Halfway

/-- `y` and `z` by `x`, with a pattern for `z` or without one. -/
def pairRequests (p : Option Pattern) : List (Request Float) :=
  [Request.whole "y" "x" .finiteDifference,
    { Request.whole "z" "x" .finiteDifference with pattern := p }]

/-- Variables of one entry each. -/
def pairSizes : Sizes := .ofList [("y", 1), ("z", 1), ("x", 1)]

/-- The only direction of both requests. -/
def pairDirection : Direction := ⟨0, [⟨"x", 0, [⟨0, 0⟩, ⟨1, 0⟩]⟩]⟩

/-- An assembler of the requests with numerators of one over a step of one half. -/
def writePair (p : Option Pattern) : Option (Assembler Float) := do
  let plan ← (Plan.build (pairRequests p) pairSizes).toOption
  let a ← (start (pairRequests p) pairSizes plan).toOption
  match (deposit 0 pairDirection [0.5] (.ofList [("y", [1]), ("z", [1])])).perform a with
  | (.ok (), b) => some b
  | _ => none

theorem built_of_writePair {p : Option Pattern} {a : Assembler Float} (h : writePair p = some a) :
    Built (pairRequests p) pairSizes a := by
  obtain ⟨plan, hplan, h⟩ := Option.bind_eq_some_iff.1 h
  obtain ⟨first, hstart, h⟩ := Option.bind_eq_some_iff.1 h
  split at h
  · cases h
    exact .deposit (.start (Except.eq_ok_of_toOption hplan) (Except.eq_ok_of_toOption hstart))
      ‹_›
  · cases h

/-- The finished derivative of `y`. -/
def finishedSlope (a : Assembler Float) : Option Float := do
  let (blocks, _) ← a.finish.toOption
  (← blocks.get? ("y", "x")).get? 0 0

/-- The derivative of `y` before and after a merge that is refused. -/
def slopesOfRefused (a other : Assembler Float) : Option (Float × Float) :=
  match (merge other).perform a with
  | (.error (.error _), b) => do return (← finishedSlope a, ← finishedSlope b)
  | _ => none

/-- **A refused merge leaves its first sums behind**: the dense blocks of `y` have been added when those
of `z` turn out to be of different kinds, and the derivative of `y` is finished with twice its
value. -/
theorem exists_half_merged : ∃ (requests others : List (Request Float)) (sizes : Sizes)
    (a other b : Assembler Float) (e : ApproximationError Float),
    Built requests sizes a ∧ Built others sizes other ∧
    (merge other).perform a = (.error (.error e), b) ∧
    finishedSlope a = some 2.0 ∧ finishedSlope b = some 4.0 := by
  have hrun : (writePair none).bind (fun a => (writePair (some ⟨[0], [0]⟩)).bind
      (slopesOfRefused a)) = some (2.0, 4.0) := by decide +kernel
  obtain ⟨a, ha, hrun⟩ := Option.bind_eq_some_iff.1 hrun
  obtain ⟨other, hother, hrun⟩ := Option.bind_eq_some_iff.1 hrun
  unfold slopesOfRefused at hrun
  split at hrun
  · rename_i e b hmerge
    obtain ⟨before, hbefore, hrun⟩ := Option.bind_eq_some_iff.1 hrun
    obtain ⟨after, hafter, hrun⟩ := Option.bind_eq_some_iff.1 hrun
    cases hrun
    exact ⟨_, _, _, a, other, b, e, built_of_writePair ha, built_of_writePair hother, hmerge,
      hbefore, hafter⟩
  · cases hrun

end Halfway

end Assembler

end Sensitivity
