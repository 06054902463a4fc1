import Sensitivity.Proofs.Model.Landing

/-!
# What marked groups seal off

A group whose derivatives are approximated as a whole stands in the linear system of the model for
its outputs by the inputs that read nothing inside it. What its members read of a design variable
inside it is no part of this.
-/

namespace Sensitivity

namespace Model

section Sealed

/-- Three times the input. -/
def threefold : AffineLaw Rat := ⟨fun _ => 0, fun _ _ => 3⟩

/-- A source and three times its value, in one group, with approximations of the group and of the
model. -/
def sealedSystem (inner root : Option (Settings Rat)) : Group Rat Unit where
  settings := { GroupSettings.plain with approximation := root }
  members := .group "g" { GroupSettings.plain with
        connections := [("p.x", "c.x")]
        approximation := inner }
      (.component "p" (.independent () [("x", .scalar 1)]) <| .component "c"
        (threefold.component [("x", .scalar 0)] [("y", .scalar 0)] .finiteDifference) .empty) .empty

/-- The derivative of one variable by another, in the state after a run of the model of a system. -/
def entryAfterRun (g : Group Rat Unit) (of wrt : String) : Option Rat :=
  letI := cramerSolver
  do
    let m ← (ofGroup g .standard).toOption
    let s ← m.start.toOption
    m.run.perform s |>.1.toOption
    let totals ← (m.computeTotals [.whole of] [.whole wrt]).perform (m.run.perform s).2
      |>.1.toOption
    let block ← totals.get? (of, wrt)
    pure (block.entry 0 0)

/-- The totals after a run of the model of a system have an entry. -/
def HasEntry (g : Group Rat Unit) (of wrt : String) (x : Rat) : Prop :=
  letI := cramerSolver
  ∃ m s t totals u block, ofGroup g .standard = .ok m ∧ m.start = .ok s ∧
    m.run.perform s = (.ok (), t) ∧
    (m.computeTotals [.whole of] [.whole wrt]).perform t = (.ok totals, u) ∧
    totals.get? (of, wrt) = some block ∧ block.entry 0 0 = x

theorem hasEntry_of_entryAfterRun {g : Group Rat Unit} {of wrt : String} {x : Rat}
    (h : entryAfterRun g of wrt = some x) : HasEntry g of wrt x := by
  obtain ⟨m, hm, h⟩ := Option.bind_eq_some_iff.1 h
  obtain ⟨s, hs, h⟩ := Option.bind_eq_some_iff.1 h
  obtain ⟨_, hrun, h⟩ := Option.bind_eq_some_iff.1 h
  obtain ⟨totals, htotals, h⟩ := Option.bind_eq_some_iff.1 h
  obtain ⟨block, hblock, h⟩ := Option.bind_eq_some_iff.1 h
  exact ⟨m, s, _, totals, _, block, Except.eq_ok_of_toOption hm, Except.eq_ok_of_toOption hs,
    Action.perform_eq_ok (Except.eq_ok_of_toOption hrun),
    Action.perform_eq_ok (Except.eq_ok_of_toOption htotals), hblock, Option.some.inj h⟩

/-- The derivative of the value by the source is as given. -/
def Seals (inner root : Option (Settings Rat)) (x : Rat) : Prop :=
  HasEntry (sealedSystem inner root) "g.c.y" "g.p.x" x

/-- **A marked group seals off what is read inside it:** the value does not depend on the source,
while it does where no group is marked. -/
theorem severed_inside : Seals (some .finiteDifference) none 0 ∧ Seals none none 3 :=
  ⟨hasEntry_of_entryAfterRun (by decide +kernel), hasEntry_of_entryAfterRun (by decide +kernel)⟩

/-- **An approximation of the model does not see the mark** of the group inside it, which the chain
rule does. -/
theorem severed_by_chain : Seals (some .finiteDifference) (some .finiteDifference) 3 ∧
    Seals (some .finiteDifference) none 0 :=
  ⟨hasEntry_of_entryAfterRun (by decide +kernel), hasEntry_of_entryAfterRun (by decide +kernel)⟩

end Sealed

end Model

end Sensitivity
