import Sensitivity.Component
import Sensitivity.Settings

/-!
# Trees of components

A system is a tree: groups whose members are components and other groups, in the order
in which they run. A group connects outputs of its members to inputs of its members,
by names relative to itself, chooses how its members are converged, and may ask for
its derivatives to be approximated as a whole.
-/

namespace Sensitivity

/-- When a Newton iteration stops. -/
structure NewtonSettings (R : Type) where
  /-- The residual norm that is small enough. -/
  absolute : R
  /-- The residual norm that is small enough, relative to the first one. -/
  relative : R
  /-- The number of iterations after which it gives up. -/
  iterations : Nat
  /-- Whether giving up is an error. -/
  required : Bool

namespace NewtonSettings

/-- Ten iterations to ten digits, and a notice when they do not suffice. -/
def standard {R : Type} [Scalar R] : NewtonSettings R := ⟨1e-10, 1e-10, 10, false⟩

end NewtonSettings

/-- How the members of a group are converged. -/
inductive Solver (R : Type) where
  /-- Each member runs once, in order. -/
  | runOnce
  /-- The outputs of all members are solved for together. -/
  | newton (settings : NewtonSettings R)

/-- What a group says besides its members. -/
structure GroupSettings (R : Type) where
  /-- Pairs of an output and the input that reads it. -/
  connections : List (String × String)
  solver : Solver R
  /-- How the derivatives of the group as a whole are approximated, if they are. -/
  approximation : Option (Settings R)

namespace GroupSettings

/-- No connections, every member once, no approximation. -/
def plain {R : Type} : GroupSettings R := ⟨[], .runOnce, none⟩

end GroupSettings

/-- The named members of a group, in order. -/
inductive Members (R M : Type) where
  | empty
  | component (name : String) (c : Component R M) (rest : Members R M)
  | group (name : String) (settings : GroupSettings R) (members rest : Members R M)

namespace Members

/-- The number of direct members. -/
def size {R M : Type} : Members R M → Nat
  | empty => 0
  | component _ _ rest => rest.size + 1
  | group _ _ _ rest => rest.size + 1

end Members

/-- A group with its members. -/
structure Group (R M : Type) where
  settings : GroupSettings R
  members : Members R M

end Sensitivity
