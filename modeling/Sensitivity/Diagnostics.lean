/-!
# Diagnostics

What a computation noticed without failing: notices in the order in which they
arose, each with the scope it concerns, its kind and its wording.
-/

namespace Sensitivity

/-- What a notice is about. -/
inductive NoticeKind where
  /-- A complex step was asked for inside another one. -/
  | nestedComplexStep
  /-- A complex step was asked for where only real evaluations are possible. -/
  | complexStepFallback
  /-- Entries outside a declared pattern are not zero. -/
  | patternMismatch
  /-- A solver stopped without meeting its tolerances. -/
  | nonConvergence
deriving DecidableEq

/-- A notice about a scope. -/
structure Notice where
  scope : String
  kind : NoticeKind
  detail : String
deriving DecidableEq

/-- Notices in the order in which they arose. -/
structure Diagnostics where
  notices : List Notice
deriving DecidableEq, Inhabited

namespace Diagnostics

/-- No notices. -/
def empty : Diagnostics := ⟨[]⟩

/-- Adds a notice. -/
def push (d : Diagnostics) (scope : String) (kind : NoticeKind) (detail : String) : Diagnostics :=
  ⟨d.notices ++ [⟨scope, kind, detail⟩]⟩

/-- Adds later notices. -/
def append (d later : Diagnostics) : Diagnostics := ⟨d.notices ++ later.notices⟩

/-- The number of notices. -/
def size (d : Diagnostics) : Nat := d.notices.length

/-- The notices of a kind. -/
def ofKind (d : Diagnostics) (kind : NoticeKind) : List Notice :=
  d.notices.filter fun n => n.kind = kind

/-- The notices as lines of text. -/
def messages (d : Diagnostics) : List String := d.notices.map fun n => n.scope ++ ": " ++ n.detail

end Diagnostics

end Sensitivity
