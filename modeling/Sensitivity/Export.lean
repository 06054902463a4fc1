import Sensitivity.Configuration

/-!
# Diagnostics and reports as JSON

The JSON texts in which notices and the outcome of a check are handed on.
-/

namespace Sensitivity

namespace NoticeKind

/-- All kinds. -/
def all : List NoticeKind :=
  [.nestedComplexStep, .complexStepFallback, .patternMismatch, .nonConvergence]

/-- The tag of a kind. -/
def tag : NoticeKind → String
  | nestedComplexStep => "NestedComplexStep"
  | complexStepFallback => "ComplexStepFallback"
  | patternMismatch => "SparsityMismatch"
  | nonConvergence => "NonConvergence"

/-- The kind with a tag. -/
def ofTag? (s : String) : Option NoticeKind := all.find? fun k => k.tag == s

end NoticeKind

instance : ToJson Diagnostics where
  toJson d := .object [("entries", .array (d.notices.map fun n => .object
    [("name", toJson n.scope), ("kind", toJson n.kind.tag), ("detail", toJson n.detail)]))]

instance : ToJson (Mismatch Float) where
  toJson m := .object [("of", toJson m.of), ("wrt", toJson m.wrt),
    ("rows", toJson m.excess.rows), ("cols", toJson m.excess.cols),
    ("max_magnitude", toJson m.excess.largest)]

instance : ToJson (Comparison Float) where
  toJson c := .object [("of", toJson c.of), ("wrt", toJson c.wrt),
    ("calc_norm", toJson c.computedNorm), ("check_norm", toJson c.freshNorm),
    ("abs_error", toJson c.absoluteError), ("rel_error", toJson c.relativeError),
    ("sparsity", toJson c.excess)]

instance : ToJson (ScopeReport Float) where
  toJson s := .object [("scope", toJson s.scope), ("method", toJson s.method),
    ("step", toJson s.step), ("comparisons", toJson s.comparisons)]

instance : ToJson (Report Float) where
  toJson r := .object [("scopes", toJson r.scopes), ("sparsity_tol", toJson r.tolerance)]

end Sensitivity
