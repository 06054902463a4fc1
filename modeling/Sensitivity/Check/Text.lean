import Sensitivity.Check.Report
import Sensitivity.Scalar.Double

/-!
# Reports as text

Each scope opens with its name between two rules. Its comparisons follow as the rows
of a table (`Report.table`) or as a paragraph each (`Report.paragraphs`).
-/

namespace Sensitivity

namespace Report

/-- A text filled up with blanks to a width. -/
def padded (width : Nat) (s : String) : String :=
  s ++ String.ofList (List.replicate (width - s.length) ' ')

/-- A number with an exponent and `places` digits after the point. -/
def rounded (places : Nat) (x : Float) : String :=
  NumberStyle.scientific.writeRounded places (.ofFloat x)

/-- Texts between bars, each filled up to the width of its column. -/
def row (cells : List (Nat × String)) : String :=
  "| " ++ " | ".intercalate (cells.map fun c => padded c.1 c.2) ++ " |"

/-- The head of the table. -/
def tableHead : String :=
  row [(13, "of"), (14, "wrt"), (12, "calc mag."), (12, "check mag."), (12, "a(cal-chk)"),
    (12, "r(cal-chk)")]

/-- A comparison as a row of the table. -/
def tableRow (c : Comparison Float) : String :=
  let number (x : Float) : Nat × String := (12, rounded 4 x)
  row [(13, c.of), (14, c.wrt), number c.computedNorm, number c.freshNorm,
    number c.absoluteError, number c.relativeError] ++
    if c.excess.isSome then " <BAD SPARSITY>" else ""

/-- The lines about entries outside a pattern. -/
def excessLines (tolerance : Float) (m : Mismatch Float) : List String :=
  let count := m.excess.rows.length
  let limit := Scalar.scientificText tolerance
  let rows := bracketed m.excess.rows
  let cols := bracketed m.excess.cols
  [s!"  Sparsity excludes {count} entries which appear to be non-zero. " ++
      s!"(Magnitudes exceed {limit}) *",
    s!"    Rows: {rows}",
    s!"    Cols: {cols}"]

/-- A comparison as a paragraph, with an empty line behind it. -/
def paragraph (tolerance : Float) (scope : String) (c : Comparison Float) : List String :=
  let of := c.of
  let wrt := c.wrt
  [s!"{scope}: '{of}' wrt '{wrt}'",
    "  Calculated Magnitude: " ++ rounded 6 c.computedNorm,
    "  Check Magnitude:      " ++ rounded 6 c.freshNorm,
    "  Absolute Error:       " ++ rounded 6 c.absoluteError,
    "  Relative Error:       " ++ rounded 6 c.relativeError] ++
    (c.excess.map (excessLines tolerance)).getD [] ++ [""]

/-- The opening of a scope: its name, method and step between two rules, which count the
bytes of the name. -/
def opening (s : ScopeReport Float) : List String :=
  let rule := String.ofList (List.replicate (s.scope.utf8ByteSize + 2) '-')
  let scope := s.scope
  let method := Named.name s.method
  let step := Scalar.scientificText s.step
  [rule, s!"{scope}: {method} with step {step}", rule]

/-- Lines of text, each one ended. -/
def unlines (lines : List String) : String := String.join (lines.map (· ++ "\n"))

/-- The report with a table for each scope. -/
def table (r : Report Float) : String :=
  unlines <| r.scopes.flatMap fun s =>
    opening s ++ tableHead :: s.comparisons.map tableRow ++ [""]

/-- The report with a paragraph for each comparison. -/
def paragraphs (r : Report Float) : String :=
  unlines <| r.scopes.flatMap fun s =>
    opening s ++ s.comparisons.flatMap (paragraph r.tolerance s.scope) ++ [""]

end Report

end Sensitivity
