import Sensitivity.Declaration.Error
import Sensitivity.Table
import Sensitivity.Variable

/-!
# Declarations of a component

A component declares its inputs, its outputs and the partial derivatives it provides.
A partial declaration covers every pair of a selected output and a selected input;
`Declarations.resolve` lists the covered pairs. Where several declarations cover a
pair the last one decides how it is provided, and the pair counts as declared for
everything (`DeclaredPartial.everything`) once any of them selected all variables on
both sides.
-/

namespace Sensitivity

/-- The variables that one side of a partial declaration is about. -/
inductive Selection where
  | all
  | names (names : List String)
deriving DecidableEq

namespace Selection

/-- The selected variables among the available ones. -/
def resolve {R : Type} (available : List String) :
    Selection → Except (DeclarationError R) (List String)
  | all => .ok available
  | names ns =>
    match ns.find? fun n => !available.contains n with
    | some n => .error (.unknownVariable n)
    | none => .ok ns

end Selection

/-- How a declared partial derivative is provided. -/
structure Provision (R : Type) where
  /-- The settings of its approximation; without any the component computes it. -/
  approximation : Option (Settings R)
  /-- The entries that may be nonzero; without a pattern, all. -/
  pattern : Option Pattern

namespace Provision

/-- Computed by the component itself. -/
def analytic {R : Type} : Provision R := ⟨none, none⟩

/-- Approximated with these settings. -/
def approximated {R : Type} (s : Settings R) : Provision R := ⟨some s, none⟩

/-- Changes the settings of an approximation, if it is one. -/
def adjust {R : Type} (p : Provision R) (f : Settings R → Settings R) : Provision R :=
  { p with approximation := p.approximation.map f }

end Provision

/-- Partial derivatives declared together. -/
structure PartialDeclaration (R : Type) where
  of : Selection
  wrt : Selection
  provision : Provision R

/-- The declared partial derivative of one pair. -/
structure DeclaredPartial (R : Type) where
  of : String
  wrt : String
  provision : Provision R
  /-- Some declaration covered the pair by selecting all variables on both sides. -/
  everything : Bool

/-- All that a component declares. -/
structure Declarations (R : Type) where
  inputs : Table String (VariableSpec R)
  outputs : Table String (VariableSpec R)
  partials : List (PartialDeclaration R)
  /-- The settings used when the partial derivatives are checked. -/
  checkSettings : Option (Settings R)

namespace Pattern

/-- Refuses a pattern that does not fit the block of `of` by `wrt`. -/
def validate {R : Type} (p : Pattern) (of wrt : String) (rows cols : Nat) :
    Except (DeclarationError R) Unit :=
  if p.rows.length ≠ p.cols.length then
    .error (.patternLengths of wrt p.rows.length p.cols.length)
  else
    match p.rows.find? (rows ≤ ·), p.cols.find? (cols ≤ ·) with
    | some r, _ => .error (.patternRow r of rows)
    | none, some c => .error (.patternCol c wrt cols)
    | none, none => .ok ()

end Pattern

namespace Declarations

variable {R : Type}

/-- Nothing declared. -/
def empty : Declarations R := ⟨∅, ∅, [], none⟩

instance : EmptyCollection (Declarations R) := ⟨empty⟩

/-- Whether a name can stand between the points of a longer one. -/
def isLocalName (name : String) : Bool := !name.isEmpty && !name.toList.contains '.'

section Adding

variable [Scalar R]

/-- Refuses a variable that cannot be stored or scaled. -/
def validateSpec (name : String) (spec : VariableSpec R) : Except (DeclarationError R) Unit :=
  if spec.size ≠ spec.value.length then
    .error (.shapeMismatch ⟨name, spec.size, spec.value.length⟩)
  else if spec.size = 0 then .error (.emptyVariable name)
  else if !Scalar.isFinite spec.reference || spec.reference == 0 then
    .error (.reference name spec.reference)
  else .ok ()

/-- Declares a variable. -/
def addVariable (d : Declarations R) (kind : VariableKind) (name : String)
    (spec : VariableSpec R) : Except (DeclarationError R) (Declarations R) := do
  if !isLocalName name then throw (.variableName name)
  if d.inputs.contains name || d.outputs.contains name then throw (.duplicateVariable name)
  validateSpec name spec
  match kind with
  | .input => return { d with inputs := d.inputs.insert name spec }
  | .output => return { d with outputs := d.outputs.insert name spec }

/-- Declares partial derivatives. -/
def addPartials (d : Declarations R) (of wrt : Selection) (provision : Provision R) :
    Except (DeclarationError R) (Declarations R) := do
  match provision.approximation.map Settings.validate with
  | some (.error issue) => throw (.setting issue)
  | _ => return { d with partials := d.partials ++ [⟨of, wrt, provision⟩] }

/-- Sets the settings used when the partial derivatives are checked. -/
def setCheckSettings (d : Declarations R) (s : Settings R) :
    Except (DeclarationError R) (Declarations R) :=
  match s.validate with
  | .error issue => .error (.setting issue)
  | .ok () => .ok { d with checkSettings := some s }

end Adding

/-- The number of entries of a declared variable. -/
def sizeIn (specs : Table String (VariableSpec R)) (name : String) : Nat :=
  ((specs.get? name).map VariableSpec.size).getD 0

/-- The declared partial derivatives by their pairs. -/
abbrev Resolution (R : Type) := Table (String × String) (DeclaredPartial R)

/-- Covers one pair by a declaration. -/
def cover (d : Declarations R) (p : PartialDeclaration R) (found : Resolution R)
    (pair : String × String) : Except (DeclarationError R) (Resolution R) := do
  let (of, wrt) := pair
  match p.provision.pattern with
  | some pattern => pattern.validate of wrt (sizeIn d.outputs of) (sizeIn d.inputs wrt)
  | none => pure ()
  let before := ((found.get? pair).map DeclaredPartial.everything).getD false
  let everything := (p.of == .all && p.wrt == .all) || before
  return found.insert pair ⟨of, wrt, p.provision, everything⟩

/-- Covers all pairs of one declaration. -/
def coverAll (d : Declarations R) (found : Resolution R) (p : PartialDeclaration R) :
    Except (DeclarationError R) (Resolution R) := do
  let ofs ← p.of.resolve d.outputs.keys
  let wrts ← p.wrt.resolve d.inputs.keys
  (ofs.flatMap fun of => wrts.map fun wrt => (of, wrt)).foldlM (cover d p) found

/-- The declared partial derivatives, in the order in which their pairs were first
covered. -/
def resolve (d : Declarations R) : Except (DeclarationError R) (List (DeclaredPartial R)) := do
  return (← d.partials.foldlM (coverAll d) ∅).values

/-- The methods that approximations use, in the order of their first use. -/
def methods (d : Declarations R) : List Method :=
  (d.partials.filterMap fun p => p.provision.approximation.map Settings.method).eraseDups

end Declarations

end Sensitivity
