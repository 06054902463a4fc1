import Sensitivity.Declaration
import Sensitivity.Span

/-!
# The layout of a component

The variables of a component stand one behind the other, in the order of their
declaration, inputs and outputs apart. Component code sees flat arrays in this
layout and blocks of partial derivatives by pairs of names.
-/

namespace Sensitivity

/-- Where the variables of a component stand among its inputs and its outputs. -/
structure Layout where
  inputs : Table String Span
  outputs : Table String Span

namespace Layout

/-- Spans of the given sizes, one behind the other. -/
def stack (start : Nat) : List (String × Nat) → List (String × Span)
  | [] => []
  | (name, size) :: rest => (name, ⟨start, size⟩) :: stack (start + size) rest

/-- The spans of a table of variables. -/
def spans {R : Type} (specs : Table String (VariableSpec R)) : Table String Span :=
  .ofList (stack 0 (specs.entries.map fun e => (e.1, e.2.size)))

/-- The layout of declared variables. -/
def ofDeclarations {R : Type} (d : Declarations R) : Layout := ⟨spans d.inputs, spans d.outputs⟩

/-- The number of entries of some variables. -/
def length (spans : Table String Span) : Nat :=
  spans.values.foldl (fun n s => n + s.size) 0

/-- The span of an input, or else of an output. -/
def locate? (l : Layout) (name : String) : Option (VariableKind × Span) :=
  match l.inputs.get? name, l.outputs.get? name with
  | some s, _ => some (.input, s)
  | none, some s => some (.output, s)
  | none, none => none

end Layout

/-- The blocks of partial derivatives of a component, by their pairs. -/
structure Partials (R : Type) where
  blocks : Table (String × String) (Block R)
deriving Inhabited

namespace Partials

variable {R : Type} [Scalar R]

/-- Zero blocks for all declared partial derivatives. -/
def zeros (declared : List (DeclaredPartial R)) (l : Layout) : Partials R :=
  let size (spans : Table String Span) (name : String) : Nat :=
    ((spans.get? name).map Span.size).getD 0
  ⟨.ofList <| declared.map fun p =>
    ((p.of, p.wrt), .zeros (size l.outputs p.of) (size l.inputs p.wrt) p.provision.pattern)⟩

/-- The block of a pair, which has to be declared. -/
def block (p : Partials R) (of wrt : String) : Except (DeclarationError R) (Block R) :=
  match p.blocks.get? (of, wrt) with
  | some b => .ok b
  | none => .error (.unknownVariable (DeclarationError.partialsName of wrt))

/-- Replaces the values of a block. -/
def set (p : Partials R) (of wrt : String) (values : Array R) :
    Except (DeclarationError R) (Partials R) := do
  match (← p.block of wrt).setValues values with
  | .ok b => return ⟨p.blocks.insert (of, wrt) b⟩
  | .error mismatch => throw (.shapeMismatch mismatch)

/-- Replaces a block by one of the same shape. -/
def insert (p : Partials R) (of wrt : String) (b : Block R) :
    Except (DeclarationError R) (Partials R) := do
  let old ← p.block of wrt
  if old.rows = b.rows ∧ old.cols = b.cols then return ⟨p.blocks.insert (of, wrt) b⟩
  else
    let name := DeclarationError.partialsName of wrt
    throw (.shapeMismatch ⟨name, old.rows * old.cols, b.rows * b.cols⟩)

end Partials

end Sensitivity
