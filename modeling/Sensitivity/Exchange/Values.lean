import Sensitivity.Export
import Sensitivity.Json.Access

/-!
# Values in the exchange format

Questions to the library can be put in JSON and their answers written in it. Reading
is lenient: a member that is missing, or `null`, keeps its default, and names of
settings are the only thing that is refused. Matrices are a shape with their entries
row by row; a table of blocks is the list of its pairs with their blocks.
-/

namespace Sensitivity

/-! ### Writing -/

instance : ToJson (DenseMatrix Float) where
  toJson m := .object [("shape", toJson [m.rows, m.cols]), ("data", toJson m.entries)]

instance : ToJson (Block Float) where
  toJson
    | .dense m => .object [("dense", toJson m)]
    | .sparse p values rows cols => .object [("sparse", .object [("rows", toJson p.rows),
        ("cols", toJson p.cols), ("values", toJson values), ("shape", toJson [rows, cols])])]

/-- Tables of blocks and of matrices, as triples. -/
instance {α : Type} [ToJson α] : ToJson (Table (String × String) α) where
  toJson t := .array (t.entries.map fun ((of, wrt), a) =>
    .array [toJson of, toJson wrt, toJson a])

instance {α : Type} [ToJson α] : ToJson (Table String α) := ⟨fun t => toJson t.entries⟩

instance : ToJson ActiveSet where
  toJson
    | .all => .string "all"
    | .only components => toJson components

instance : ToJson Notice where
  toJson n := .array [toJson n.scope, toJson n.kind.tag, toJson n.detail]

instance : ToJson (StateVector Float) := ⟨fun v => .array [toJson v.real, toJson v.imag]⟩

instance : ToJson (ComplexNumber Float) := ⟨fun z => toJson [z.re, z.im]⟩

instance : ToJson (Activation Float) := ⟨fun a => .array [toJson a.owner, toJson a.step]⟩

instance : ToJson (DeclaredPartial Float) where
  toJson p := .object [("of", toJson p.of), ("wrt", toJson p.wrt),
    ("wildcard", toJson p.everything), ("approx", toJson p.provision.approximation),
    ("sparsity", toJson (p.provision.pattern.map fun q => [q.rows, q.cols]))]

instance : ToJson Column := ⟨fun c => toJson [c.request, c.col]⟩

instance : ToJson Seed where
  toJson s := .array [toJson s.wrt, toJson s.index, toJson s.columns]

instance : ToJson Direction where
  toJson d := .object [("options", toJson d.settings), ("seeds", toJson d.seeds),
    ("colored", toJson d.isColored), ("requests", toJson d.requests)]

instance : ToJson (Excess Float) where
  toJson e := .object [("rows", toJson e.rows), ("cols", toJson e.cols), ("max", toJson e.largest)]

/-! ### Reading -/

namespace Exchange

/-- What may be refused: the name of a setting. -/
abbrev Read (α : Type) := Except (SettingIssue Float) α

/-- The value with a name. -/
def name {α : Type} [Named α] (j : Json) : Read α := Named.parse j.asString

/-- The value with the name in a member, if there is one. -/
def name? {α : Type} [Named α] (j : Json) (key : String) : Read (Option α) :=
  (j.get? key).mapM name

/-- Settings, given members over others. -/
def settingsOver (s : Settings Float) (j : Json) : Read (Settings Float) := do
  let method ← name? j "method"
  let form ← name? j "form"
  let rule ← name? j "step_calc"
  return {
    method := method.getD s.method
    step := ((j.get? "step").map Json.asFloat).or s.step
    form := form.getD s.form
    order := ((j.get? "order").map Json.asNat).or s.order
    stepRule := rule.getD s.stepRule
    minimumStep := ((j.get? "minimum_step").map Json.asFloat).getD s.minimumStep
    directional := ((j.get? "directional").map Json.asBool).getD s.directional }

/-- Settings, given members over the defaults. -/
def settings (j : Json) : Read (Settings Float) := settingsOver .finiteDifference j

/-- A pattern, as its rows and its columns. -/
def pattern (j : Json) : Pattern := ⟨(j.get "rows").asNats, (j.get "cols").asNats⟩

/-- The pattern that two members of an object make up. -/
def pattern? (j : Json) : Option Pattern := do
  return ⟨(← j.get? "rows").asNats, (← j.get? "cols").asNats⟩

/-- The two numbers of a shape. -/
def shape (j : Json) : Nat × Nat :=
  let ns := (j.get "shape").asNats
  (ns.getD 0 0, ns.getD 1 0)

/-- A matrix, if it has as many entries as its shape takes. -/
def matrix? (j : Json) : Option (DenseMatrix Float) :=
  DenseMatrix.ofRows? (shape j).1 (shape j).2 (j.get "data").asFloats.toArray

/-- A block of zeros, with its values set if there are any. -/
def block (j : Json) : Except ShapeMismatch (Block Float) :=
  let zero : Block Float := .zeros (shape j).1 (shape j).2 ((j.get? "sparsity").map pattern)
  match j.get? "values" with
  | some values => zero.setValues values.asFloats.toArray
  | none => .ok zero

/-- Base steps; those that are not given are the standard ones. -/
def baseSteps (j : Json) : BaseSteps Float :=
  let b : BaseSteps Float := .standard
  let step (key : String) (old : Float) : Float := ((j.get? key).map Json.asFloat).getD old
  ⟨step "fd_one_sided" b.oneSided, step "fd_central" b.central, step "cs_local" b.complexLocal,
    step "cs_global" b.complexGlobal⟩

/-- Where an approximation is made. -/
def site : Json → Site Float
  | .string "local" => .component
  | .string "global" => .group
  | j => .check (baseSteps (j.get "defaults")) (j.get "global").asBool

/-- A request for a block. -/
def request (j : Json) : Read (Request Float) := do
  return {
    of := (j.get "of").asString
    wrt := (j.get "wrt").asString
    settings := ← settings (j.get "options")
    pattern := (j.get? "sparsity").map pattern
    ofEntries := (j.get? "of_indices").map Json.asNats
    wrtEntries := (j.get? "wrt_indices").map Json.asNats
    everything := (j.get "wildcard").asBool }

/-- A table from a list of pairs. -/
def table {α : Type} (read : Json → α) (j : Json) : Table String α :=
  .ofList (j.asPairs.map fun p => (p.1.asString, read p.2))

/-- The variable that members of an object describe: one number, a list, or zeros. -/
def variableSpec (j : Json) : VariableSpec Float :=
  let flat : VariableSpec Float := match j.get? "value", j.get? "zeros" with
    | some (.array xs), _ => .vector (xs.map Json.asFloat)
    | some x, _ => .scalar x.asFloat
    | none, some n => .zeros n.asNat
    | none, none => .vector []
  { flat with
    shape := ((j.get? "shape").map Json.asNats).getD flat.shape
    reference := ((j.get? "ref").map Json.asFloat).getD flat.reference }

/-- The named variables of a list. -/
def namedSpecs (j : Json) : List (String × VariableSpec Float) :=
  j.asList.map fun v => ((v.get "name").asString, variableSpec v)

/-- A choice of variables: all, one, or some by name. -/
def selection : Json → Selection
  | .string "*" => .all
  | .string s => .names [s]
  | j => .names j.asStrings

/-- How members of an object say that a partial is provided. -/
def provision (j : Json) : Read (Provision Float) := do
  return ⟨← (j.get? "approx").mapM settings, pattern? j⟩

/-- The same with the settings among the members; without a method it is analytic. -/
def flatProvision (j : Json) : Read (Provision Float) := do
  let s ← settings j
  return ⟨(j.get? "method").map fun _ => s, pattern? j⟩

/-- Steps taken in single entries. -/
def perturbations (j : Json) : List (Perturbation Float) :=
  j.asList.map fun p =>
    let part (k : Nat) : Json := p.asList.getD k .null
    ⟨(part 0).asString, (part 1).asNat, (part 2).asFloat⟩

/-- A list of components to run; anything else stands for all. -/
def activeSet : Json → ActiveSet
  | .array cs => .only (cs.map Json.asNat).mergeSort.eraseDups
  | _ => .all

end Exchange

end Sensitivity
