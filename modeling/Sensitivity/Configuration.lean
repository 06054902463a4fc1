import Sensitivity.Json
import Sensitivity.Json.Reader
import Sensitivity.Problem
import Sensitivity.Scalar.Double

/-!
# Configurations as JSON

The settings of the library have a JSON form that is read strictly
(`Configurable.ofText`) and written compactly, fields in a fixed order. A record in
which every field may be missing takes its defaults; the others say which fields have
to be there.
-/

namespace Sensitivity

/-- A type whose values are written as JSON and read from it strictly. -/
class Configurable (α : Type) extends ToJson α where
  read : Json.Reader α

namespace Configurable

/-- Reads a whole text. -/
def ofText {α : Type} [Configurable α] (text : String) : Except Json.Fault α :=
  Configurable.read.run text

/-- The compact text of a value. -/
def toText {α : Type} [Configurable α] (a : α) : String := (toJson a).compact

/-- A field read by `read` and put into the record by `put`. -/
def field {σ α : Type} (optional : Bool) (name : String) (read : Json.Reader α)
    (put : α → σ → σ) : Json.Reader.Field σ where
  name := name
  read := do return put (← read)
  optional := optional

/-- A field that may be missing. -/
def optional {σ α : Type} (name : String) (read : Json.Reader α) (put : α → σ → σ) :
    Json.Reader.Field σ :=
  field true name read put

/-- A field that has to be there. -/
def required {σ α : Type} (name : String) (read : Json.Reader α) (put : α → σ → σ) :
    Json.Reader.Field σ :=
  field false name read put

end Configurable

open Configurable Json.Reader

/-- A value with a name is written as its name. -/
instance {α : Type} [Named α] : Configurable α where
  toJson a := .string (Named.name a)
  read := named

instance : Configurable (Settings Float) where
  toJson s := .object [("method", toJson s.method), ("step", toJson s.step),
    ("form", toJson s.form), ("order", toJson s.order), ("step_calc", toJson s.stepRule),
    ("minimum_step", toJson s.minimumStep), ("directional", toJson s.directional)]
  read := record [
    optional "method" named fun v s => { s with method := v },
    optional "step" (option float) fun v s => { s with step := v },
    optional "form" named fun v s => { s with form := v },
    optional "order" (option byte) fun v s => { s with order := v },
    optional "step_calc" named fun v s => { s with stepRule := v },
    optional "minimum_step" float fun v s => { s with minimumStep := v },
    optional "directional" bool fun v s => { s with directional := v }] .finiteDifference

instance : Configurable (BaseSteps Float) where
  toJson b := .object [("fd_one_sided", toJson b.oneSided), ("fd_central", toJson b.central),
    ("cs_local", toJson b.complexLocal), ("cs_global", toJson b.complexGlobal)]
  read := record [
    optional "fd_one_sided" float fun v b => { b with oneSided := v },
    optional "fd_central" float fun v b => { b with central := v },
    optional "cs_local" float fun v b => { b with complexLocal := v },
    optional "cs_global" float fun v b => { b with complexGlobal := v }] .standard

instance : Configurable (NewtonSettings Float) where
  toJson n := .object [("atol", toJson n.absolute), ("rtol", toJson n.relative),
    ("maxiter", toJson n.iterations), ("err_on_non_converge", toJson n.required)]
  read := record [
    optional "atol" float fun v n => { n with absolute := v },
    optional "rtol" float fun v n => { n with relative := v },
    optional "maxiter" index fun v n => { n with iterations := v },
    optional "err_on_non_converge" bool fun v n => { n with required := v }] .standard

/-- A solver is its tag, with the settings of a Newton iteration behind it. -/
instance : Configurable (Solver Float) where
  toJson
    | .runOnce => .string "RunOnce"
    | .newton settings => .object [("Newton", toJson settings)]
  read := tagged (fun tag => if tag = "RunOnce" then some .runOnce else none) fun tag =>
    if tag = "RunOnce" then do null; return .runOnce
    else if tag = "Newton" then do return .newton (← Configurable.read)
    else malformed

instance : Configurable (DriverVariable Float) where
  toJson v := .object [("name", toJson v.name), ("indices", toJson v.entries),
    ("reference", toJson v.reference)]
  read := record [
    required "name" string fun n v => { v with name := n },
    optional "indices" (option (list index)) fun is v => { v with entries := is },
    optional "reference" (option float) fun r v => { v with reference := r }] (.whole "")

instance : Configurable (VariableSpec Float) where
  toJson v := .object [("shape", toJson v.shape), ("value", toJson v.value),
    ("reference", toJson v.reference)]
  read := record [
    required "shape" (list index) fun ns v => { v with shape := ns },
    required "value" (list float) fun xs v => { v with value := xs },
    required "reference" float fun r v => { v with reference := r }] (.vector [])

/-- The tags of the kinds of variables. -/
def VariableKind.ofTag? (tag : String) : Option VariableKind :=
  if tag = "Input" then some .input else if tag = "Output" then some .output else none

instance : Configurable VariableKind where
  toJson
    | .input => .string "Input"
    | .output => .string "Output"
  read := tagged VariableKind.ofTag? fun tag =>
    match VariableKind.ofTag? tag with
    | some kind => do null; return kind
    | none => malformed

instance : Configurable Pattern where
  toJson p := .object [("rows", toJson p.rows), ("cols", toJson p.cols)]
  read := record [
    required "rows" (list index) fun ns p => { p with rows := ns },
    required "cols" (list index) fun ns p => { p with cols := ns }] ⟨[], []⟩

instance : Configurable SetupSettings where
  toJson s := .object [("force_alloc_complex", toJson s.forceComplex),
    ("sparsity_behavior", toJson s.policy)]
  read := record [
    optional "force_alloc_complex" bool fun v s => { s with forceComplex := v },
    optional "sparsity_behavior" named fun v s => { s with policy := v }] .standard

instance : Configurable (CheckSettings Float) where
  toJson c := .object [("method", toJson c.method), ("step", toJson c.step),
    ("form", toJson c.form), ("step_calc", toJson c.stepRule), ("defaults", toJson c.defaults),
    ("includes", toJson c.includes)]
  read := record [
    optional "method" (option named) fun v c => { c with method := v },
    optional "step" (option float) fun v c => { c with step := v },
    optional "form" (option named) fun v c => { c with form := v },
    optional "step_calc" (option named) fun v c => { c with stepRule := v },
    optional "defaults" Configurable.read fun v c => { c with defaults := v },
    optional "includes" (option (list string)) fun v c => { c with includes := v }] .standard

end Sensitivity
