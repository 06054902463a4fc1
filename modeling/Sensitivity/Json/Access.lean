import Sensitivity.Json
import Sensitivity.Json.Reader

/-!
# Reading parts of JSON values

`Json.ofText?` reads a whole text. What is inside is then taken apart leniently: a
missing member counts as `null`, and a value of another form than the expected one
counts as empty, zero or false.
-/

namespace Sensitivity

namespace Json

namespace Reader

/-- The value of a numeral: an integer when it is written as one. -/
def ofNumeral (n : Numeral) : Reader Json := do
  let size : Int := digitsValue n.digits
  if n.whole && !(n.negative && size = 0) then return .integer (if n.negative then -size else size)
  match n.toFloat? with
  | some x => return .number x
  | none => malformed

mutual

/-- Any value. Each level takes a bracket off the text, so `fuel` only has to be as
long as the input. -/
def value : Nat → Reader Json
  | 0 => malformed
  | fuel + 1 => do
    blanks
    match ← peek? with
    | some '"' => return .string (← string)
    | some 'n' => word "null"; return .null
    | some 't' => word "true"; return .bool true
    | some 'f' => word "false"; return .bool false
    | some '[' =>
      expect '['
      blanks
      if (← peek?) == some ']' then
        expect ']'
        return .array []
      return .array (← valueItems fuel)
    | some '\x7b' =>
      expect '\x7b'
      blanks
      if (← peek?) == some '\x7d' then
        expect '\x7d'
        return .object []
      return .object (← valueMembers fuel)
    | _ => ofNumeral (← numeral)

/-- The items of an array up to its closing bracket. -/
def valueItems : Nat → Reader (List Json)
  | 0 => malformed
  | fuel + 1 => do
    let item ← value fuel
    blanks
    match ← next with
    | ',' => return item :: (← valueItems fuel)
    | ']' => return [item]
    | _ => malformed

/-- The members of an object up to its closing brace. -/
def valueMembers : Nat → Reader (List (String × Json))
  | 0 => malformed
  | fuel + 1 => do
    let key ← string
    blanks
    expect ':'
    let item ← value fuel
    blanks
    match ← next with
    | ',' => return (key, item) :: (← valueMembers fuel)
    | '\x7d' => return [(key, item)]
    | _ => malformed

end

end Reader

/-- The value that a text stands for. -/
def ofText? (text : String) : Option Json :=
  ((Reader.value (text.length + 1)).run text).toOption

/-- A member of an object; `null` counts as missing. -/
def get? : Json → String → Option Json
  | object members, key =>
    match members.find? fun m => m.1 == key with
    | some (_, null) | none => none
    | some (_, value) => some value
  | _, _ => none

/-- A member of an object, `null` when it is missing. -/
def get (j : Json) (key : String) : Json := (j.get? key).getD null

/-- A number as a double. Words stand for what numerals cannot write. -/
def asFloat : Json → Float
  | number x => x
  | integer n =>
    let size := Float.ofScientific n.natAbs false 0
    if n < 0 then -size else size
  | string "NaN" => 0.0 / 0.0
  | string "inf" => 1.0 / 0.0
  | string "-inf" => -(1.0 / 0.0)
  | string "-0" => -0.0
  | _ => 0.0

/-- An integer; zero unless it is one. -/
def asInt : Json → Int
  | integer n => n
  | _ => 0

/-- A count. -/
def asNat (j : Json) : Nat := j.asInt.toNat

/-- A text; empty unless it is one. -/
def asString : Json → String
  | string s => s
  | _ => ""

/-- A truth value; false unless it is `true`. -/
def asBool : Json → Bool
  | bool b => b
  | _ => false

/-- The items of an array; none unless it is one. -/
def asList : Json → List Json
  | array items => items
  | _ => []

/-- A list of floats. -/
def asFloats (j : Json) : List Float := j.asList.map asFloat

/-- A list of counts. -/
def asNats (j : Json) : List Nat := j.asList.map asNat

/-- A list of texts. -/
def asStrings (j : Json) : List String := j.asList.map asString

/-- The items of a list of pairs. -/
def asPairs (j : Json) : List (Json × Json) :=
  j.asList.map fun p => (p.asList.getD 0 null, p.asList.getD 1 null)

mutual

/-- Replaces every number. -/
def mapNumbers (f : Float → Json) : Json → Json
  | number x => f x
  | array items => array (mapNumbersItems f items)
  | object members => object (mapNumbersMembers f members)
  | j => j

/-- Replaces every number in a list of values. -/
def mapNumbersItems (f : Float → Json) : List Json → List Json
  | [] => []
  | item :: rest => item.mapNumbers f :: mapNumbersItems f rest

/-- Replaces every number in the members of an object. -/
def mapNumbersMembers (f : Float → Json) : List (String × Json) → List (String × Json)
  | [] => []
  | (key, value) :: rest => (key, value.mapNumbers f) :: mapNumbersMembers f rest

end

end Json

end Sensitivity
