import Sensitivity.Decimal.Style

/-!
# JSON values and their texts

`Json.compact` writes a value without blanks, `Json.pretty` with one item a line and
two blanks for each level. Object members keep their order.

Numbers take the fewest digits that read back. They are written positionally from
`1e-5` up to `1e16`, always with a point, and with a signed exponent elsewhere; a
number that is not finite is written as `null`.
-/

namespace Sensitivity

/-- A JSON value. -/
inductive Json where
  | null
  | bool (b : Bool)
  | integer (n : Int)
  | number (x : Float)
  | string (s : String)
  | array (items : List Json)
  | object (members : List (String × Json))
deriving Inhabited

/-- A type whose values have a JSON form. -/
class ToJson (α : Type) where
  toJson : α → Json

export ToJson (toJson)

instance : ToJson Json := ⟨id⟩
instance : ToJson Bool := ⟨.bool⟩
instance : ToJson Nat := ⟨fun n => .integer n⟩
instance : ToJson Float := ⟨.number⟩
instance : ToJson String := ⟨.string⟩

section Containers

variable {α β : Type} [ToJson α] [ToJson β]

instance : ToJson (List α) := ⟨fun xs => .array (xs.map toJson)⟩
instance : ToJson (Array α) := ⟨fun xs => .array (xs.toList.map toJson)⟩
instance : ToJson (Option α) := ⟨fun x => (x.map toJson).getD .null⟩
instance : ToJson (α × β) := ⟨fun (a, b) => .array [toJson a, toJson b]⟩

end Containers

namespace Json

/-- How numbers are written in JSON. -/
def numberStyle : NumberStyle where
  tie := .toEven
  positional e := decide (-5 ≤ e) && decide (e < 16)
  wholeMark := ".0"
  plus := "+"
  undefined := "null"
  infinite := "null"

/-- The text of a number. -/
def numberText (x : Float) : String :=
  if x.isFinite then numberStyle.write (.ofFloat x) else "null"

/-- A digit of base sixteen. -/
def hexDigit (n : Nat) : Char := "0123456789abcdef".toList.getD n '0'

/-- A character inside quotes. Quotes, backslashes and control characters are
escaped, all others stand for themselves. -/
def escape (c : Char) : List Char :=
  if c = '"' then ['\\', '"']
  else if c = '\\' then ['\\', '\\']
  else if c = '\n' then ['\\', 'n']
  else if c = '\r' then ['\\', 'r']
  else if c = '\t' then ['\\', 't']
  else if c = '\x08' then ['\\', 'b']
  else if c = '\x0c' then ['\\', 'f']
  else if c.toNat < 32 then
    ['\\', 'u', '0', '0', hexDigit (c.toNat / 16), hexDigit (c.toNat % 16)]
  else [c]

/-- A text in quotes. -/
def quoted (s : String) : String := String.ofList ('"' :: s.toList.flatMap escape ++ ['"'])

mutual

/-- The text of a value without blanks. -/
def compact : Json → String
  | null => "null"
  | bool b => if b then "true" else "false"
  | integer n => toString n
  | number x => numberText x
  | string s => quoted s
  | array items => "[" ++ ",".intercalate (compactItems items) ++ "]"
  | object members => "\x7b" ++ ",".intercalate (compactMembers members) ++ "\x7d"

/-- The texts of some values. -/
def compactItems : List Json → List String
  | [] => []
  | item :: rest => item.compact :: compactItems rest

/-- The texts of some members, each behind its key. -/
def compactMembers : List (String × Json) → List String
  | [] => []
  | (key, value) :: rest => (quoted key ++ ":" ++ value.compact) :: compactMembers rest

end

/-- Two blanks for each level. -/
def margin (level : Nat) : String := String.ofList (List.replicate (2 * level) ' ')

/-- Items between brackets, one a line, at a level. -/
def bracketLines (left right : String) (level : Nat) (items : List String) : String :=
  if items.isEmpty then left ++ right
  else
    let inner := "\n" ++ margin (level + 1)
    left ++ inner ++ ("," ++ inner).intercalate items ++ "\n" ++ margin level ++ right

mutual

/-- The text of a value, one item a line, at a level. -/
def prettyAt (level : Nat) : Json → String
  | null => "null"
  | bool b => if b then "true" else "false"
  | integer n => toString n
  | number x => numberText x
  | string s => quoted s
  | array items => bracketLines "[" "]" level (prettyItems (level + 1) items)
  | object members => bracketLines "\x7b" "\x7d" level (prettyMembers (level + 1) members)

/-- The texts of some values on their own lines. -/
def prettyItems (level : Nat) : List Json → List String
  | [] => []
  | item :: rest => item.prettyAt level :: prettyItems level rest

/-- The texts of some members on their own lines. -/
def prettyMembers (level : Nat) : List (String × Json) → List String
  | [] => []
  | (key, value) :: rest =>
    (quoted key ++ ": " ++ value.prettyAt level) :: prettyMembers level rest

end

/-- The text of a value, one item a line. -/
def pretty (j : Json) : String := j.prettyAt 0

end Json

end Sensitivity
