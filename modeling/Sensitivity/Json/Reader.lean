import Sensitivity.Settings

/-!
# Reading JSON

Readers take a value of a known form off the front of a text. A text is read once,
from the left, so that of several faults the first one is reported. Records come as
objects or as the arrays of their fields in order (`Reader.record`); unknown members
are checked for well-formedness and skipped.
-/

namespace Sensitivity

namespace Json

/-- Why a text is refused. -/
inductive Fault where
  /-- Not JSON, or JSON of another form. -/
  | malformed
  /-- A name or number that a setting does not take. -/
  | setting (issue : SettingIssue Float)

/-- Takes a value off the front of a text. -/
abbrev Reader (α : Type) := StateT (List Char) (Except Fault) α

namespace Reader

/-- Gives up. -/
def malformed {α : Type} : Reader α := throw .malformed

/-- Whether a character is blank between tokens. -/
def isBlank (c : Char) : Bool := c = ' ' || c = '\n' || c = '\t' || c = '\r'

/-- Drops blanks. -/
def blanks : Reader Unit := modify (·.dropWhile isBlank)

/-- The next character, which stays. -/
def peek? : Reader (Option Char) := return (← get).head?

/-- The next character. -/
def next : Reader Char := do
  match ← get with
  | c :: rest => set rest; return c
  | [] => malformed

/-- A character that has to come next. -/
def expect (c : Char) : Reader Unit := do
  if (← next) != c then malformed

/-- A word that has to come next. -/
def word (w : String) : Reader Unit := do
  let text ← get
  if w.toList.isPrefixOf text then set (text.drop w.length) else malformed

/-- The value of a digit of base sixteen. -/
def hexValue? (c : Char) : Option Nat :=
  if '0' ≤ c && c ≤ '9' then some (c.toNat - '0'.toNat)
  else if 'a' ≤ c && c ≤ 'f' then some (c.toNat - 'a'.toNat + 10)
  else if 'A' ≤ c && c ≤ 'F' then some (c.toNat - 'A'.toNat + 10)
  else none

/-- Four digits of base sixteen, off a list of characters. -/
def hexUnit? : List Char → Option (Nat × List Char)
  | a :: b :: c :: d :: rest => do
    let a ← hexValue? a
    let b ← hexValue? b
    let c ← hexValue? c
    let d ← hexValue? d
    return (((a * 16 + b) * 16 + c) * 16 + d, rest)
  | _ => none

/-- The character that a short escape stands for. -/
def shortEscape? (c : Char) : Option Char :=
  if c = '"' || c = '\\' || c = '/' then some c
  else if c = 'b' then some '\x08'
  else if c = 'f' then some '\x0c'
  else if c = 'n' then some '\n'
  else if c = 'r' then some '\r'
  else if c = 't' then some '\t'
  else none

/-- A character written as one or two escaped units of sixteen bits, off the text
behind the first mark. A unit that only makes sense in a pair has to have its
partner. -/
def unicode? (text : List Char) : Option (Char × List Char) := do
  let (high, rest) ← hexUnit? text
  if 0xD800 ≤ high && high < 0xDC00 then
    match rest with
    | '\\' :: 'u' :: rest =>
      let (low, rest) ← hexUnit? rest
      if 0xDC00 ≤ low && low < 0xE000 then
        return (Char.ofNat (0x10000 + (high - 0xD800) * 0x400 + (low - 0xDC00)), rest)
      else none
    | _ => none
  else if 0xDC00 ≤ high && high < 0xE000 then none
  else return (Char.ofNat high, rest)

/-- The rest of a text behind its opening quote. Each round takes at least one
character, so `fuel` only has to be as long as the input. -/
def stringBody? : Nat → List Char → List Char → Option (String × List Char)
  | 0, _, _ => none
  | _, _, [] => none
  | fuel + 1, done, c :: rest =>
    if c = '"' then some (String.ofList done.reverse, rest)
    else if c = '\\' then
      match rest with
      | [] => none
      | e :: rest =>
        if e = 'u' then
          match unicode? rest with
          | some (ch, rest) => stringBody? fuel (ch :: done) rest
          | none => none
        else
          match shortEscape? e with
          | some ch => stringBody? fuel (ch :: done) rest
          | none => none
    else if c.toNat < 32 then none
    else stringBody? fuel (c :: done) rest

/-- A text in quotes. -/
def string : Reader String := do
  blanks
  expect '"'
  let text ← get
  match stringBody? (text.length + 1) [] text with
  | some (s, rest) => set rest; return s
  | none => malformed

/-- A number as it is written. -/
structure Numeral where
  negative : Bool
  /-- All digits before and after the point. -/
  digits : List Char
  /-- How many of them stand after the point. -/
  places : Nat
  exponent : Int
  /-- Neither point nor exponent. -/
  whole : Bool

/-- The value of a run of digits. -/
def digitsValue (ds : List Char) : Nat :=
  ds.foldl (fun n d => 10 * n + (d.toNat - '0'.toNat)) 0

/-- A run of digits. -/
def digits : Reader (List Char) := do
  let text ← get
  set (text.dropWhile Char.isDigit)
  return text.takeWhile Char.isDigit

/-- A run of at least one digit. -/
def someDigits : Reader (List Char) := do
  let ds ← digits
  if ds.isEmpty then malformed else return ds

/-- A number: no leading zeros, a digit on both sides of a point. -/
def numeral : Reader Numeral := do
  blanks
  let negative := (← peek?) == some '-'
  if negative then expect '-'
  let front ← someDigits
  if front.head? == some '0' && front.length != 1 then malformed
  let mut back : List Char := []
  let mut whole := true
  if (← peek?) == some '.' then
    expect '.'
    back ← someDigits
    whole := false
  let mut exponent : Int := 0
  if (← peek?) == some 'e' || (← peek?) == some 'E' then
    let _ ← next
    let sign ← peek?
    if sign == some '+' || sign == some '-' then
      let _ ← next
    let ds ← someDigits
    exponent := if sign == some '-' then -(digitsValue ds : Int) else digitsValue ds
    whole := false
  return ⟨negative, front ++ back, back.length, exponent, whole⟩

/-- The nearest double of a numeral; none when it lies beyond all of them. -/
def Numeral.toFloat? (n : Numeral) : Option Float :=
  let significand := digitsValue n.digits
  let exponent := n.exponent - n.places
  let top := exponent + n.digits.length
  let size : Float :=
    if significand = 0 || top < -400 then 0.0
    else if 400 < top && 400 < exponent then 1.0 / 0.0
    else if 0 ≤ exponent then Float.ofScientific (significand * Nat.pow 10 exponent.toNat) false 0
    else Float.ofScientific significand true (-exponent).toNat
  if size.isFinite then some (if n.negative then -size else size) else none

/-- A number as a double. -/
def float : Reader Float := do
  match (← numeral).toFloat? with
  | some x => return x
  | none => malformed

/-- A whole number that is neither negative nor above `limit`. -/
def natural (limit : Nat) : Reader Nat := do
  let n ← numeral
  let value := digitsValue n.digits
  if n.negative || !n.whole || limit < value then malformed else return value

/-- A size or an index, up to 64 bits. -/
def index : Reader Nat := natural (Nat.pow 2 64 - 1)

/-- A number of eight bits. -/
def byte : Reader Nat := natural 255

/-- A truth value. -/
def bool : Reader Bool := do
  blanks
  match ← peek? with
  | some 't' => word "true"; return true
  | some 'f' => word "false"; return false
  | _ => malformed

/-- The absent value. -/
def null : Reader Unit := do
  blanks
  word "null"

/-- A value that may be absent. -/
def option {α : Type} (read : Reader α) : Reader (Option α) := do
  blanks
  if (← peek?) == some 'n' then
    word "null"
    return none
  else return some (← read)

/-- The name of a setting. -/
def named {α : Type} [Named α] : Reader α := do
  match Named.parse (← string) with
  | .ok a => return a
  | .error issue => throw (.setting issue)

/-- The items of an array behind its opening bracket. -/
def items {α : Type} (read : Reader α) : Nat → Bool → Reader (List α)
  | 0, _ => malformed
  | fuel + 1, first => do
    blanks
    if (← peek?) == some ']' then
      if first then
        expect ']'
        return []
      else malformed
    let x ← read
    blanks
    match ← next with
    | ',' =>
      blanks
      if (← peek?) == some ']' then malformed
      return x :: (← items read fuel false)
    | ']' => return [x]
    | _ => malformed

/-- A list of values. -/
def list {α : Type} (read : Reader α) : Reader (List α) := do
  blanks
  expect '['
  items read ((← get).length + 1) true

/-- A text in quotes that nobody reads: escapes are only checked for their shape. -/
def skipString? : Nat → List Char → Option (List Char)
  | 0, _ => none
  | _, [] => none
  | fuel + 1, c :: rest =>
    if c = '"' then some rest
    else if c = '\\' then
      match rest with
      | [] => none
      | e :: rest =>
        if e = 'u' then
          match hexUnit? rest with
          | some (_, rest) => skipString? fuel rest
          | none => none
        else if (shortEscape? e).isSome then skipString? fuel rest
        else none
    else if c.toNat < 32 then none
    else skipString? fuel rest

/-- Skips a text in quotes. -/
def skipString : Reader Unit := do
  expect '"'
  let text ← get
  match skipString? (text.length + 1) text with
  | some rest => set rest
  | none => malformed

mutual

/-- Skips a value. Each level takes a bracket off the text, so `fuel` only has to be
as long as the input. -/
def skip : Nat → Reader Unit
  | 0 => malformed
  | fuel + 1 => do
    blanks
    match ← peek? with
    | some '"' => skipString
    | some 'n' => word "null"
    | some 't' => word "true"
    | some 'f' => word "false"
    | some '[' =>
      expect '['
      blanks
      if (← peek?) == some ']' then expect ']' else skipItems fuel
    | some '\x7b' =>
      expect '\x7b'
      blanks
      if (← peek?) == some '\x7d' then expect '\x7d' else skipMembers fuel
    | _ => discard numeral

/-- Passes over the items of an array and its closing bracket. -/
def skipItems : Nat → Reader Unit
  | 0 => malformed
  | fuel + 1 => do
    skip fuel
    blanks
    match ← next with
    | ',' => skipItems fuel
    | ']' => return
    | _ => malformed

/-- Passes over the members of an object and its closing brace. -/
def skipMembers : Nat → Reader Unit
  | 0 => malformed
  | fuel + 1 => do
    blanks
    skipString
    blanks
    expect ':'
    skip fuel
    blanks
    match ← next with
    | ',' => skipMembers fuel
    | '\x7d' => return
    | _ => malformed

end

/-- A field of a record `σ`: reading it updates the record. -/
structure Field (σ : Type) where
  name : String
  read : Reader (σ → σ)
  /-- Whether it may be missing. -/
  optional : Bool

/-- The members of an object behind its opening bracket. `seen` are the fields read so
far: none may come twice, and all that are not optional have to come. -/
def members {σ : Type} (fields : List (Field σ)) :
    Nat → List String → σ → Reader σ
  | 0, _, _ => malformed
  | fuel + 1, seen, record => do
    let key ← string
    blanks
    let update ← match fields.find? fun f => f.name == key with
      | some f =>
        if seen.contains key then malformed
        else
          expect ':'
          f.read
      | none =>
        expect ':'
        skip ((← get).length + 1)
        pure id
    let seen := key :: seen
    blanks
    match ← next with
    | ',' => members fields fuel seen (update record)
    | '\x7d' =>
      if fields.all fun f => f.optional || seen.contains f.name then return update record
      else malformed
    | _ => malformed

/-- The fields in order behind the opening bracket of an array. -/
def positional {σ : Type} : List (Field σ) → Bool → σ → Reader σ
  | [], first, record => do
    blanks
    if first || (← peek?) == some ']' then
      expect ']'
      return record
    else malformed
  | f :: rest, first, record => do
    blanks
    if (← peek?) == some ']' then
      if f.optional && rest.all Field.optional then
        expect ']'
        return record
      else malformed
    if !first then
      expect ','
      blanks
    positional rest false ((← f.read) record)

/-- A record: an object of its fields in any order, or an array of them in order. -/
def record {σ : Type} (fields : List (Field σ)) (start : σ) : Reader σ := do
  blanks
  match ← next with
  | '\x7b' =>
    blanks
    if (← peek?) == some '\x7d' then
      expect '\x7d'
      if fields.all Field.optional then return start else malformed
    else members fields ((← get).length + 1) [] start
  | '[' => positional fields true start
  | _ => malformed

/-- One of several tagged values: a tag alone in quotes, or an object whose only
member is a tag with its value. -/
def tagged {α : Type} (alone : String → Option α) (withValue : String → Reader α) :
    Reader α := do
  blanks
  if (← peek?) == some '"' then
    match alone (← string) with
    | some a => return a
    | none => malformed
  else
    expect '\x7b'
    let tag ← string
    blanks
    expect ':'
    let a ← withValue tag
    blanks
    expect '\x7d'
    return a

/-- Reads a whole text. -/
def run {α : Type} (read : Reader α) (text : String) : Except Fault α := do
  let whole : Reader α := do
    let a ← read
    blanks
    if !(← get).isEmpty then malformed
    return a
  whole.run' text.toList

end Reader

end Json

end Sensitivity
