import Sensitivity.Decimal.Shortest

/-!
# Written numbers

A style fixes everything about the text of a number that its digits leave open:
which exponents are written positionally, what marks a whole number, the sign of
an exponent, ties, and the words for values that are not finite.
-/

namespace Sensitivity

/-- How numbers are written. -/
structure NumberStyle where
  tie : Tie
  /-- Whether a number whose leading digit has this exponent is written without an
  exponent. -/
  positional : Int → Bool
  /-- Written after a whole number in positional form. -/
  wholeMark : String
  /-- Written before an exponent that is not negative. -/
  plus : String
  undefined : String
  infinite : String

namespace NumberStyle

/-- A run of zeros. -/
def zeros (n : Nat) : List Char := List.replicate n '0'

/-- The digits `ds` with the leading one at exponent `e`, the point in its place. -/
def positionalText (wholeMark : String) (ds : List Char) (e : Int) : String :=
  if e < 0 then String.ofList ('0' :: '.' :: zeros (-e - 1).toNat ++ ds)
  else
    let whole := e.toNat + 1
    if ds.length ≤ whole then String.ofList (ds ++ zeros (whole - ds.length)) ++ wholeMark
    else String.ofList (ds.take whole ++ '.' :: ds.drop whole)

/-- An exponent with its sign. -/
def exponentText (plus : String) (e : Int) : String :=
  (if e < 0 then "-" else plus) ++ toString e.natAbs

/-- The digits `ds`, a point after the first, and the exponent `e`. -/
def scientificText (plus : String) (ds : List Char) (e : Int) : String :=
  let mantissa := match ds with
    | d :: [] => [d]
    | d :: rest => d :: '.' :: rest
    | [] => []
  String.ofList mantissa ++ "e" ++ exponentText plus e

/-- The sign of a negative number. -/
def signText (negative : Bool) : String := if negative then "-" else ""

/-- A decimal in this style. -/
def decimal (s : NumberStyle) (d : Decimal) : String :=
  let ds := d.digits
  let e := d.leading
  if s.positional e then positionalText s.wholeMark ds e else scientificText s.plus ds e

/-- A number in this style, with the fewest digits that read back. -/
def write (s : NumberStyle) : Binary → String
  | .undefined => s.undefined
  | .infinite negative => signText negative ++ s.infinite
  | .finite negative m q narrow => signText negative ++ s.decimal (.shortest s.tie m q narrow)

/-- A number with `places` digits after the point and an exponent. -/
def writeRounded (s : NumberStyle) (places : Nat) : Binary → String
  | .undefined => s.undefined
  | .infinite negative => signText negative ++ s.infinite
  | .finite negative m q _ =>
    let d := Decimal.rounded places m q
    let ds := (d.digits ++ zeros places).take (places + 1)
    let e := if m = 0 then 0 else d.leading
    signText negative ++ scientificText s.plus ds e

/-- Numbers in running text: never an exponent, a whole number without a point. -/
def plain : NumberStyle where
  tie := .up
  positional _ := true
  wholeMark := ""
  plus := ""
  undefined := "NaN"
  infinite := "inf"

/-- Numbers in running text with one digit before the point and an exponent. -/
def scientific : NumberStyle := { plain with positional := fun _ => false }

end NumberStyle

end Sensitivity
