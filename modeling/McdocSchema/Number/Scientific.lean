import McdocSchema.Number.Notation
import McdocSchema.Number.Reading

/-!
# Decimal numbers with their digits kept

A decimal number that remembers how many places it was written with, so that `1.50` and `1.5` differ.
It is written with a point as long as that needs no zeros at the end and at most five after the
point, else with an exponent.
-/

namespace McdocSchema.Number

/-- A decimal number as it was written, or one of the special values. -/
inductive Scientific
  | finite (negative : Bool) (digits : Nat) (exponent : Int)
  | infinite (negative : Bool)
  /-- No number; `signalling` ones are marked, and digits may follow. -/
  | nan (negative signalling : Bool) (payload : List Char)
  deriving DecidableEq, Repr

namespace Scientific

/-- Reads the digits of a decimal number with a point and an exponent in it. -/
def readFinite? (negative : Bool) (cs : List Char) : Option Scientific := do
  let (mantissa, tail) := cs.span fun c => c != 'e' && c != 'E'
  let exponent : Int ← match tail with
    | [] => some 0
    | _ :: ds =>
      let (minus, ds) := takeSign ds
      if ds.isEmpty || !ds.all Char.isDigit then none
      else some (if minus then -(digitsValue ds : Int) else digitsValue ds)
  let (whole, rest) := mantissa.span (· != '.')
  let places := rest.drop 1
  let digits := whole ++ places
  if digits.isEmpty || !digits.all Char.isDigit then none
  else some (.finite negative (digitsValue digits) (exponent - places.length))

/-- Reads a decimal number. -/
def ofString? (text : String) : Option Scientific :=
  let cs := (trimMargins text.toList).filter (· != '_') |>.map plainDigit
  let (negative, cs) := takeSign cs
  let lower := cs.map Char.toLower
  if lower == "inf".toList || lower == "infinity".toList then some (.infinite negative)
  else if lower.take 3 == "nan".toList && (lower.drop 3).all Char.isDigit then
    some (.nan negative false ((lower.drop 3).dropWhile (· == '0')))
  else if lower.take 4 == "snan".toList && (lower.drop 4).all Char.isDigit then
    some (.nan negative true ((lower.drop 4).dropWhile (· == '0')))
  else readFinite? negative cs

/-- The text of a finite number without its sign. -/
def finiteChars (digits : Nat) (exponent : Int) : List Char :=
  let ds := natDigits digits
  let left : Int := exponent + ds.length
  let point : Int := if exponent ≤ 0 && -6 < left then left else 1
  let mantissa :=
    if point ≤ 0 then '0' :: '.' :: (List.replicate (-point).toNat '0' ++ ds)
    else if (ds.length : Int) ≤ point then ds ++ List.replicate (point.toNat - ds.length) '0'
    else ds.take point.toNat ++ '.' :: ds.drop point.toNat
  let shift := left - point
  if shift = 0 then mantissa
  else mantissa ++ 'E' :: (if shift < 0 then '-' else '+') :: natDigits shift.natAbs

/-- The text of a decimal number. -/
def toText (x : Scientific) : String :=
  let signed (negative : Bool) (cs : List Char) := String.ofList (if negative then '-' :: cs else cs)
  match x with
  | .finite negative digits exponent => signed negative (finiteChars digits exponent)
  | .infinite negative => signed negative "Infinity".toList
  | .nan negative signalling payload =>
    signed negative ((if signalling then "sNaN" else "NaN").toList ++ payload)

end Scientific

end McdocSchema.Number
