import McdocSchema.Number.Shortest

/-!
# Number notation

How numbers are written. `Binary64.toText` writes the shortest digits that read back: with a point
if the leading digit stands between the fourth place after it and the sixteenth before it, else with
an exponent of at least two digits. `Binary64.toFixed` writes a set number of decimal places of the
exact value, a half going to the even neighbour.
-/

namespace McdocSchema.Number

/-- The decimal digits of `n`. -/
def natDigits (n : Nat) : List Char :=
  Nat.toDigits 10 n

/-- The decimal text of an integer. -/
def intText (n : Int) : String :=
  match n with
  | .ofNat k => String.ofList (natDigits k)
  | .negSucc k => String.ofList ('-' :: natDigits (k + 1))

/-- Puts `fill` in front of `cs` up to the length `width`. -/
def padStart (width : Nat) (fill : Char) (cs : List Char) : List Char :=
  List.replicate (width - cs.length) fill ++ cs

namespace Decimal

def leadingExponent (x : Decimal) : Int :=
  x.exponent + (natDigits x.digits).length - 1

/-- The number with a point and at least one digit on both sides of it. -/
def positional (x : Decimal) : List Char :=
  let ds := natDigits x.digits
  if 0 ≤ x.exponent then ds ++ List.replicate x.exponent.toNat '0' ++ ['.', '0']
  else
    let places := (-x.exponent).toNat
    let ds := padStart (places + 1) '0' ds
    ds.take (ds.length - places) ++ '.' :: ds.drop (ds.length - places)

/-- The number with one digit before the point and an exponent of at least two digits. -/
def scientific (x : Decimal) : List Char :=
  let e := x.leadingExponent
  let mantissa := match natDigits x.digits with
    | [] => []
    | [d] => [d]
    | d :: ds => d :: '.' :: ds
  let sign := if e < 0 then '-' else '+'
  mantissa ++ 'e' :: sign :: padStart 2 '0' (natDigits e.natAbs)

/-- The least exponent of a leading digit that is written with a point only. -/
def leastPositional : Int := -4

/-- The first exponent of a leading digit that is too great to be written with a point only. -/
def firstScientific : Int := 16

/-- The text of a decimal: positional where that is short. -/
def toChars (x : Decimal) : List Char :=
  let e := x.leadingExponent
  if leastPositional ≤ e && e < firstScientific then x.positional else x.scientific

end Decimal

namespace Binary64

/-- Puts a minus sign in front of a negative number. -/
def signed (negative : Bool) (cs : List Char) : List Char :=
  if negative then '-' :: cs else cs

/-- The shortest text that is read as the number. -/
def toText : Binary64 → String
  | .nan => "nan"
  | .infinity negative => String.ofList (signed negative ['i', 'n', 'f'])
  | .finite negative m e =>
    String.ofList (signed negative (if m = 0 then ['0', '.', '0'] else (shortest m e).toChars))

/-- The text with exactly `places` decimal places. -/
def toFixed (places : Nat) : Binary64 → String
  | .nan => "nan"
  | .infinity negative => String.ofList (signed negative ['i', 'n', 'f'])
  | .finite negative m e =>
    let units := roundHalfEven (scaleDown m e * Nat.pow 10 places) (scaleUp 1 e)
    let ds := padStart (places + 1) '0' (natDigits units)
    let whole := ds.take (ds.length - places)
    let cs := if places = 0 then whole else whole ++ '.' :: ds.drop (ds.length - places)
    String.ofList (signed negative cs)

end Binary64

end McdocSchema.Number
