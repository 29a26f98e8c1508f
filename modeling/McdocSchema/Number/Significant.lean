import McdocSchema.Number.Shortest

/-!
# Significant digits

Rounding to a number of digits counted from the leading one, so that the last bits of a computation
do not show.
-/

namespace McdocSchema.Number.Binary64

/-- The number rounded to `count` significant digits. Both zeros become the positive one. -/
def roundSignificant (count : Nat) (x : Binary64) : Binary64 :=
  match x.toRatio? with
  | none => x
  | some (n, d) =>
    if n = 0 then zero false
    else x.roundPlaces (count - 1 - decimalExponent n.natAbs d)

end McdocSchema.Number.Binary64
