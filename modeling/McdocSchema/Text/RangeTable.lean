/-!
# Sets of characters as tables of ranges

A property of characters is kept as the list of its ranges of code points, both ends included and in
increasing order. Membership stops at the first range that starts beyond the character.
-/

namespace McdocSchema.Text

/-- Ranges of code points, both ends included, in increasing order. -/
abbrev RangeTable := List (Nat × Nat)

namespace RangeTable

/-- The start of the range that holds the code point `n`. -/
def startAt? (n : Nat) : RangeTable → Option Nat
  | [] => none
  | (lo, hi) :: rest => if n < lo then none else if n ≤ hi then some lo else startAt? n rest

/-- The start of the range that holds `c`. -/
def start? (table : RangeTable) (c : Char) : Option Nat :=
  table.startAt? c.toNat

def holds (table : RangeTable) (c : Char) : Bool :=
  (table.start? c).isSome

end RangeTable

end McdocSchema.Text
