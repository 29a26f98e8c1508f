import McdocSchema.Number.Binary64

/-!
# The shortest decimal that reads back

The decimal text of a finite number has the fewest digits among the decimals that are read as that
number. For one digit, two digits and so on, the two neighbours of the number on the decimal grid
with that many digits are read back; the first grid on which one of them succeeds is taken, and of
two successes the nearer one. If both are equally near, the one with the even last digit is taken.
-/

namespace McdocSchema.Number

/-- The decimal number `digits · 10 ^ exponent`. -/
structure Decimal where
  digits : Nat
  exponent : Int
  deriving DecidableEq, Repr, Inhabited

namespace Decimal

/-- Removes zeros at the end of the digits, at most `fuel` of them. -/
def dropZeros : Nat → Decimal → Decimal
  | 0, x => x
  | fuel + 1, x =>
    if x.digits ≠ 0 ∧ x.digits % 10 = 0 then dropZeros fuel ⟨x.digits / 10, x.exponent + 1⟩ else x

end Decimal

/-- `10 ^ e` as a fraction. -/
def tenPower (e : Int) : Nat × Nat :=
  if 0 ≤ e then (Nat.pow 10 e.toNat, 1) else (1, Nat.pow 10 (-e).toNat)

/-- The exponent `e` with `10 ^ e ≤ n / d < 10 ^ (e + 1)`. The count of bits leaves four candidates,
of which the first that bounds the fraction is the one. -/
def decimalExponent (n d : Nat) : Int :=
  let bits := (n.log2 : Int) - (d.log2 : Int)
  let least := Int.fdiv (bits * 30103) 100000 - 1
  let bounds (e : Int) : Bool :=
    let (up, down) := tenPower (e + 1)
    n * down < d * up
  ([least, least + 1, least + 2].find? bounds).getD (least + 3)

namespace Binary64

/-- The exact decimal value of `m · 2 ^ e`. -/
def exactDecimal (m : Nat) (e : Int) : Decimal :=
  if 0 ≤ e then ⟨m * Nat.pow 2 e.toNat, 0⟩ else ⟨m * Nat.pow 5 (-e).toNat, e⟩

/-- The neighbours of `m · 2 ^ e` among the decimals with `count` digits, the nearer one first; of two
that are equally near, the even one. -/
def neighbours (m : Nat) (e : Int) (count : Nat) : List Decimal :=
  let n := scaleDown m e
  let d := scaleUp 1 e
  let grid := decimalExponent n d + 1 - count
  let (up, down) := tenPower grid
  let num := n * down
  let den := d * up
  let below := num / den
  let twice := 2 * (num % den)
  let nearBelow := twice < den || (twice == den && below % 2 == 0)
  if nearBelow then [⟨below, grid⟩, ⟨below + 1, grid⟩] else [⟨below + 1, grid⟩, ⟨below, grid⟩]

/-- The shortest decimal that is read as `m · 2 ^ e`. Seventeen digits always suffice; the exact
value stands behind them, so that the result is read as the number in any case. -/
def shortest (m : Nat) (e : Int) : Decimal :=
  let candidates := (List.range 17).flatMap fun k => neighbours m e (k + 1)
  let readsBack (x : Decimal) : Bool := ofDecimal false x.digits x.exponent == .finite false m e
  ((candidates.find? readsBack).getD (exactDecimal m e)).dropZeros 400

end Binary64

end McdocSchema.Number
