import McdocSchema.Number.Rounding

/-!
# Binary floating-point numbers of 64 bits

A finite number is `± mantissa · 2 ^ exponent`. In the canonical form, the only one that the
functions below build, the mantissa has at most 53 bits, the exponent is at least `-1074`, and the
mantissa has exactly 53 bits unless the exponent is `-1074`. The operations compute the exact
rational result and round it once, so that they agree with the arithmetic of the format.
-/

namespace McdocSchema.Number

/-- A binary floating-point number of 64 bits. -/
inductive Binary64
  | nan
  | infinity (negative : Bool)
  | finite (negative : Bool) (mantissa : Nat) (exponent : Int)
  deriving DecidableEq, Repr, Inhabited

namespace Binary64

/-- The least exponent of the format. -/
def minExponent : Int := -1074

/-- The greatest exponent of the format. -/
def maxExponent : Int := 971

/-- Zero of either sign. -/
def zero (negative : Bool) : Binary64 :=
  .finite negative 0 minExponent

/-- `n · 2 ^ (-e)` when `e` is negative, and `n` otherwise. -/
def scaleUp (n : Nat) (e : Int) : Nat :=
  n <<< (-e).toNat

/-- `d · 2 ^ e` when `e` is positive, and `d` otherwise. -/
def scaleDown (d : Nat) (e : Int) : Nat :=
  d <<< e.toNat

/-- The exponent at which `n / d` has a mantissa of 53 bits, or the least one if that is greater. -/
def exponentFor (n d : Nat) : Int :=
  let e := (n.log2 : Int) - (d.log2 : Int) - 53
  let e := if Nat.pow 2 53 * scaleDown d e ≤ scaleUp n e then e + 1 else e
  max e minExponent

/-- The number nearest to `± n / d`; of two equally near ones that with the even mantissa. -/
def ofRatio (negative : Bool) (n d : Nat) : Binary64 :=
  if n = 0 then zero negative
  else
    let e := exponentFor n d
    let m := roundHalfEven (scaleUp n e) (scaleDown d e)
    let (m, e) := if m = Nat.pow 2 53 then (Nat.pow 2 52, e + 1) else (m, e)
    if maxExponent < e then .infinity negative else .finite negative m e

/-- The exact value of a finite number, as a fraction with the sign in the numerator. -/
def toRatio? : Binary64 → Option (Int × Nat)
  | .finite negative m e =>
    let n : Int := scaleDown m e
    some (if negative then -n else n, scaleUp 1 e)
  | _ => none

/-- The number nearest to the fraction `n / d`; a zero gets the sign given. -/
def ofFraction (zeroNegative : Bool) (n : Int) (d : Nat) : Binary64 :=
  ofRatio (if n = 0 then zeroNegative else n < 0) n.natAbs d

/-- The number nearest to an integer. -/
def ofInt (n : Int) : Binary64 :=
  ofFraction false n 1

/-- The number nearest to `± digits · 10 ^ exponent`. Exponents far outside the format are answered
without computing the power. -/
def ofDecimal (negative : Bool) (digits : Nat) (exponent : Int) : Binary64 :=
  if digits = 0 then zero negative
  else if 400 < exponent then .infinity negative
  else if exponent < -400 - (digits.log2 : Int) then zero negative
  else if 0 ≤ exponent then ofRatio negative (digits * Nat.pow 10 exponent.toNat) 1
  else ofRatio negative digits (Nat.pow 10 (-exponent).toNat)

/-- Whether the sign bit is set. -/
def isNegative : Binary64 → Bool
  | .nan => false
  | .infinity negative => negative
  | .finite negative _ _ => negative

/-- Whether the number is finite. -/
def isFinite : Binary64 → Bool
  | .finite .. => true
  | _ => false

/-- Whether the number is a zero of either sign. -/
def isZero : Binary64 → Bool
  | .finite _ m _ => m == 0
  | _ => false

/-- The number with its sign changed. -/
def neg : Binary64 → Binary64
  | .nan => .nan
  | .infinity negative => .infinity !negative
  | .finite negative m e => .finite (!negative) m e

/-- The number without its sign. -/
def abs : Binary64 → Binary64
  | .nan => .nan
  | .infinity _ => .infinity false
  | .finite _ m e => .finite false m e

/-- The sum, rounded once. A sum of opposite numbers is the positive zero, and a sum of zeros is
negative only if both are. -/
def add (x y : Binary64) : Binary64 :=
  match x, y with
  | .nan, _ => .nan
  | _, .nan => .nan
  | .infinity a, .infinity b => if a == b then .infinity a else .nan
  | .infinity a, _ => .infinity a
  | _, .infinity b => .infinity b
  | .finite .., .finite .. =>
    match x.toRatio?, y.toRatio? with
    | some (n, d), some (n', d') =>
      ofFraction (x.isNegative && y.isNegative) (n * d' + n' * d) (d * d')
    | _, _ => .nan

/-- The difference, rounded once. -/
def sub (x y : Binary64) : Binary64 :=
  add x y.neg

/-- The product, rounded once. -/
def mul (x y : Binary64) : Binary64 :=
  let negative := x.isNegative != y.isNegative
  match x, y with
  | .nan, _ => .nan
  | _, .nan => .nan
  | .infinity _, y => if y.isZero then .nan else .infinity negative
  | x, .infinity _ => if x.isZero then .nan else .infinity negative
  | .finite .., .finite .. =>
    match x.toRatio?, y.toRatio? with
    | some (n, d), some (n', d') => ofFraction negative (n * n') (d * d')
    | _, _ => .nan

/-- The quotient, rounded once. A division by zero gives an infinity, or no number if the dividend
is zero too. -/
def div (x y : Binary64) : Binary64 :=
  let negative := x.isNegative != y.isNegative
  match x, y with
  | .nan, _ => .nan
  | _, .nan => .nan
  | .infinity _, .infinity _ => .nan
  | .infinity _, _ => .infinity negative
  | _, .infinity _ => zero negative
  | .finite .., .finite .. =>
    match x.toRatio?, y.toRatio? with
    | some (n, d), some (n', d') =>
      if n' = 0 then (if n = 0 then .nan else .infinity negative)
      else ofRatio negative (n.natAbs * d') (d * n'.natAbs)
    | _, _ => .nan

instance : Add Binary64 := ⟨add⟩
instance : Sub Binary64 := ⟨sub⟩
instance : Mul Binary64 := ⟨mul⟩
instance : Div Binary64 := ⟨div⟩
instance : Neg Binary64 := ⟨neg⟩
instance {n : Nat} : OfNat Binary64 n := ⟨ofInt n⟩

/-- Whether `x` is less than `y`; never if one of them is no number. -/
def lt (x y : Binary64) : Bool :=
  match x, y with
  | .nan, _ => false
  | _, .nan => false
  | .infinity a, .infinity b => a && !b
  | .infinity a, _ => a
  | _, .infinity b => !b
  | .finite .., .finite .. =>
    match x.toRatio?, y.toRatio? with
    | some (n, d), some (n', d') => n * d' < n' * d
    | _, _ => false

/-- Whether `x` and `y` are equal as numbers: the two zeros are, and `nan` is not equal to itself. -/
def eq (x y : Binary64) : Bool :=
  match x with
  | .nan => false
  | _ => x == y || (x.isZero && y.isZero)

/-- Whether `x` is at most `y`. -/
def le (x y : Binary64) : Bool :=
  lt x y || eq x y

/-- The integer between zero and a finite number that is nearest to the number. -/
def truncate? (x : Binary64) : Option Int :=
  x.toRatio?.map fun (n, d) => n.tdiv d

/-- The finite number `x` rounded to `places` decimal places, a half to the even neighbour. A
negative count of places rounds to tens, hundreds and so on. Beyond the precision of the format
nothing is rounded, and beyond its range all is. -/
def roundPlaces (x : Binary64) (places : Int) : Binary64 :=
  match x.toRatio? with
  | none => x
  | some (n, d) =>
    if 323 < places then x
    else if places < -308 then zero x.isNegative
    else
      let (up, down) :=
        if 0 ≤ places then (Nat.pow 10 places.toNat, 1) else (1, Nat.pow 10 (-places).toNat)
      ofDecimal x.isNegative (roundHalfEven (n.natAbs * up) (d * down)) (-places)

end Binary64

end McdocSchema.Number
