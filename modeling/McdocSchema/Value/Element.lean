import McdocSchema.Number.Binary64
import McdocSchema.Value

/-!
# Elements of arrays

The octets of an element of an array, the lowest octet first, by the name of the elements' sort.
-/

namespace McdocSchema.Value

open Number (Binary64)

/-- The low octets of a number, the lowest first. -/
def littleEndian (count : Nat) (n : Nat) : List UInt8 :=
  (List.range count).map fun i => (n / Nat.pow 256 i).toUInt8

/-- The bits of a number in a binary format with the given bits of fraction and exponent. -/
def formatBits (fractionBits exponentBits : Nat) (x : Binary64) : Nat :=
  let signBit := if x.isNegative then Nat.pow 2 (fractionBits + exponentBits) else 0
  let full := (Nat.pow 2 exponentBits - 1) * Nat.pow 2 fractionBits
  let least : Int := 2 - Nat.pow 2 (exponentBits - 1) - fractionBits
  match x with
  | .nan => full + Nat.pow 2 (fractionBits - 1)
  | .infinity _ => signBit + full
  | .finite _ m e =>
    let excess : Int := (m.log2 : Int) - fractionBits
    let scale : Int := if m = 0 || e + excess < least then least else e + excess
    let units :=
      if e ≤ scale then Number.roundHalfEven m (Nat.pow 2 (scale - e).toNat)
      else m * Nat.pow 2 (e - scale).toNat
    let step := (scale - least).toNat
    let implicit := Nat.pow 2 fractionBits
    signBit + min full (if units < implicit then units else step * implicit + units)

/-- The number that a value stands for in an array of integers. -/
def elementInt : Value → Int
  | .bool b => if b then 1 else 0
  | .int n => n
  | v => (v.number?.bind Binary64.truncate?).getD 0

def elementOctets (sort : String) (v : Value) : List UInt8 :=
  let whole (count : Nat) := littleEndian count (v.elementInt.emod (Nat.pow 256 count)).toNat
  let real := v.number?.getD 0
  match sort with
  | "bool" => [if real.isZero then 0 else 1]
  | "int8" | "uint8" => whole 1
  | "int16" | "uint16" => whole 2
  | "int32" | "uint32" => whole 4
  | "int64" | "uint64" => whole 8
  | "float16" => littleEndian 2 (formatBits 10 5 real)
  | "float32" => littleEndian 4 (formatBits 23 8 real)
  | _ => littleEndian 8 (formatBits 52 11 real)

def ofElements (sort : String) (shape : List Nat) (items : List Value) : Value :=
  .array sort shape (items.flatMap (elementOctets sort))

end McdocSchema.Value
