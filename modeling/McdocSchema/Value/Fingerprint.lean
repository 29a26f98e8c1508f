import McdocSchema.Digest.Sha256
import McdocSchema.Number.Significant
import McdocSchema.Value

/-!
# Fingerprints

The fingerprint of a value is the digest of a stream of octets that is written from the value. The
order of the members of a set and of the entries of a dictionary does not show: they are taken in the
order of the fingerprints of the members and of the keys. Values that lie too deep and items that
stand too far behind leave no trace of their own.
-/

namespace McdocSchema.Value

open Number (Binary64)

/-- The octets of a text. -/
def ascii (text : String) : List UInt8 := Text.Utf8.encode text

/-- The digits of a real number that its fingerprint depends on. -/
def significantDigits : Nat := 6

/-- The text of a real number in a stream. -/
def realText (x : Binary64) : String :=
  (x.roundSignificant significantDigits).toText

/-- The greatest depth at which a value is written. -/
def maxDepth : Nat := 8

/-- The number of items of a list that are written. -/
def maxItems : Nat := 2000

/-- The octets in place of a value that lies too deep. -/
def tooDeep : List UInt8 := ascii "..."

/-! ## The text of plain values -/

/-- The text of numbers between commas. -/
def commas (ns : List Nat) : String :=
  ", ".intercalate (ns.map fun (n : Nat) => Number.intText n)

/-- The text of a length of time: whole days, then seconds, then microseconds, as far as they are not
zero. -/
def durationText (micros : Int) : String :=
  let day : Int := 86400 * 1000000
  let days := Int.fdiv micros day
  let rest := Int.fmod micros day
  let part (name : String) (n : Int) : List String :=
    if n = 0 then [] else [name ++ "=" ++ Number.intText n]
  let parts := part "days" days ++ part "seconds" (rest / 1000000) ++
    part "microseconds" (rest % 1000000)
  "datetime.timedelta(" ++ (if parts.isEmpty then "0" else ", ".intercalate parts) ++ ")"

/-- The text of a fraction in lowest terms. -/
def fractionText (n d : Int) : String :=
  let g : Int := Int.gcd n d
  let s : Int := if d < 0 then -1 else 1
  "Fraction(" ++ Number.intText (s * n / g) ++ ", " ++ Number.intText (s * d / g) ++ ")"

/-- The text of an identifier: its digits in five groups. -/
def identifierText (digits : List Char) : String :=
  let group (start count : Nat) := String.ofList ((digits.drop start).take count)
  "UUID('" ++ "-".intercalate [group 0 8, group 8 4, group 12 4, group 16 4, group 20 12] ++ "')"

/-- The text of a time of day: seconds and microseconds as far as needed. -/
def timeText (hour minute second micro : Nat) : String :=
  let parts := if micro ≠ 0 then [hour, minute, second, micro]
    else if second ≠ 0 then [hour, minute, second]
    else [hour, minute]
  "datetime.time(" ++ commas parts ++ ")"

/-- The text of the shape of an array. -/
def shapeText : List Nat → String
  | [n] => "(" ++ commas [n] ++ ",)"
  | ns => "(" ++ commas ns ++ ")"

/-! ## Streams -/

def digestText (stream : List UInt8) : String := Sha256.hexDigest stream

/-- The stream of the name of a field at a depth: that of a text. -/
def nameStream (depth : Nat) (name : String) : List UInt8 :=
  if maxDepth < depth then tooDeep else ascii "s" ++ ascii name

/-- The order of pieces by their keys. -/
def byKey (a b : String × List UInt8) : Bool := a.1 ≤ b.1

mutual

def stream (depth : Nat) (v : Value) : List UInt8 :=
  if maxDepth < depth then tooDeep
  else
    match v with
    | .none => ascii "None"
    | .bool b => ascii (if b then "True" else "False")
    | .int n => ascii (Number.intText n)
    | .real x => ascii (realText x)
    | .complex re im => ascii ("c" ++ realText re ++ realText im)
    | .text s => ascii "s" ++ ascii s
    | .octets _ data => ascii "s" ++ data
    | .list items | .tuple items =>
      ascii ("L" ++ Number.intText items.length) ++ streamItems (depth + 1) maxItems items
    | .set _ items =>
      let keys := (memberStreams (depth + 1) items).map digestText
      ascii ("S" ++ Number.intText items.length) ++
        (keys.mergeSort fun a b => a ≤ b).flatMap ascii
    | .dict entries =>
      ascii ("D" ++ Number.intText entries.length) ++
        ((entryStreams (depth + 1) entries).mergeSort byKey).flatMap (·.2)
    | .pair left right =>
      let field (name : String) (value : List UInt8) : String × List UInt8 :=
        let key := nameStream (depth + 1) name
        (digestText key, key ++ value)
      ascii "D2" ++ ([field "left" (stream (depth + 1) left),
        field "right" (stream (depth + 1) right)].mergeSort byKey).flatMap (·.2)
    | .date year month day => ascii ("datetime.date(" ++ commas [year, month, day] ++ ")")
    | .time hour minute second micro => ascii (timeText hour minute second micro)
    | .duration micros => ascii (durationText micros)
    | .decimal x => ascii ("Decimal('" ++ x.toText ++ "')")
    | .fraction n d => ascii (fractionText n d)
    | .path p => ascii ("PurePosixPath(" ++ Text.quoted p.toString ++ ")")
    | .identifier digits => ascii (identifierText digits)
    | .object => ascii "<builtins.object>"
    | .type => ascii "<builtins.type>"
    | .array element shape data => ascii ("A" ++ element ++ shapeText shape) ++ data

/-- The streams of the first items, one after the other. -/
def streamItems (depth : Nat) : Nat → List Value → List UInt8
  | 0, _ => []
  | _, [] => []
  | n + 1, item :: items => stream depth item ++ streamItems depth n items

def memberStreams (depth : Nat) : List Value → List (List UInt8)
  | [] => []
  | item :: items => stream depth item :: memberStreams depth items

/-- The streams of entries, each with the fingerprint of its key. -/
def entryStreams (depth : Nat) : List (Value × Value) → List (String × List UInt8)
  | [] => []
  | (key, value) :: entries =>
    let k := stream depth key
    (digestText k, k ++ stream depth value) :: entryStreams depth entries

end

def fingerprint (v : Value) : String := digestText (stream 0 v)

end McdocSchema.Value
