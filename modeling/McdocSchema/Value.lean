import McdocSchema.FileTree.Path
import McdocSchema.Number.Scientific

/-!
# Results of workloads

The values that a workload may give back. They are kept as far as their fingerprint and the name of
their sort need it.
-/

namespace McdocSchema

open Number (Binary64 Scientific)

inductive Value
  | none
  | bool (value : Bool)
  | int (value : Int)
  | real (value : Binary64)
  | complex (re im : Binary64)
  | text (value : String)
  /-- Octets, under the name of what holds them. -/
  | octets (sort : String) (data : List UInt8)
  | list (items : List Value)
  | tuple (items : List Value)
  | set (frozen : Bool) (items : List Value)
  | dict (entries : List (Value × Value))
  /-- A record with two fields. -/
  | pair (left right : Value)
  | date (year month day : Nat)
  | time (hour minute second micro : Nat)
  /-- A length of time in microseconds. -/
  | duration (micros : Int)
  | decimal (value : Scientific)
  | fraction (numerator denominator : Int)
  | path (value : Path)
  /-- A universal identifier by its hexadecimal digits. -/
  | identifier (digits : List Char)
  /-- An object of which nothing is known. -/
  | object
  /-- A class. -/
  | type
  /-- An array of elements of one sort. -/
  | array (element : String) (shape : List Nat) (data : List UInt8)
  deriving Inhabited

namespace Value

def sortName : Value → String
  | .none => "NoneType"
  | .bool _ => "bool"
  | .int _ => "int"
  | .real _ => "float"
  | .complex .. => "complex"
  | .text _ => "str"
  | .octets sort _ => sort
  | .list _ => "list"
  | .tuple _ => "tuple"
  | .set frozen _ => if frozen then "frozenset" else "set"
  | .dict _ => "dict"
  | .pair .. => "Pair"
  | .date .. => "date"
  | .time .. => "time"
  | .duration _ => "timedelta"
  | .decimal _ => "Decimal"
  | .fraction .. => "Fraction"
  | .path _ => "PurePosixPath"
  | .identifier _ => "UUID"
  | .object => "object"
  | .type => "type"
  | .array .. => "ndarray"

/-! ## Equality of keys -/

/-- The value of a number, whatever its sort. -/
def number? : Value → Option Binary64
  | .bool b => some (if b then 1 else 0)
  | .int n => some (Binary64.ofInt n)
  | .real x => some x
  | .complex re im => if im.isZero then some re else .none
  | _ => .none

/-- The exact value of a finite number. -/
def ratio? : Value → Option (Int × Nat)
  | .bool b => some (if b then 1 else 0, 1)
  | .int n => some (n, 1)
  | v => v.number?.bind Binary64.toRatio?

mutual

/-- Whether two values are the same key. Numbers are compared by value, whatever their sort; a value
that can be no key is the same as no other. -/
def sameKey : Value → Value → Bool
  | .none, .none => true
  | .text s, .text t => s == t
  | .octets _ s, .octets _ t => s == t
  | .tuple xs, .tuple ys => sameKeys xs ys
  | .date y m d, .date y' m' d' => y == y' && m == m' && d == d'
  | .time h m s u, .time h' m' s' u' => h == h' && m == m' && s == s' && u == u'
  | .duration u, .duration u' => u == u'
  | .path p, .path q => p == q
  | .identifier s, .identifier t => s == t
  | .complex re im, .complex re' im' => re.eq re' && im.eq im'
  | v, w =>
    match v.ratio?, w.ratio?, v.number?, w.number? with
    | some (n, d), some (n', d'), _, _ => n * d' == n' * d
    | .none, .none, some x, some y => x.eq y
    | _, _, _, _ => false

/-- Whether two lists are the same keys. -/
def sameKeys : List Value → List Value → Bool
  | [], [] => true
  | x :: xs, y :: ys => sameKey x y && sameKeys xs ys
  | _, _ => false

end

/-- The set of some values; of values that are the same key the first is kept. -/
def ofMembers (frozen : Bool) (items : List Value) : Value :=
  .set frozen (items.foldl (fun kept v => if kept.any (sameKey v) then kept else kept ++ [v]) [])

/-- Sets the value of a key: a key that is there keeps its place and its form. -/
def setEntry (key value : Value) : List (Value × Value) → List (Value × Value)
  | [] => [(key, value)]
  | (k, v) :: rest => if sameKey k key then (k, value) :: rest else (k, v) :: setEntry key value rest

/-- The dictionary of some entries, set one after the other. -/
def ofEntries (entries : List (Value × Value)) : Value :=
  .dict (entries.foldl (fun kept e => setEntry e.1 e.2 kept) [])

/-- A value inside a number of lists. -/
def nested (value : Value) : Nat → Value
  | 0 => value
  | n + 1 => .list [nested value n]

/-- The length of time of some days, seconds and microseconds. -/
def ofDuration (days seconds micros : Int) : Value :=
  .duration ((days * 86400 + seconds) * 1000000 + micros)

/-- The identifier written in some hexadecimal digits, whatever divides them. -/
def ofIdentifier (text : String) : Value :=
  let lower := text.toList.map Char.toLower
  .identifier (lower.filter fun c => c.isDigit || ('a' ≤ c && c ≤ 'f'))

end Value

end McdocSchema
