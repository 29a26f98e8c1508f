import McdocSchema.Number.Binary64

/-!
# JSON values

Values of the data format in which schemas are written. The fields of an object keep the order in
which they were added; a field that is set again keeps its place.
-/

namespace McdocSchema

open Number (Binary64)

/-- Pairs of a key and a value in the order of the first appearance of their keys. -/
abbrev Fields (α : Type) := List (String × α)

namespace Fields

variable {α : Type}

/-- Sets the value of a key: in its place if it has one, else at the end. -/
def set (key : String) (value : α) : Fields α → Fields α
  | [] => [(key, value)]
  | (k, v) :: rest => if k == key then (k, value) :: rest else (k, v) :: set key value rest

def get? (fields : Fields α) (key : String) : Option α :=
  fields.lookup key

/-- Fields set one after the other. -/
def ofList (pairs : List (String × α)) : Fields α :=
  pairs.foldl (fun fields pair => set pair.1 pair.2 fields) []

end Fields

/-- A JSON value. Integers and other numbers are kept apart. -/
inductive Json
  | null
  | bool (value : Bool)
  | int (value : Int)
  | real (value : Binary64)
  | string (value : String)
  | array (items : List Json)
  | object (fields : List (String × Json))
  deriving Inhabited

namespace Json

def field? (key : String) : Json → Option Json
  | .object fields => Fields.get? fields key
  | _ => none

/-- The text of a string. -/
def string? : Json → Option String
  | .string s => some s
  | _ => none

def items? : Json → Option (List Json)
  | .array items => some items
  | _ => none

def strings (texts : List String) : Json :=
  .array (texts.map .string)

end Json

end McdocSchema
