import McdocSchema.Json
import McdocSchema.TypeExpr

/-!
# The schema of a type

A type is converted by its form. Bounds on numbers are written as they are, with a key of their own
when they are exclusive; bounds on lengths and sizes are cut to integers, which fails for bounds that
are not finite. Nothing else fails.

The parts of a node are converted in the order of the text: an element before the bounds of its
list, the fields of a struct before what is spread into it.
-/

namespace McdocSchema

open Number (Binary64)

/-- Why a bound on a length is no integer. -/
inductive LengthFault
  | infinite
  | notANumber
  deriving DecidableEq, Repr

def LengthFault.message : LengthFault → String
  | .infinite => "cannot convert float infinity to integer"
  | .notANumber => "cannot convert float NaN to integer"

namespace Schema

/-! ## Bounds -/

/-- A bound on a length, cut to an integer. -/
def lengthBound (x : Binary64) : Except LengthFault Json :=
  match x with
  | .nan => .error .notANumber
  | .infinity _ => .error .infinite
  | .finite .. => .ok (.int (x.truncate?.getD 0))

def boundField (key : String) : Option Binary64 → Except LengthFault (List (String × Json))
  | none => .ok []
  | some x => (lengthBound x).map fun n => [(key, n)]

def lengthFields (minKey maxKey : String) :
    Option NumberRange → Except LengthFault (List (String × Json))
  | none => .ok []
  | some range => do
    let low ← boundField minKey range.min
    let high ← boundField maxKey range.max
    .ok (low ++ high)

/-- The field for a bound on a number. -/
def numberField (key exclusiveKey : String) (exclusive : Bool) :
    Option Binary64 → List (String × Json)
  | none => []
  | some x => [(if exclusive then exclusiveKey else key, .real x)]

def numberFields : Option NumberRange → List (String × Json)
  | none => []
  | some range =>
    numberField "minimum" "exclusiveMinimum" range.minExclusive range.min
      ++ numberField "maximum" "exclusiveMaximum" range.maxExclusive range.max

/-! ## Forms -/

/-- Whether a numeric type also has numbers that are no integers. -/
def isFractional (name : String) : Bool :=
  name == "float" || name == "double"

def literalValue : Literal → Json
  | .text s => .string s
  | .flag b => .bool b
  | .null => .null

/-- The names of the fields that have to be present. -/
def requiredNames (fields : List (Field TypeExpr)) : List String :=
  (fields.filter fun f => !f.optional).map Field.name

/-- The field for the names that have to be present, if there are any. -/
def requiredField (names : List String) : List (String × Json) :=
  if names.isEmpty then [] else [("required", .strings names)]

/-- The schema of a struct whose fields have the given schemas. -/
def structSchema (properties : Json) (required : List String) : Json :=
  .object ([("type", .string "object"), ("properties", properties),
    ("additionalProperties", .bool false)] ++ requiredField required)

/-- The schema of a struct with the schemas of the types spread into it. -/
def spreadSchema (properties : Json) (required : List String) (spreads : List Json) : Json :=
  let own := Json.object ([("type", .string "object"), ("properties", properties)]
    ++ requiredField required)
  .object [("allOf", .array (own :: spreads))]

/-- The schema of an enumeration: the values if every variant has one, else the names. -/
def enumSchema (variants : List Variant) : Json :=
  let values := variants.filterMap Variant.value
  let items :=
    if values.length = variants.length then values.map Json.int
    else variants.map fun v => Json.string v.name
  .object [("enum", .array items)]

/-- The schema that refers to a definition. -/
def reference (path : String) : Json :=
  .object [("$ref", .string ("#/definitions/" ++ path))]

end Schema

open Schema

namespace TypeExpr

mutual

def toSchema : TypeExpr → Except LengthFault Json
  | .any _ => .ok (.object [])
  | .boolean _ => .ok (.object [("type", .string "boolean")])
  | .string _ length => do
    let bounds ← lengthFields "minLength" "maxLength" length
    .ok (.object (("type", .string "string") :: bounds))
  | .numeric _ name range =>
    let base := if isFractional name then "number" else "integer"
    .ok (.object (("type", .string base) :: numberFields range))
  | .literal _ value _ => .ok (.object [("const", literalValue value)])
  | .list _ element size => do
    let items ← toSchema element
    let bounds ← lengthFields "minItems" "maxItems" size
    .ok (.object ([("type", .string "array"), ("items", items)] ++ bounds))
  | .tuple _ elements => do
    let items ← toSchemas elements
    .ok (.object [("type", .string "array"), ("prefixItems", .array items), ("items", .bool false)])
  | .union _ members => do
    let alternatives ← toSchemas members
    .ok (.object [("anyOf", .array alternatives)])
  | .struct _ fields spreads => do
    let properties ← fieldSchemas fields
    let properties := Json.object (Fields.ofList properties)
    let others ← toSchemas spreads
    .ok (match spreads with
      | [] => structSchema properties (requiredNames fields)
      | _ :: _ => spreadSchema properties (requiredNames fields) others)
  | .enum _ variants => .ok (enumSchema variants)
  | .reference _ path _ => .ok (Schema.reference path)
  | .indexed _ base _ => toSchema base
  | .primitiveArray .. | .absent | .foreign .. => .ok (.object [])

/-- The schemas of types, in their order. -/
def toSchemas : List TypeExpr → Except LengthFault (List Json)
  | [] => .ok []
  | t :: ts => do
    let schema ← toSchema t
    let schemas ← toSchemas ts
    .ok (schema :: schemas)

/-- The schemas of fields with the names of the fields, in their order. -/
def fieldSchemas : List (Field TypeExpr) → Except LengthFault (List (String × Json))
  | [] => .ok []
  | ⟨name, type, _, _⟩ :: fields => do
    let schema ← toSchema type
    let schemas ← fieldSchemas fields
    .ok ((name, schema) :: schemas)

end

end TypeExpr

end McdocSchema
