import Mathlib.Algebra.Order.Field.Rat
import McdocSchema.Json

/-!
# Validation

Which data are valid against a schema. An object with keywords describes the data for which every keyword
holds, and each keyword has its own condition (`Holds`). A keyword that is not listed asserts nothing. An
environment says for every name in `definitions` which data it stands for.
-/

namespace McdocSchema

open Number (Binary64)

/-- The exact value of a finite number. -/
def Number.Binary64.toRat? : Binary64 → Option ℚ
  | .finite negative m e => some ((if negative then -1 else 1) * m * 2 ^ e)
  | _ => none

/-- The data that schemas speak of. Numbers are exact; it does not matter how they are written. -/
inductive Instance
  | null
  | bool (value : Bool)
  | number (value : ℚ)
  | string (value : String)
  | array (items : List Instance)
  | object (members : List (String × Instance))

/-- Whether a value has a type; an integer is any number without a fraction. -/
def Instance.HasType (v : Instance) (name : String) : Prop :=
  match name with
  | "null" => v = .null
  | "boolean" => ∃ b, v = .bool b
  | "integer" => ∃ n : ℤ, v = .number n
  | "number" => ∃ q, v = .number q
  | "string" => ∃ s, v = .string s
  | "array" => ∃ items, v = .array items
  | "object" => ∃ members, v = .object members
  | _ => False

namespace Json

/-- The exact value of a number. -/
def toRat? : Json → Option ℚ
  | .int n => some n
  | .real x => x.toRat?
  | _ => none

/-- The constant is written for the value. Constants are no arrays and no objects here. -/
def Is : Json → Instance → Prop
  | .null, .null => True
  | .bool b, .bool b' => b = b'
  | .string s, .string s' => s = s'
  | x, .number q => x.toRat? = some q
  | _, _ => False

theorem is_string_iff {s : String} {v : Instance} : (Json.string s).Is v ↔ v = .string s := by
  cases v with
  | string t =>
    show s = t ↔ _
    simp [eq_comm]
  | number q =>
    show (none : Option ℚ) = some q ↔ _
    simp
  | null | bool _ | array _ | object _ =>
    show False ↔ _
    simp

theorem is_bool_iff {b : Bool} {v : Instance} : (Json.bool b).Is v ↔ v = .bool b := by
  cases v with
  | bool c =>
    show b = c ↔ _
    simp [eq_comm]
  | number q =>
    show (none : Option ℚ) = some q ↔ _
    simp
  | null | string _ | array _ | object _ =>
    show False ↔ _
    simp

theorem is_null_iff {v : Instance} : Json.null.Is v ↔ v = .null := by
  cases v with
  | null =>
    show True ↔ _
    simp
  | number q =>
    show (none : Option ℚ) = some q ↔ _
    simp
  | bool _ | string _ | array _ | object _ =>
    show False ↔ _
    simp

theorem is_int_iff {n : Int} {v : Instance} : (Json.int n).Is v ↔ v = .number n := by
  cases v with
  | number q =>
    show some (n : ℚ) = some q ↔ _
    simp [eq_comm]
  | null | bool _ | string _ | array _ | object _ =>
    show False ↔ _
    simp

end Json

namespace Schema

/-! ## Keywords -/

/-- What is written behind a keyword: the value, the data that it describes if it is a schema, and the
data that its items or its fields describe if they are schemas. -/
structure Argument where
  value : Json
  schema : Instance → Prop
  items : List (Instance → Prop) := []
  fields : List (String × (Instance → Prop)) := []

/-- The names in the `properties` of a schema. -/
def propertyNames (siblings : List (String × Json)) : List String :=
  match siblings.lookup "properties" with
  | some (.object properties) => properties.map Prod.fst
  | _ => []

/-- The number of `prefixItems` of a schema. -/
def prefixLength (siblings : List (String × Json)) : Nat :=
  match siblings.lookup "prefixItems" with
  | some (.array items) => items.length
  | _ => 0

variable (env : String → Instance → Prop)

/-- The condition of a keyword. The keywords for items and members that no other keyword speaks of
look at their siblings. -/
def Holds (siblings : List (String × Json)) (keyword : String) (arg : Argument) (v : Instance) :
    Prop :=
  match keyword with
  | "type" => ∃ name, arg.value = .string name ∧ v.HasType name
  | "const" => arg.value.Is v
  | "enum" => ∃ options, arg.value = .array options ∧ ∃ x ∈ options, x.Is v
  | "$ref" => ∃ name, arg.value = .string ("#/definitions/" ++ name) ∧ env name v
  | "anyOf" => ∃ s ∈ arg.items, s v
  | "allOf" => ∀ s ∈ arg.items, s v
  | "prefixItems" => ∀ items, v = .array items → ∀ p ∈ arg.items.zip items, p.1 p.2
  | "items" => ∀ items, v = .array items → ∀ x ∈ items.drop (prefixLength siblings), arg.schema x
  | "properties" => ∀ members, v = .object members →
      ∀ p ∈ arg.fields, ∀ m ∈ members, m.1 = p.1 → p.2 m.2
  | "additionalProperties" => ∀ members, v = .object members →
      ∀ m ∈ members, m.1 ∉ propertyNames siblings → arg.schema m.2
  | "required" => ∀ members, v = .object members →
      ∃ names, arg.value = .strings names ∧ ∀ name ∈ names, ∃ m ∈ members, m.1 = name
  | "minimum" => ∀ q, v = .number q → ∃ b, arg.value.toRat? = some b ∧ b ≤ q
  | "maximum" => ∀ q, v = .number q → ∃ b, arg.value.toRat? = some b ∧ q ≤ b
  | "exclusiveMinimum" => ∀ q, v = .number q → ∃ b, arg.value.toRat? = some b ∧ b < q
  | "exclusiveMaximum" => ∀ q, v = .number q → ∃ b, arg.value.toRat? = some b ∧ q < b
  | "minLength" => ∀ s, v = .string s → ∃ n, arg.value = .int n ∧ n ≤ s.length
  | "maxLength" => ∀ s, v = .string s → ∃ n, arg.value = .int n ∧ s.length ≤ n
  | "minItems" => ∀ items, v = .array items → ∃ n, arg.value = .int n ∧ n ≤ items.length
  | "maxItems" => ∀ items, v = .array items → ∃ n, arg.value = .int n ∧ items.length ≤ n
  | _ => True

/-! ## Schemas -/

mutual

/-- A value as the argument of a keyword. Of values only truth values and objects are schemas. -/
def read : Json → Argument
  | .bool b => { value := .bool b, schema := fun _ => b = true }
  | .array items => { value := .array items, schema := fun _ => False, items := readItems items }
  | .object fields =>
    let args := readFields fields
    { value := .object fields
      schema := fun v => ∀ a ∈ args, Holds env fields a.1 a.2 v
      fields := args.map fun a => (a.1, a.2.schema) }
  | x => { value := x, schema := fun _ => False }

/-- The data that each of the schemas describes. -/
def readItems : List Json → List (Instance → Prop)
  | [] => []
  | x :: items => (read x).schema :: readItems items

/-- The keywords with their arguments. -/
def readFields : List (String × Json) → List (String × Argument)
  | [] => []
  | (key, x) :: fields => (key, read x) :: readFields fields

end

/-- A value is valid against a schema. -/
def Validates (schema : Json) (v : Instance) : Prop :=
  (read env schema).schema v

variable {env} {siblings : List (String × Json)} {v : Instance}

theorem readItems_eq_map (items : List Json) : readItems env items = items.map (Validates env) := by
  induction items with
  | nil => rfl
  | cons x items ih =>
    rw [readItems, ih]
    rfl

theorem readFields_eq_map (fields : List (String × Json)) :
    readFields env fields = fields.map fun f => (f.1, read env f.2) := by
  induction fields with
  | nil => rfl
  | cons f fields ih =>
    rw [readFields, ih]
    rfl

@[simp] theorem read_value (x : Json) : (read env x).value = x := by
  cases x <;> rfl

theorem validates_bool_iff {b : Bool} : Validates env (.bool b) v ↔ b = true := Iff.rfl

variable (env siblings) in
/-- All of the keywords hold. -/
def AllHold (fields : List (String × Json)) (v : Instance) : Prop :=
  ∀ f ∈ fields, Holds env siblings f.1 (read env f.2) v

@[simp] theorem allHold_nil : AllHold env siblings [] v := by
  intro f hf
  cases hf

@[simp] theorem allHold_cons {f : String × Json} {fields : List (String × Json)} :
    AllHold env siblings (f :: fields) v ↔
      Holds env siblings f.1 (read env f.2) v ∧ AllHold env siblings fields v :=
  List.forall_mem_cons

@[simp] theorem allHold_append {fields fields' : List (String × Json)} :
    AllHold env siblings (fields ++ fields') v ↔
      AllHold env siblings fields v ∧ AllHold env siblings fields' v :=
  List.forall_mem_append

theorem validates_object_iff {fields : List (String × Json)} :
    Validates env (.object fields) v ↔ AllHold env fields fields v := by
  have hread : Validates env (.object fields) v =
      ∀ a ∈ readFields env fields, Holds env fields a.1 a.2 v := rfl
  rw [hread, readFields_eq_map]
  exact List.forall_mem_map

/-! ## The keywords on their arguments

Each condition is read off by unfolding, which `show` does at once: the equations of `Holds` would be
made for all of its keywords first. -/

theorem holds_type_iff {name : String} :
    Holds env siblings "type" (read env (.string name)) v ↔ v.HasType name := by
  show (∃ n, Json.string name = .string n ∧ v.HasType n) ↔ _
  simp

theorem holds_const_iff {x : Json} :
    Holds env siblings "const" (read env x) v ↔ x.Is v := by
  show (read env x).value.Is v ↔ _
  rw [read_value]

theorem holds_enum_iff {options : List Json} :
    Holds env siblings "enum" (read env (.array options)) v ↔ ∃ x ∈ options, x.Is v := by
  show (∃ os, Json.array options = .array os ∧ ∃ x ∈ os, x.Is v) ↔ _
  simp

theorem holds_ref_iff {name : String} :
    Holds env siblings "$ref" (read env (.string ("#/definitions/" ++ name))) v ↔ env name v := by
  show (∃ n, Json.string ("#/definitions/" ++ name) = .string ("#/definitions/" ++ n) ∧ env n v) ↔ _
  simp

theorem holds_anyOf_iff {schemas : List Json} :
    Holds env siblings "anyOf" (read env (.array schemas)) v ↔
      ∃ s ∈ schemas, Validates env s v := by
  show (∃ P ∈ readItems env schemas, P v) ↔ _
  simp [readItems_eq_map]

theorem holds_allOf_iff {schemas : List Json} :
    Holds env siblings "allOf" (read env (.array schemas)) v ↔
      ∀ s ∈ schemas, Validates env s v := by
  show (∀ P ∈ readItems env schemas, P v) ↔ _
  rw [readItems_eq_map, List.forall_mem_map]

theorem holds_prefixItems_iff {schemas : List Json} :
    Holds env siblings "prefixItems" (read env (.array schemas)) v ↔ ∀ items, v = .array items →
      ∀ p ∈ (schemas.map (Validates env)).zip items, p.1 p.2 := by
  rw [← readItems_eq_map]
  rfl

theorem holds_items_iff {schema : Json} :
    Holds env siblings "items" (read env schema) v ↔ ∀ items, v = .array items →
      ∀ x ∈ items.drop (prefixLength siblings), Validates env schema x :=
  Iff.rfl

theorem holds_properties_iff {properties : List (String × Json)} :
    Holds env siblings "properties" (read env (.object properties)) v ↔ ∀ members,
      v = .object members → ∀ p ∈ properties, ∀ m ∈ members, m.1 = p.1 → Validates env p.2 m.2 := by
  have hfields : (read env (.object properties)).fields =
      properties.map fun p => (p.1, Validates env p.2) := by
    simp only [read, readFields_eq_map, List.map_map]
    rfl
  show (∀ members, v = .object members → ∀ p ∈ (read env (.object properties)).fields,
    ∀ m ∈ members, m.1 = p.1 → p.2 m.2) ↔ _
  simp only [hfields, List.forall_mem_map]

theorem holds_additionalProperties_iff {schema : Json} :
    Holds env siblings "additionalProperties" (read env schema) v ↔ ∀ members,
      v = .object members → ∀ m ∈ members, m.1 ∉ propertyNames siblings →
        Validates env schema m.2 :=
  Iff.rfl

theorem strings_inj {names names' : List String} :
    Json.strings names = .strings names' ↔ names = names' := by
  rw [Json.strings, Json.strings, Json.array.injEq]
  exact List.map_inj_right fun _ _ => Json.string.inj

theorem holds_required_iff {names : List String} :
    Holds env siblings "required" (read env (.strings names)) v ↔ ∀ members,
      v = .object members → ∀ name ∈ names, ∃ m ∈ members, m.1 = name := by
  show (∀ members, v = .object members → ∃ ns, Json.strings names = .strings ns ∧
    ∀ name ∈ ns, ∃ m ∈ members, m.1 = name) ↔ _
  simp [strings_inj]

section Bounds

variable {x : Json} {b q : ℚ}

theorem holds_minimum_iff (h : x.toRat? = some b) :
    Holds env siblings "minimum" (read env x) (.number q) ↔ b ≤ q := by
  show (∀ r, Instance.number q = .number r → ∃ b, (read env x).value.toRat? = some b ∧ b ≤ r) ↔ _
  simp [h]

theorem holds_maximum_iff (h : x.toRat? = some b) :
    Holds env siblings "maximum" (read env x) (.number q) ↔ q ≤ b := by
  show (∀ r, Instance.number q = .number r → ∃ b, (read env x).value.toRat? = some b ∧ r ≤ b) ↔ _
  simp [h]

theorem holds_exclusiveMinimum_iff (h : x.toRat? = some b) :
    Holds env siblings "exclusiveMinimum" (read env x) (.number q) ↔ b < q := by
  show (∀ r, Instance.number q = .number r → ∃ b, (read env x).value.toRat? = some b ∧ b < r) ↔ _
  simp [h]

theorem holds_exclusiveMaximum_iff (h : x.toRat? = some b) :
    Holds env siblings "exclusiveMaximum" (read env x) (.number q) ↔ q < b := by
  show (∀ r, Instance.number q = .number r → ∃ b, (read env x).value.toRat? = some b ∧ r < b) ↔ _
  simp [h]

theorem holds_minLength_iff {k : ℤ} {s : String} :
    Holds env siblings "minLength" (read env (.int k)) (.string s) ↔ k ≤ s.length := by
  show (∀ t, Instance.string s = .string t → ∃ n, Json.int k = .int n ∧ n ≤ t.length) ↔ _
  simp

theorem holds_maxLength_iff {k : ℤ} {s : String} :
    Holds env siblings "maxLength" (read env (.int k)) (.string s) ↔ s.length ≤ k := by
  show (∀ t, Instance.string s = .string t → ∃ n, Json.int k = .int n ∧ t.length ≤ n) ↔ _
  simp

theorem holds_minItems_iff {k : ℤ} {items : List Instance} :
    Holds env siblings "minItems" (read env (.int k)) (.array items) ↔ k ≤ items.length := by
  show (∀ xs, Instance.array items = .array xs → ∃ n, Json.int k = .int n ∧ n ≤ xs.length) ↔ _
  simp

theorem holds_maxItems_iff {k : ℤ} {items : List Instance} :
    Holds env siblings "maxItems" (read env (.int k)) (.array items) ↔ items.length ≤ k := by
  show (∀ xs, Instance.array items = .array xs → ∃ n, Json.int k = .int n ∧ xs.length ≤ n) ↔ _
  simp

end Bounds

end Schema

end McdocSchema
