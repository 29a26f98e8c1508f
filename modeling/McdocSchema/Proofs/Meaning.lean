import McdocSchema.Proofs.Denotation

/-!
# Schemas preserve the meaning of types

For every form of type, the keywords of its schema together say what the form means. The schema of a
type with types inside is exact if theirs are, and so by induction the schema of every type of the
exact fragment: the data that are valid against it are those that the type stands for.
-/

namespace McdocSchema.Schema

open Number (Binary64)
open TypeExpr

variable {env : String → Instance → Prop} {siblings : List (String × Json)} {v : Instance}

/-! ## Bounds -/

variable (env) in
theorem exists_boundField {bound : Option Binary64} {exclusive : Bool} (key : String)
    (h : isExactBound bound exclusive = true) :
    ∃ fields, boundField key bound = .ok fields ∧ (∀ f ∈ fields, f.1 = key) ∧
      ∀ (siblings : List (String × Json)) (v : Instance) (R S : ℚ → Prop),
        (∀ k : ℤ, Holds env siblings key (read env (.int k)) v ↔ R k) →
        (AllHold env siblings fields v ↔
          ∀ b ∈ bound, ∀ x ∈ b.toRat?, if exclusive then S x else R x) := by
  cases bound with
  | none =>
    refine ⟨[], rfl, by simp, ?_⟩
    intro siblings v R S _
    simp
  | some b =>
    rw [isExactBound, Option.all_some, Bool.and_eq_true] at h
    obtain ⟨n, hn, hb⟩ := Binary64.exists_int_of_isIntegral h.1
    have hinclusive : exclusive = false := by simpa using h.2
    refine ⟨[(key, .int n)], ?_, by simp, ?_⟩
    · rw [boundField, hb]
      rfl
    · intro siblings v R S hR
      simp [hR, hn, hinclusive]

variable (env) in
/-- The bounds on a length become keywords that say what the range says. -/
theorem exists_lengthFields {range : Option NumberRange} (minKey maxKey : String)
    (h : isExactLength range = true) :
    ∃ fields, lengthFields minKey maxKey range = .ok fields ∧
      (∀ f ∈ fields, f.1 = minKey ∨ f.1 = maxKey) ∧
      ∀ (siblings : List (String × Json)) (v : Instance) (n : ℕ),
        (∀ k : ℤ, Holds env siblings minKey (read env (.int k)) v ↔ k ≤ n) →
        (∀ k : ℤ, Holds env siblings maxKey (read env (.int k)) v ↔ n ≤ k) →
        (AllHold env siblings fields v ↔ InRange range n) := by
  cases range with
  | none =>
    refine ⟨[], rfl, by simp, ?_⟩
    intro siblings v n _ _
    simp [InRange]
  | some r =>
    rw [isExactLength, Option.all_some, Bool.and_eq_true] at h
    obtain ⟨low, hlow, hlowKey, hmin⟩ := exists_boundField env minKey h.1
    obtain ⟨high, hhigh, hhighKey, hmax⟩ := exists_boundField env maxKey h.2
    refine ⟨low ++ high, ?_, ?_, ?_⟩
    · rw [lengthFields, hlow, hhigh]
      rfl
    · intro f hf
      rcases List.mem_append.1 hf with hf | hf
      · exact .inl (hlowKey f hf)
      · exact .inr (hhighKey f hf)
    · intro siblings v n hl hu
      have hlow' := hmin siblings v (· ≤ (n : ℚ)) (· < (n : ℚ)) (by exact_mod_cast hl)
      have hhigh' := hmax siblings v ((n : ℚ) ≤ ·) ((n : ℚ) < ·) (by exact_mod_cast hu)
      rw [allHold_append, hlow', hhigh']
      simp [InRange, NumberRange.Admits]

/-- The field for a bound on a number says what the bound says. -/
theorem allHold_numberField {bound : Option Binary64} {exclusive : Bool} {key exclusiveKey : String}
    {R S : ℚ → Prop} (h : bound.all Binary64.isFinite = true)
    (hR : ∀ x q, x.toRat? = some q → (Holds env siblings key (read env (.real x)) v ↔ R q))
    (hS : ∀ x q, x.toRat? = some q →
      (Holds env siblings exclusiveKey (read env (.real x)) v ↔ S q)) :
    AllHold env siblings (numberField key exclusiveKey exclusive bound) v ↔
      ∀ b ∈ bound, ∀ x ∈ b.toRat?, if exclusive then S x else R x := by
  cases bound with
  | none => simp [numberField]
  | some b =>
    rw [Option.all_some] at h
    obtain ⟨q, hq⟩ := Binary64.exists_toRat?_of_isFinite h
    cases exclusive
    · simp [numberField, hR b q hq, hq]
    · simp [numberField, hS b q hq, hq]

theorem allHold_numberFields {range : Option NumberRange} (h : isExactRange range = true) {q : ℚ} :
    AllHold env siblings (numberFields range) (.number q) ↔ InRange range q := by
  cases range with
  | none => simp [numberFields, InRange]
  | some r =>
    rw [isExactRange, Option.all_some, Bool.and_eq_true] at h
    rw [numberFields, allHold_append,
      allHold_numberField (R := (· ≤ q)) (S := (· < q)) h.1 ?_ ?_,
      allHold_numberField (R := (q ≤ ·)) (S := (q < ·)) h.2 ?_ ?_]
    · simp [InRange, NumberRange.Admits]
    · exact fun x b hb => holds_maximum_iff hb
    · exact fun x b hb => holds_exclusiveMaximum_iff hb
    · exact fun x b hb => holds_minimum_iff hb
    · exact fun x b hb => holds_exclusiveMinimum_iff hb

/-! ## Forms without types inside -/

theorem validates_boolean_iff :
    Validates env (.object [("type", .string "boolean")]) v ↔ ∃ b, v = .bool b := by
  rw [validates_object_iff, allHold_cons, holds_type_iff, and_iff_left allHold_nil]
  rfl

variable (env) in
theorem exists_stringSchema {length : Option NumberRange} (pos : Position)
    (h : isExactLength length = true) :
    ∃ schema, toSchema (.string pos length) = .ok schema ∧
      Validates env schema = Denotes env (.string pos length) := by
  obtain ⟨bounds, hb, -, hmeans⟩ := exists_lengthFields env "minLength" "maxLength" h
  refine ⟨.object (("type", .string "string") :: bounds), ?_, ?_⟩
  · rw [toSchema, hb]
    rfl
  · funext v
    rw [eq_iff_iff, validates_object_iff, allHold_cons, holds_type_iff, Denotes]
    constructor
    · rintro ⟨⟨s, rfl⟩, hall⟩
      exact ⟨s, rfl, (hmeans _ _ _ (fun _ => holds_minLength_iff) fun _ => holds_maxLength_iff).1 hall⟩
    · rintro ⟨s, rfl, hr⟩
      exact ⟨⟨s, rfl⟩, (hmeans _ _ _ (fun _ => holds_minLength_iff) fun _ => holds_maxLength_iff).2 hr⟩

theorem validates_numeric_iff {name : String} {range : Option NumberRange}
    (h : isExactRange range = true) :
    Validates env (.object (("type", .string (if isFractional name then "number" else "integer"))
      :: numberFields range)) v ↔ IsNumeric name range v := by
  have htype : v.HasType (if isFractional name then "number" else "integer") ↔
      ∃ q : ℚ, v = .number q ∧ (name ∉ ["float", "double"] → ∃ n : ℤ, q = n) := by
    by_cases hf : isFractional name = true
    · have hmem : name ∈ ["float", "double"] := by simpa [isFractional] using hf
      simp [hf, hmem, Instance.HasType]
    · have hmem : name ∉ ["float", "double"] := by simpa [isFractional] using hf
      simp [hf, hmem, Instance.HasType]
  rw [validates_object_iff, allHold_cons, holds_type_iff, htype]
  constructor
  · rintro ⟨⟨q, rfl, hint⟩, hall⟩
    exact ⟨q, rfl, hint, (allHold_numberFields h).1 hall⟩
  · rintro ⟨q, rfl, hint, hr⟩
    exact ⟨⟨q, rfl, hint⟩, (allHold_numberFields h).2 hr⟩

theorem validates_literal_iff {pos : Position} {value : Literal} {name : Option String} :
    Validates env (.object [("const", literalValue value)]) v ↔
      Denotes env (.literal pos value name) v := by
  rw [validates_object_iff, allHold_cons, holds_const_iff, and_iff_left allHold_nil]
  cases value with
  | text s => exact Json.is_string_iff
  | flag b => exact Json.is_bool_iff
  | null => exact Json.is_null_iff

theorem validates_enumSchema_iff {variants : List Variant} :
    Validates env (enumSchema variants) v ↔ IsVariant variants v := by
  rw [enumSchema, validates_object_iff, allHold_cons, holds_enum_iff, and_iff_left allHold_nil,
    IsVariant]
  by_cases hall : ∀ x ∈ variants, x.value.isSome
  · have hlen : (variants.filterMap Variant.value).length = variants.length :=
      List.filterMap_length_eq_length.2 hall
    rw [if_pos hlen, if_pos hall]
    constructor
    · rintro ⟨x, hx, hv⟩
      obtain ⟨n, hn, rfl⟩ := List.mem_map.1 hx
      obtain ⟨y, hy, hyn⟩ := List.mem_filterMap.1 hn
      exact ⟨y, hy, n, hyn, Json.is_int_iff.1 hv⟩
    · rintro ⟨y, hy, n, hyn, hv⟩
      have hn : n ∈ variants.filterMap Variant.value := List.mem_filterMap.2 ⟨y, hy, hyn⟩
      exact ⟨.int n, List.mem_map_of_mem hn, Json.is_int_iff.2 hv⟩
  · have hlen : (variants.filterMap Variant.value).length ≠ variants.length :=
      fun h => hall (List.filterMap_length_eq_length.1 h)
    rw [if_neg hlen, if_neg hall]
    simp only [List.mem_map, exists_exists_and_eq_and, Json.is_string_iff]

theorem validates_reference_iff {path : String} :
    Validates env (reference path) v ↔ env path v := by
  rw [reference, validates_object_iff, allHold_cons, holds_ref_iff, and_iff_left allHold_nil]

/-! ## Lists and unions -/

theorem lookup_prefixItems {bounds : List (String × Json)} {items : Json}
    (h : ∀ f ∈ bounds, f.1 = "minItems" ∨ f.1 = "maxItems") :
    List.lookup "prefixItems" ([("type", .string "array"), ("items", items)] ++ bounds) = none := by
  have hbounds : List.lookup "prefixItems" bounds = none := by
    rw [List.lookup_eq_none_iff]
    intro f hf
    rcases h f hf with hk | hk <;> rw [hk] <;> decide
  exact hbounds

theorem exists_listSchema {element : TypeExpr} {size : Option NumberRange} {items : Json}
    (pos : Position) (h : isExactLength size = true) (hs : toSchema element = .ok items)
    (hmeans : Validates env items = Denotes env element) :
    ∃ schema, toSchema (.list pos element size) = .ok schema ∧
      Validates env schema = Denotes env (.list pos element size) := by
  obtain ⟨bounds, hb, hkeys, hbounds⟩ := exists_lengthFields env "minItems" "maxItems" h
  refine ⟨.object ([("type", .string "array"), ("items", items)] ++ bounds), ?_, ?_⟩
  · rw [toSchema, hs, hb]
    rfl
  · funext v
    rw [eq_iff_iff, validates_object_iff, allHold_append, allHold_cons, allHold_cons, holds_type_iff,
      holds_items_iff, prefixLength, lookup_prefixItems hkeys, hmeans, and_iff_left allHold_nil,
      Denotes]
    constructor
    · rintro ⟨⟨⟨xs, rfl⟩, hitems⟩, hall⟩
      exact ⟨xs, rfl, hitems xs rfl,
        (hbounds _ _ _ (fun _ => holds_minItems_iff) fun _ => holds_maxItems_iff).1 hall⟩
    · rintro ⟨xs, rfl, hitems, hr⟩
      refine ⟨⟨⟨xs, rfl⟩, ?_⟩,
        (hbounds _ _ _ (fun _ => holds_minItems_iff) fun _ => holds_maxItems_iff).2 hr⟩
      intro items hi
      cases hi
      exact hitems

theorem validates_union {pos : Position} {members : List TypeExpr} {schemas : List Json}
    (h : schemas.map (Validates env) = members.map (Denotes env)) :
    Validates env (.object [("anyOf", .array schemas)]) = Denotes env (.union pos members) := by
  funext v
  rw [eq_iff_iff, validates_object_iff, allHold_cons, holds_anyOf_iff, and_iff_left allHold_nil,
    Denotes, denotations_eq_map, ← h]
  simp

/-! ## Structs -/

theorem set_of_not_mem {α : Type} {key : String} {value : α} {fields : Fields α}
    (h : key ∉ fields.map Prod.fst) : Fields.set key value fields = fields ++ [(key, value)] := by
  induction fields with
  | nil => rfl
  | cons f fields ih =>
    rw [List.map_cons, List.mem_cons, not_or] at h
    have hne : (f.1 == key) = false := by simpa using Ne.symm h.1
    rw [Fields.set, hne, ih h.2]
    rfl

/-- Fields with different keys are set in their order. -/
theorem foldl_set_of_nodup {α : Type} {pairs found : Fields α}
    (h : ((found ++ pairs).map Prod.fst).Nodup) :
    pairs.foldl (fun fields p => Fields.set p.1 p.2 fields) found = found ++ pairs := by
  induction pairs generalizing found with
  | nil => simp
  | cons p pairs ih =>
    have hsplit : found ++ p :: pairs = (found ++ [p]) ++ pairs := by simp
    have hnew : p.1 ∉ found.map Prod.fst := by
      rw [List.map_append, List.map_cons] at h
      exact fun hmem => (List.nodup_append.1 h).2.2 _ hmem _ List.mem_cons_self rfl
    rw [hsplit] at h
    rw [List.foldl_cons, set_of_not_mem hnew, ih h, hsplit]

theorem ofList_of_nodup {α : Type} {pairs : Fields α} (h : (pairs.map Prod.fst).Nodup) :
    Fields.ofList pairs = pairs :=
  @foldl_set_of_nodup α pairs [] h

theorem allHold_requiredField {names : List String} :
    AllHold env siblings (requiredField names) v ↔ ∀ members, v = .object members →
      ∀ name ∈ names, ∃ m ∈ members, m.1 = name := by
  cases names with
  | nil => simp [requiredField]
  | cons name names =>
    rw [requiredField, if_neg (by simp), allHold_cons, holds_required_iff,
      and_iff_left allHold_nil]

theorem forall_mem_requiredNames {fields : List (Field TypeExpr)} {P : String → Prop} :
    (∀ name ∈ requiredNames fields, P name) ↔ ∀ f ∈ fields, f.optional = false → P f.name := by
  rw [requiredNames, List.forall_mem_map]
  simp

section Records

variable {meaning : TypeExpr → Instance → Prop} {fields : List (Field TypeExpr)}
  {properties : List (String × Json)}

theorem isRecord_map_iff :
    IsRecord (fields.map fun f => { f with type := meaning f.type }) v ↔
      ∃ members, v = .object members ∧
        (∀ m ∈ members, m.1 ∈ fields.map Field.name) ∧
        (∀ f ∈ fields, f.optional = false → ∃ m ∈ members, m.1 = f.name) ∧
        ∀ f ∈ fields, ∀ m ∈ members, m.1 = f.name → meaning f.type m.2 := by
  rw [IsRecord]
  simp only [List.forall_mem_map]
  simp only [List.mem_map, exists_exists_and_eq_and]

theorem names_of_meanings (h : properties.map (fun p => (p.1, Validates env p.2)) =
    fields.map fun f => (f.name, meaning f.type)) :
    properties.map Prod.fst = fields.map Field.name := by
  have hfst := congrArg (List.map Prod.fst) h
  rwa [List.map_map, List.map_map] at hfst

/-- Fields and properties with the same meanings are fitted by the same members. -/
theorem fit_of_meanings (h : properties.map (fun p => (p.1, Validates env p.2)) =
    fields.map fun f => (f.name, meaning f.type)) (members : List (String × Instance)) :
    (∀ p ∈ properties, ∀ m ∈ members, m.1 = p.1 → Validates env p.2 m.2) ↔
      ∀ f ∈ fields, ∀ m ∈ members, m.1 = f.name → meaning f.type m.2 := by
  let IsFitted : String × (Instance → Prop) → Prop := fun q => ∀ m ∈ members, m.1 = q.1 → q.2 m.2
  have hmap : (∀ q ∈ properties.map fun p => (p.1, Validates env p.2), IsFitted q) ↔
      ∀ q ∈ fields.map fun f => (f.name, meaning f.type), IsFitted q := by
    rw [h]
  rwa [List.forall_mem_map, List.forall_mem_map] at hmap

theorem validates_structSchema (h : properties.map (fun p => (p.1, Validates env p.2)) =
    fields.map fun f => (f.name, meaning f.type)) :
    Validates env (structSchema (.object properties) (requiredNames fields)) =
      IsRecord (fields.map fun f => { f with type := meaning f.type }) := by
  have hdeclared : ∀ rest, propertyNames (("type", .string "object")
      :: ("properties", .object properties) :: rest) = fields.map Field.name :=
    fun _ => names_of_meanings h
  funext v
  rw [eq_iff_iff, structSchema, validates_object_iff, allHold_append, allHold_requiredField,
    allHold_cons, allHold_cons, allHold_cons, holds_type_iff, holds_properties_iff,
    holds_additionalProperties_iff, and_iff_left allHold_nil, isRecord_map_iff]
  simp only [forall_mem_requiredNames, fit_of_meanings h, List.cons_append, hdeclared,
    validates_bool_iff, Bool.false_eq_true, imp_false, not_not]
  constructor
  · rintro ⟨⟨⟨members, rfl⟩, hprops, hkeys⟩, hreq⟩
    exact ⟨members, rfl, hkeys _ rfl, hreq _ rfl, hprops _ rfl⟩
  · rintro ⟨members, rfl, hkeys, hreq, hprops⟩
    refine ⟨⟨⟨members, rfl⟩, ?_, ?_⟩, ?_⟩
    · rintro _ ⟨⟩
      exact hprops
    · rintro _ ⟨⟩
      exact hkeys
    · rintro _ ⟨⟩
      exact hreq

theorem denotes_struct (pos : Position) : Denotes env (.struct pos fields []) =
    IsRecord (fields.map fun f => { f with type := Denotes env f.type }) := by
  funext v
  rw [Denotes, spreadFields, List.append_nil, recordFields_eq_map]

end Records

/-! ## All types of the fragment -/

variable (env)

mutual

/-- A type of the fragment has a schema, and the two mean the same. -/
theorem exists_schema : ∀ t : TypeExpr, isExact t = true →
    ∃ schema, toSchema t = .ok schema ∧ Validates env schema = Denotes env t
  | .any _, _ => ⟨.object [], rfl, funext fun _ => propext (by simp [validates_object_iff, Denotes])⟩
  | .boolean _, _ => ⟨_, rfl, funext fun _ => propext validates_boolean_iff⟩
  | .string pos _, h => exists_stringSchema env pos (by rwa [isExact] at h)
  | .numeric _ _ _, h =>
    ⟨_, rfl, funext fun _ => propext (validates_numeric_iff (by rwa [isExact] at h))⟩
  | .literal _ _ _, _ => ⟨_, rfl, funext fun _ => propext validates_literal_iff⟩
  | .enum _ _, _ => ⟨_, rfl, funext fun _ => propext validates_enumSchema_iff⟩
  | .reference _ _ _, _ => ⟨_, rfl, funext fun _ => propext validates_reference_iff⟩
  | .list pos element size, h => by
    rw [isExact, Bool.and_eq_true] at h
    obtain ⟨items, hs, hmeans⟩ := exists_schema element h.1
    exact exists_listSchema pos h.2 hs hmeans
  | .union pos members, h => by
    rw [isExact] at h
    obtain ⟨schemas, hs, hmeans⟩ := exists_schemas members h
    refine ⟨.object [("anyOf", .array schemas)], ?_, validates_union hmeans⟩
    rw [toSchema, hs]
    rfl
  | .struct pos fields [], h => by
    rw [isExact, Bool.and_eq_true, decide_eq_true_iff] at h
    obtain ⟨properties, hs, hmeans⟩ := exists_fieldSchemas fields h.1
    refine ⟨structSchema (.object properties) (requiredNames fields), ?_,
      (validates_structSchema hmeans).trans (denotes_struct pos).symm⟩
    have hnodup : (properties.map Prod.fst).Nodup := by
      rw [names_of_meanings hmeans]
      exact h.2
    rw [toSchema, hs, toSchemas]
    show Except.ok (structSchema (.object (Fields.ofList properties)) _) = _
    rw [ofList_of_nodup hnodup]
  | .struct _ _ (_ :: _), h | .primitiveArray .., h | .tuple .., h | .indexed .., h | .absent, h
  | .foreign .., h => by simp [isExact] at h

theorem exists_schemas : ∀ types : List TypeExpr, areExact types = true →
    ∃ schemas, toSchemas types = .ok schemas ∧
      schemas.map (Validates env) = types.map (Denotes env)
  | [], _ => ⟨[], rfl, rfl⟩
  | t :: types, h => by
    rw [areExact, Bool.and_eq_true] at h
    obtain ⟨schema, hs, hmeans⟩ := exists_schema t h.1
    obtain ⟨schemas, hs', hmeans'⟩ := exists_schemas types h.2
    refine ⟨schema :: schemas, ?_, ?_⟩
    · rw [toSchemas, hs, hs']
      rfl
    · rw [List.map_cons, List.map_cons, hmeans, hmeans']

theorem exists_fieldSchemas : ∀ fields : List (Field TypeExpr), fieldsAreExact fields = true →
    ∃ properties, fieldSchemas fields = .ok properties ∧
      properties.map (fun p => (p.1, Validates env p.2)) =
        fields.map fun f => (f.name, Denotes env f.type)
  | [], _ => ⟨[], rfl, rfl⟩
  | ⟨name, type, optional, doc⟩ :: fields, h => by
    rw [fieldsAreExact, Bool.and_eq_true] at h
    obtain ⟨schema, hs, hmeans⟩ := exists_schema type h.1
    obtain ⟨properties, hs', hmeans'⟩ := exists_fieldSchemas fields h.2
    refine ⟨(name, schema) :: properties, ?_, ?_⟩
    · rw [fieldSchemas, hs, hs']
      rfl
    · rw [List.map_cons, List.map_cons, hmeans, hmeans']

end

/-- **Schemas preserve meaning.** Every type of the exact fragment has a schema, and whatever the
references stand for, the data that are valid against it are those that the type stands for. -/
theorem validates_toSchema_iff_denotes {t : TypeExpr} (h : t.isExact = true) :
    ∃ schema, t.toSchema = .ok schema ∧ ∀ v, Validates env schema v ↔ t.Denotes env v := by
  obtain ⟨schema, hs, hmeans⟩ := exists_schema env t h
  refine ⟨schema, hs, ?_⟩
  intro v
  rw [hmeans]

/-- A struct with an optional field: lists of one or two short strings or references, and numbers
below a bound, an enumeration or a constant. -/
theorem validates_nested_struct_iff :
    let length : NumberRange := { min := some 1, max := some 2 }
    let below : NumberRange := { max := some (.finite false 1 (-1)), maxExclusive := true }
    let t : TypeExpr := .struct .start [
      { name := "names", type := .list .start (.union .start [.string .start (some length),
          .reference .start "a::b" []]) (some length) },
      { name := "size", type := .union .start [.numeric .start "double" (some below),
          .enum .start [{ name := "big", value := some 3 }], .literal .start (.flag true) none],
        optional := true }] []
    t.isExact = true ∧ ∃ schema, t.toSchema = .ok schema ∧
      ∀ v, Validates (fun path v => v = .string path) schema v ↔
        t.Denotes (fun path v => v = .string path) v := by
  intro length below t
  have h : t.isExact = true := by decide
  exact ⟨h, validates_toSchema_iff_denotes _ h⟩

/-! ## Data that fit -/

/-- A value fits a type if the type has a schema and the value is valid against it. -/
def Fits (t : TypeExpr) (v : Instance) : Prop :=
  ∃ schema, t.toSchema = .ok schema ∧ Validates env schema v

variable {env}

theorem validates_eq_fits {t : TypeExpr} {schema : Json} (h : t.toSchema = .ok schema) :
    Validates env schema = Fits env t := by
  funext v
  simp [Fits, h]

end McdocSchema.Schema
