import McdocSchema.Proofs.GeneratedJson

/-!
# Fields that are declared again

A struct may declare a field more than once, and then its last declaration is the one that counts. The list
of required names grows with every declaration that is not optional, also if another declaration of the
name comes behind it. So the list is right just if no such declaration does, for structs with and without
spreads (`TypeExpr.toSchema_struct_declares`).
-/

namespace McdocSchema

/-! ## Last declarations -/

namespace Field

variable {α : Type} {f g : Field α} {fields : List (Field α)} {name : String}

/-- The last declaration of a name. -/
def last? (fields : List (Field α)) (name : String) : Option (Field α) :=
  fields.reverse.find? fun f => f.name == name

/-- The names are those of the fields whose last declaration is not optional, and each is there once. -/
def AreRequired (fields : List (Field α)) (names : List String) : Prop :=
  names.Nodup ∧ ∀ name, name ∈ names ↔ ∃ f ∈ last? fields name, f.optional = false

/-- No declaration that is not optional has another one of its name behind it. -/
def MandatoryAreLast (fields : List (Field α)) : Prop :=
  fields.Pairwise fun f g => f.optional = false → f.name ≠ g.name

instance : Decidable (MandatoryAreLast fields) :=
  inferInstanceAs (Decidable (fields.Pairwise fun f g => f.optional = false → f.name ≠ g.name))

theorem last?_cons (f : Field α) (fields : List (Field α)) (name : String) :
    last? (f :: fields) name = (last? fields name).or (if f.name = name then some f else none) := by
  rw [last?, List.reverse_cons, List.find?_append, ← last?]
  by_cases h : f.name = name
  · simp [h]
  · simp [h]

theorem mem_of_last? (h : last? fields name = some f) : f ∈ fields ∧ f.name = name := by
  have hmem := List.mem_of_find?_eq_some h
  have hname := List.find?_some h
  exact ⟨List.mem_reverse.1 hmem, eq_of_beq hname⟩

theorem exists_last?_of_mem (h : f ∈ fields) : ∃ g, last? fields f.name = some g := by
  rw [← Option.isSome_iff_exists, last?, List.find?_isSome]
  exact ⟨f, List.mem_reverse.2 h, beq_self_eq_true f.name⟩

/-- A declaration in front of another one of its name does not matter. -/
theorem last?_cons_of_mem (h : g ∈ fields) : last? (f :: fields) g.name = last? fields g.name := by
  obtain ⟨l, hl⟩ := exists_last?_of_mem h
  rw [last?_cons, hl, Option.some_or]

theorem last?_cons_of_ne (h : f.name ≠ name) : last? (f :: fields) name = last? fields name := by
  rw [last?_cons, if_neg h, Option.or_none]

theorem last?_cons_self (h : ∀ g ∈ fields, f.name ≠ g.name) : last? (f :: fields) f.name = some f := by
  have hnone : last? fields f.name = none := by
    cases hlast : last? fields f.name with
    | none => rfl
    | some g =>
      obtain ⟨hmem, hname⟩ := mem_of_last? hlast
      exact absurd hname.symm (h g hmem)
  rw [last?_cons, hnone, if_pos rfl, Option.none_or]

end Field

namespace Schema

variable {f : Field TypeExpr} {fields : List (Field TypeExpr)} {name : String}

/-! ## Required names -/

theorem mem_requiredNames : name ∈ requiredNames fields ↔
    ∃ f ∈ fields, f.optional = false ∧ f.name = name := by
  simp [requiredNames, and_assoc]

theorem requiredNames_cons_optional (h : f.optional = true) :
    requiredNames (f :: fields) = requiredNames fields := by
  simp [requiredNames, h]

theorem requiredNames_cons_mandatory (h : f.optional = false) :
    requiredNames (f :: fields) = f.name :: requiredNames fields := by
  simp [requiredNames, h]

/-- A name is listed as often as it is declared without being optional. -/
theorem count_requiredNames (fields : List (Field TypeExpr)) (name : String) :
    (requiredNames fields).count name = fields.countP fun f => f.name == name && !f.optional := by
  rw [requiredNames, List.count, List.countP_map, List.countP_filter]
  rfl

/-- In front of other declarations, an optional one is not required and leaves what is. -/
theorem areRequired_cons_optional (h : f.optional = true) :
    Field.AreRequired (f :: fields) (requiredNames (f :: fields)) ↔
      Field.AreRequired fields (requiredNames fields) := by
  have hlast : ∀ name, (∃ g ∈ Field.last? (f :: fields) name, g.optional = false) ↔
      ∃ g ∈ Field.last? fields name, g.optional = false := by
    intro name
    rw [Field.last?_cons]
    cases Field.last? fields name with
    | some g => simp
    | none =>
      by_cases hname : f.name = name
      · simp [hname, h]
      · simp [hname]
  simp only [Field.AreRequired, requiredNames_cons_optional h, hlast]

/-- In front of other declarations, one that is not optional must be the only one of its name. -/
theorem areRequired_cons_mandatory (h : f.optional = false) :
    Field.AreRequired (f :: fields) (requiredNames (f :: fields)) ↔
      (∀ g ∈ fields, f.name ≠ g.name) ∧ Field.AreRequired fields (requiredNames fields) := by
  rw [Field.AreRequired, Field.AreRequired, requiredNames_cons_mandatory h, List.nodup_cons]
  constructor
  · rintro ⟨⟨hnew, hnodup⟩, hall⟩
    refine ⟨?_, hnodup, ?_⟩
    · -- A later declaration of the name would be required once more, or not at all.
      intro g hg hname
      obtain ⟨l, hl, hmandatory⟩ := (hall f.name).1 List.mem_cons_self
      rw [hname, Field.last?_cons_of_mem hg] at hl
      obtain ⟨hmem, hl⟩ := Field.mem_of_last? hl
      exact hnew (mem_requiredNames.2 ⟨l, hmem, hmandatory, hl.trans hname.symm⟩)
    · intro name
      constructor
      · intro hname
        obtain ⟨g, hg, -, rfl⟩ := mem_requiredNames.1 hname
        obtain ⟨l, hl, hmandatory⟩ := (hall g.name).1 (List.mem_cons_of_mem _ hname)
        rw [Field.last?_cons_of_mem hg] at hl
        exact ⟨l, hl, hmandatory⟩
      · rintro ⟨l, hl, hmandatory⟩
        obtain ⟨hmem, hname⟩ := Field.mem_of_last? hl
        exact mem_requiredNames.2 ⟨l, hmem, hmandatory, hname⟩
  · rintro ⟨hne, hnodup, hall⟩
    refine ⟨⟨?_, hnodup⟩, ?_⟩
    · intro hmem
      obtain ⟨g, hg, -, hname⟩ := mem_requiredNames.1 hmem
      exact hne g hg hname.symm
    · intro name
      rw [List.mem_cons, hall]
      by_cases hname : name = f.name
      · rw [hname, Field.last?_cons_self hne]
        simp [h]
      · rw [Field.last?_cons_of_ne (Ne.symm hname), or_iff_right hname]

/-- The required names are right just if every declaration that is not optional is the last one of its
name. -/
theorem areRequired_iff (fields : List (Field TypeExpr)) :
    Field.AreRequired fields (requiredNames fields) ↔ Field.MandatoryAreLast fields := by
  -- From the back, so that what is said of a declaration depends on those behind it only.
  induction fields with
  | nil => simp [Field.AreRequired, Field.MandatoryAreLast, requiredNames, Field.last?]
  | cons f fields ih =>
    rw [Field.MandatoryAreLast, List.pairwise_cons, ← Field.MandatoryAreLast, ← ih]
    cases h : f.optional with
    | true => rw [areRequired_cons_optional h]; simp
    | false => rw [areRequired_cons_mandatory h]; simp

end Schema

/-! ## Properties -/

namespace Fields

variable {α : Type}

theorem get?_cons (f : String × α) (fields : Fields α) (name : String) :
    get? (f :: fields) name = if f.1 = name then some f.2 else get? fields name := by
  rw [get?, List.lookup_cons, ← get?]
  by_cases h : f.1 = name
  · simp [h]
  · rw [beq_false_of_ne (Ne.symm h), if_neg h]

theorem get?_set (fields : Fields α) (key : String) (value : α) (name : String) :
    (fields.set key value).get? name = if key = name then some value else fields.get? name := by
  induction fields with
  | nil => exact get?_cons (key, value) [] name
  | cons f fields ih =>
    by_cases hk : f.1 = key
    · rw [set, if_pos (beq_iff_eq.2 hk), get?_cons, get?_cons, hk]
      split <;> rfl
    · rw [set, if_neg (by simpa using hk), get?_cons, get?_cons, ih]
      by_cases hname : f.1 = name
      · rw [if_pos hname, if_pos hname, if_neg fun h => hk (hname.trans h.symm)]
      · rw [if_neg hname, if_neg hname]

theorem ofList_concat (pairs : List (String × α)) (pair : String × α) :
    ofList (pairs ++ [pair]) = (ofList pairs).set pair.1 pair.2 := by
  rw [ofList, List.foldl_append]
  rfl

theorem get?_ofList (pairs : List (String × α)) (name : String) :
    (ofList pairs).get? name = get? pairs.reverse name := by
  induction pairs using List.reverseRecOn with
  | nil => rfl
  | append_singleton pairs pair ih =>
    rw [ofList_concat, get?_set, ih, List.reverse_append, List.reverse_singleton, List.singleton_append,
      get?_cons]

end Fields

namespace TypeExpr

open Schema

variable {pos : Position} {fields : List (Field TypeExpr)} {spreads : List TypeExpr} {schema : Json}

theorem get?_of_forall₂ {properties : List (String × Json)}
    (h : List.Forall₂ (fun f p => f.name = p.1 ∧ f.type.toSchema = .ok p.2) fields properties)
    (name : String) : (Fields.get? properties name).map Except.ok =
      (fields.find? fun f => f.name == name).map fun f => f.type.toSchema := by
  induction h with
  | nil => rfl
  | @cons f p fields properties hp _ ih =>
    obtain ⟨hname, hschema⟩ := hp
    rw [Fields.get?_cons, List.find?_cons, hname]
    by_cases h : p.1 = name
    · simp [h, hschema]
    · rw [if_neg h, beq_false_of_ne h]
      exact ih

/-- Every property is the schema of the last declaration of its name. -/
theorem get?_ofList_fieldSchemas {properties : List (String × Json)}
    (h : fieldSchemas fields = .ok properties) (name : String) :
    ((Fields.ofList properties).get? name).map Except.ok =
      (Field.last? fields name).map fun f => f.type.toSchema := by
  rw [Fields.get?_ofList, Field.last?]
  exact get?_of_forall₂ (List.forall₂_reverse_iff.2 (fieldSchemas_eq_ok_iff.1 h)) name

/-- Where the schema of a struct describes the objects with its own fields: it is the whole, or the first
of several schemas that have to hold together. -/
def objectPath (spreads : List TypeExpr) : List Schema.Step :=
  if spreads.isEmpty then [] else [.item "allOf" 0]

theorem field?_requiredField (names : List String) (front : List (String × Json))
    (h : front.lookup "required" = none) :
    (Json.object (front ++ requiredField names)).field? "required" =
      if names = [] then none else some (.strings names) := by
  rw [Json.field?, Fields.get?, List.lookup_append, h, Option.none_or]
  cases names with
  | nil => rfl
  | cons name names => rfl

/-- **Fields follow their last declarations.** In the schema of a struct, each property is the schema of
the last declaration of its name. The required names are left out if there are none; a name is listed as
often as it is declared without being optional, and so the list is right just if no such declaration has
another one of its name behind it. -/
theorem toSchema_struct_declares (h : toSchema (.struct pos fields spreads) = .ok schema) :
    ∃ object properties names, subschema? schema (objectPath spreads) = some object ∧
      object.field? "type" = some (.string "object") ∧
      object.field? "properties" = some (.object properties) ∧
      object.field? "required" = (if names = [] then none else some (.strings names)) ∧
      (properties.map Prod.fst).Nodup ∧
      (∀ name, (Fields.get? properties name).map Except.ok =
        (Field.last? fields name).map fun f => f.type.toSchema) ∧
      (∀ name, names.count name = fields.countP fun f => f.name == name && !f.optional) ∧
      (Field.AreRequired fields names ↔ Field.MandatoryAreLast fields) := by
  obtain ⟨properties, hproperties, h⟩ := bind_eq_ok_iff.1 h
  obtain ⟨others, -, h⟩ := bind_eq_ok_iff.1 h
  have hfields := get?_ofList_fieldSchemas hproperties
  cases spreads with
  | nil =>
    cases h
    exact ⟨_, Fields.ofList properties, requiredNames fields, rfl, rfl, rfl,
      field?_requiredField _ _ rfl, nodup_ofList properties, hfields, count_requiredNames fields,
      areRequired_iff fields⟩
  | cons spread spreads =>
    cases h
    exact ⟨_, Fields.ofList properties, requiredNames fields, rfl, rfl, rfl,
      field?_requiredField _ _ rfl, nodup_ofList properties, hfields, count_requiredNames fields,
      areRequired_iff fields⟩

/-- A field that is declared again is required as its second declaration says. -/
theorem toSchema_struct_declares_overridden :
    let fields : List (Field TypeExpr) := [⟨"a", .boolean .start, true, none⟩,
      ⟨"b", .any .start, false, none⟩, ⟨"a", .string .start none, false, none⟩]
    ∃ schema, toSchema (.struct .start fields [.reference .start "c" []]) = .ok schema ∧
      ∃ object properties names, subschema? schema [.item "allOf" 0] = some object ∧
        object.field? "properties" = some (.object properties) ∧
        object.field? "required" = (if names = [] then none else some (.strings names)) ∧
        (Fields.get? properties "a").map Except.ok = some (toSchema (.string .start none)) ∧
        Field.AreRequired fields names := by
  intro fields
  refine ⟨_, rfl, ?_⟩
  obtain ⟨object, properties, names, hobject, -, hproperties, hrequired, -, hlast, -, hnames⟩ :=
    @toSchema_struct_declares .start fields [.reference .start "c" []] _ rfl
  exact ⟨object, properties, names, hobject, hproperties, hrequired, hlast "a",
    hnames.2 (by decide)⟩

/-- A field stays required if its last declaration is optional, and it is required twice if it is declared
twice. -/
theorem required_not_last :
    let overridden : List (Field TypeExpr) :=
      [⟨"a", .any .start, false, none⟩, ⟨"a", .boolean .start, true, none⟩]
    let repeated : List (Field TypeExpr) :=
      [⟨"a", .any .start, false, none⟩, ⟨"a", .boolean .start, false, none⟩]
    let properties := Json.object [("a", .object [("type", .string "boolean")])]
    toSchema (.struct .start overridden []) = .ok (.object [("type", .string "object"),
        ("properties", properties), ("additionalProperties", .bool false),
        ("required", .strings ["a"])]) ∧
      ¬ Field.AreRequired overridden ["a"] ∧
    toSchema (.struct .start repeated []) = .ok (.object [("type", .string "object"),
        ("properties", properties), ("additionalProperties", .bool false),
        ("required", .strings ["a", "a"])]) ∧
      ¬ Field.AreRequired repeated ["a", "a"] := by
  intro overridden repeated properties
  refine ⟨rfl, fun h => ?_, rfl, fun h => ?_⟩
  · exact absurd ((areRequired_iff overridden).1 h) (by decide)
  · exact absurd ((areRequired_iff repeated).1 h) (by decide)

end TypeExpr

end McdocSchema
