import McdocSchema.Proofs.Tuples

/-!
# Spread structs

A struct that spreads other structs has all of their fields besides its own. Its schema asks for several
schemas to hold together: one for its own fields, which is open, and those of the spread structs, each of
which is closed and refuses every key that is not its own. So it agrees with the schema of the single
struct that has all the fields on an object if all of its keys are in every struct that is spread.
-/

namespace McdocSchema

/-- A struct that spreads nothing. -/
structure FlatStruct where
  pos : Position
  fields : List (Field TypeExpr)

def FlatStruct.type (s : FlatStruct) : TypeExpr :=
  .struct s.pos s.fields []

/-- The fields of a struct together with those that it takes from the structs that it spreads. -/
def joinedFields (fields : List (Field TypeExpr)) (spreads : List FlatStruct) :
    List (Field TypeExpr) :=
  fields ++ spreads.flatMap FlatStruct.fields

namespace Schema

open TypeExpr

variable {env : String → Instance → Prop} {fields fields' : List (Field TypeExpr)}
  {spreads : List FlatStruct} {members : List (String × Instance)}

/-! ## Objects with fields -/

variable (env) in
/-- The fields that are not optional are among the members, and the members that are among the fields
fit them. -/
def HasFields (fields : List (Field TypeExpr)) (members : List (String × Instance)) : Prop :=
  ∀ f ∈ fields, (f.optional = false → ∃ m ∈ members, m.1 = f.name) ∧
    ∀ m ∈ members, m.1 = f.name → Fits env f.type m.2

/-- All members are among the fields. -/
def HasOnly (fields : List (Field TypeExpr)) (members : List (String × Instance)) : Prop :=
  ∀ m ∈ members, m.1 ∈ fields.map Field.name

theorem hasFields_joinedFields : HasFields env (joinedFields fields spreads) members ↔
    HasFields env fields members ∧ ∀ s ∈ spreads, HasFields env s.fields members := by
  rw [joinedFields, HasFields, List.forall_mem_append, List.forall_mem_flatMap]
  rfl

theorem sublist_joinedFields {s : FlatStruct} (h : s ∈ spreads) :
    s.fields.Sublist (joinedFields fields spreads) := by
  rw [joinedFields, List.flatMap_def]
  have hmem := List.sublist_flatten_of_mem (List.mem_map_of_mem (f := FlatStruct.fields) h)
  exact hmem.trans (List.sublist_append_right fields _)

theorem HasOnly.mono (h : HasOnly fields members) (hsub : fields.Sublist fields') :
    HasOnly fields' members :=
  fun m hm => List.map_subset Field.name hsub.subset (h m hm)

theorem isRecord_object_iff :
    IsRecord (fields.map fun f => { f with type := Fits env f.type }) (.object members) ↔
      HasOnly fields members ∧ HasFields env fields members := by
  rw [isRecord_map_iff, HasFields, forall₂_and]
  simp only [Instance.object.injEq, exists_eq_left', HasOnly]

/-! ## The schemas of structs -/

variable {properties : List (String × Json)}

theorem map_validates_of_fieldSchemas
    (h : fieldSchemas fields = .ok properties) :
    properties.map (fun p => (p.1, Validates env p.2)) =
      fields.map fun f => (f.name, Fits env f.type) := by
  rw [fieldSchemas_eq_ok_iff] at h
  induction h with
  | nil => rfl
  | cons hp _ ih =>
    rw [List.map_cons, List.map_cons, hp.1, validates_eq_fits hp.2, ih]

theorem ofList_of_fieldSchemas
    (h : fieldSchemas fields = .ok properties) (hnodup : (fields.map Field.name).Nodup) :
    Fields.ofList properties = properties := by
  apply ofList_of_nodup
  have hnames := names_of_meanings (@map_validates_of_fieldSchemas (fun _ _ => True) _ _ h)
  rwa [hnames]

theorem toSchema_flat (pos : Position) (fields : List (Field TypeExpr)) :
    toSchema (.struct pos fields []) = (fieldSchemas fields).map fun properties =>
      structSchema (.object (Fields.ofList properties)) (requiredNames fields) := by
  rw [toSchema, toSchemas]
  cases fieldSchemas fields <;> rfl

theorem fits_flat_iff {pos : Position} (hnodup : (fields.map Field.name).Nodup)
    (h : fieldSchemas fields = .ok properties) :
    Fits env (.struct pos fields []) (.object members) ↔
      HasOnly fields members ∧ HasFields env fields members := by
  have hschema := toSchema_flat pos fields
  rw [h, Except.map, ofList_of_fieldSchemas h hnodup] at hschema
  rw [← validates_eq_fits hschema, validates_structSchema (map_validates_of_fieldSchemas h),
    isRecord_object_iff]

/-- The part of a spreading struct's schema for its own fields asks for the fields and leaves the other
members alone. -/
theorem validates_own_iff (hnodup : (fields.map Field.name).Nodup)
    (h : fieldSchemas fields = .ok properties) :
    Validates env (.object ([("type", .string "object"),
      ("properties", .object (Fields.ofList properties))] ++ requiredField (requiredNames fields)))
      (.object members) ↔ HasFields env fields members := by
  rw [ofList_of_fieldSchemas h hnodup, validates_object_iff, allHold_append, allHold_requiredField,
    allHold_cons, allHold_cons, holds_type_iff, holds_properties_iff, and_iff_left allHold_nil,
    HasFields, forall₂_and]
  simp only [forall_mem_requiredNames, fit_of_meanings (map_validates_of_fieldSchemas h),
    Instance.object.injEq, forall_eq']
  have htype : (Instance.object members).HasType "object" := ⟨members, rfl⟩
  rw [and_iff_right htype, and_comm]

/-- The schema of a struct with spreads asks for its own fields and for everything that the spread types
ask for. -/
theorem validates_spreadSchema_iff (hnodup : (fields.map Field.name).Nodup)
    (h : fieldSchemas fields = .ok properties)
    {types : List TypeExpr} {schemas : List Json} (htypes : toSchemas types = .ok schemas) :
    Validates env (spreadSchema (.object (Fields.ofList properties)) (requiredNames fields) schemas)
      (.object members) ↔
      HasFields env fields members ∧ ∀ t ∈ types, Fits env t (.object members) := by
  have hspreads : (∀ s ∈ schemas, Validates env s (.object members)) ↔
      ∀ P ∈ schemas.map (Validates env), P (.object members) := by
    rw [List.forall_mem_map]
  rw [spreadSchema, validates_object_iff, allHold_cons, holds_allOf_iff, and_iff_left allHold_nil,
    List.forall_mem_cons, validates_own_iff hnodup h, hspreads, map_validates_of_toSchemas htypes,
    List.forall_mem_map]

/-! ## Faults -/

theorem fieldSchemas_append (xs ys : List (Field TypeExpr)) : fieldSchemas (xs ++ ys) =
    fieldSchemas xs >>= fun front => (fieldSchemas ys).map fun back => front ++ back := by
  induction xs with
  | nil =>
    rw [List.nil_append, fieldSchemas]
    cases fieldSchemas ys <;> rfl
  | cons f xs ih =>
    rw [List.cons_append, fieldSchemas, fieldSchemas, ih]
    cases toSchema f.type with
    | error fault => rfl
    | ok schema =>
      cases fieldSchemas xs with
      | error fault => rfl
      | ok front => cases fieldSchemas ys <;> rfl

theorem eq_error_or_eq_ok {ε α β : Type} {x : Except ε α} {y : Except ε β}
    (h : x.map (fun _ => ()) = y.map fun _ => ()) :
    (∃ e, x = .error e ∧ y = .error e) ∨ ∃ a b, x = .ok a ∧ y = .ok b := by
  cases x with
  | error e =>
    cases y with
    | error e' =>
      cases h
      exact .inl ⟨e, rfl, rfl⟩
    | ok b => cases h
  | ok a =>
    cases y with
    | error e' => cases h
    | ok b => exact .inr ⟨a, b, rfl, rfl⟩

/-- Structs without spreads fail as their fields do, taken one after another. -/
theorem fault_toSchemas (spreads : List FlatStruct) :
    (toSchemas (spreads.map FlatStruct.type)).map (fun _ => ()) =
      (fieldSchemas (spreads.flatMap FlatStruct.fields)).map fun _ => () := by
  induction spreads with
  | nil => rfl
  | cons s spreads ih =>
    rw [List.map_cons, List.flatMap_cons, toSchemas, fieldSchemas_append, FlatStruct.type,
      toSchema_flat]
    cases fieldSchemas s.fields with
    | error fault => rfl
    | ok properties =>
      obtain ⟨fault, hs, hf⟩ | ⟨schemas, others, hs, hf⟩ := eq_error_or_eq_ok ih <;>
        rw [hs, hf] <;> rfl

/-- A struct with spreads has a schema just if the single struct with all fields has one, and it fails
as that struct does. -/
theorem fault_struct (pos pos' : Position) (fields : List (Field TypeExpr))
    (spreads : List FlatStruct) :
    (toSchema (.struct pos fields (spreads.map FlatStruct.type))).map (fun _ => ()) =
      (toSchema (.struct pos' (joinedFields fields spreads) [])).map fun _ => () := by
  rw [toSchema_flat, joinedFields, fieldSchemas_append, toSchema]
  cases fieldSchemas fields with
  | error fault => rfl
  | ok properties =>
    obtain ⟨fault, hs, hf⟩ | ⟨schemas, others, hs, hf⟩ := eq_error_or_eq_ok (fault_toSchemas spreads)
      <;> rw [hs, hf] <;> rfl

theorem exists_schema_of_mem {ts : List TypeExpr} {schemas : List Json} {t : TypeExpr}
    (h : toSchemas ts = .ok schemas) (ht : t ∈ ts) : ∃ schema, t.toSchema = .ok schema := by
  rw [toSchemas_eq_ok_iff] at h
  induction h with
  | nil => cases ht
  | @cons u s _ _ hu _ ih =>
    rcases List.mem_cons.1 ht with rfl | ht
    · exact ⟨s, hu⟩
    · exact ih ht

theorem exists_fieldSchemas_of_mem {schemas : List Json} {s : FlatStruct}
    (h : toSchemas (spreads.map FlatStruct.type) = .ok schemas) (hs : s ∈ spreads) :
    ∃ properties, fieldSchemas s.fields = .ok properties := by
  obtain ⟨schema, hschema⟩ := exists_schema_of_mem h (List.mem_map_of_mem hs)
  obtain ⟨properties, hproperties, -⟩ := bind_eq_ok_iff.1 hschema
  exact ⟨properties, hproperties⟩

/-! ## One struct or several -/

/-- The objects that are valid against the schema of a struct with spreads. -/
theorem validates_joined_iff {pos : Position} {schema : Json}
    (hnodup : ((joinedFields fields spreads).map Field.name).Nodup)
    (h : toSchema (.struct pos fields (spreads.map FlatStruct.type)) = .ok schema) :
    Validates env schema (.object members) ↔ (HasOnly (joinedFields fields spreads) members ∧
      HasFields env (joinedFields fields spreads) members) ∧
        ∀ s ∈ spreads, HasOnly s.fields members := by
  obtain ⟨properties, hproperties, h⟩ := bind_eq_ok_iff.1 h
  obtain ⟨schemas, hschemas, h⟩ := bind_eq_ok_iff.1 h
  have hown : (fields.map Field.name).Nodup :=
    hnodup.sublist ((List.sublist_append_left fields _).map Field.name)
  have hfits : ∀ s ∈ spreads, (Fits env s.type (.object members) ↔
      HasOnly s.fields members ∧ HasFields env s.fields members) := by
    intro s hs
    obtain ⟨others, hothers⟩ := exists_fieldSchemas_of_mem hschemas hs
    exact fits_flat_iff (hnodup.sublist ((sublist_joinedFields hs).map Field.name)) hothers
  rw [hasFields_joinedFields]
  -- Without spreads the own part is closed; with spreads it is open and only the others are closed.
  cases spreads with
  | nil =>
    obtain rfl : structSchema (.object (Fields.ofList properties)) (requiredNames fields) = schema :=
      Except.ok.inj h
    rw [ofList_of_fieldSchemas hproperties hown,
      validates_structSchema (map_validates_of_fieldSchemas hproperties), isRecord_object_iff]
    simp [joinedFields]
  | cons first spreads =>
    obtain rfl : spreadSchema (.object (Fields.ofList properties)) (requiredNames fields) schemas =
      schema := Except.ok.inj h
    rw [validates_spreadSchema_iff hown hproperties hschemas, List.forall_mem_map,
      forall₂_congr hfits, forall₂_and]
    constructor
    · rintro ⟨hfields, honly, hspreads⟩
      -- one closed part is enough to close the whole
      have hclosed : HasOnly (joinedFields fields (first :: spreads)) members :=
        (honly first List.mem_cons_self).mono (sublist_joinedFields List.mem_cons_self)
      exact ⟨⟨hclosed, hfields, hspreads⟩, honly⟩
    · rintro ⟨⟨-, hfields, hspreads⟩, honly⟩
      exact ⟨hfields, honly, hspreads⟩

/-- **Spread structs are closed.** A struct that spreads structs and the single struct with all of their
fields fail alike, at a field that has no schema. Else an object is valid against the single struct's
schema if it is a record of all the fields, and it is valid against the schema of the struct with spreads
if besides no spread struct lacks any of its keys. -/
theorem validates_spread_iff (env : String → Instance → Prop) (pos pos' : Position)
    (fields : List (Field TypeExpr)) (spreads : List FlatStruct)
    (h : ((joinedFields fields spreads).map Field.name).Nodup) :
    (∃ fault, toSchema (.struct pos fields (spreads.map FlatStruct.type)) = .error fault ∧
      toSchema (.struct pos' (joinedFields fields spreads) []) = .error fault ∧
      ∃ f ∈ joinedFields fields spreads, f.type.toSchema = .error fault) ∨
    ∃ schema flat, toSchema (.struct pos fields (spreads.map FlatStruct.type)) = .ok schema ∧
      toSchema (.struct pos' (joinedFields fields spreads) []) = .ok flat ∧
      ∀ members,
        (Validates env flat (.object members) ↔
          IsRecord ((joinedFields fields spreads).map fun f => { f with type := Fits env f.type })
            (.object members)) ∧
        (Validates env schema (.object members) ↔ Validates env flat (.object members) ∧
          ∀ s ∈ spreads, HasOnly s.fields members) := by
  obtain ⟨fault, hschema, hflat⟩ | ⟨schema, flat, hschema, hflat⟩ :=
    eq_error_or_eq_ok (fault_struct pos pos' fields spreads)
  · refine .inl ⟨fault, hschema, hflat, ?_⟩
    rcases toSchema_error hflat with ⟨t, ht, herror⟩ | ⟨r, hr, -⟩
    · obtain ⟨f, hf, rfl⟩ := List.mem_map.1 (by simpa [convertedParts, parts] using ht)
      exact ⟨f, hf, herror⟩
    · cases hr
  · obtain ⟨properties, hproperties, -⟩ := bind_eq_ok_iff.1 hflat
    refine .inr ⟨schema, flat, hschema, hflat, ?_⟩
    intro members
    have hvalid : Validates env flat (.object members) ↔ HasOnly (joinedFields fields spreads) members ∧
        HasFields env (joinedFields fields spreads) members := by
      rw [validates_eq_fits hflat, fits_flat_iff h hproperties]
    rw [hvalid, isRecord_object_iff]
    exact ⟨Iff.rfl, validates_joined_iff h hschema⟩

/-- A struct with a field of its own that spreads two others. -/
theorem validates_two_spreads_iff :
    let fields : List (Field TypeExpr) := [⟨"a", .any .start, false, none⟩]
    let spreads : List FlatStruct := [⟨.start, [⟨"b", .string .start none, false, none⟩]⟩,
      ⟨.start, [⟨"c", .boolean .start, true, none⟩]⟩]
    ((joinedFields fields spreads).map Field.name).Nodup ∧
    ∃ schema flat, toSchema (.struct .start fields (spreads.map FlatStruct.type)) = .ok schema ∧
      toSchema (.struct .start (joinedFields fields spreads) []) = .ok flat ∧
      ∀ members, Validates (fun _ _ => False) schema (.object members) ↔
        Validates (fun _ _ => False) flat (.object members) ∧
          ∀ s ∈ spreads, HasOnly s.fields members := by
  intro fields spreads
  have hnodup : ((joinedFields fields spreads).map Field.name).Nodup := by decide
  refine ⟨hnodup, ?_⟩
  obtain ⟨fault, herror, -⟩ | ⟨schema, flat, hschema, hflat, hvalid⟩ :=
    validates_spread_iff (fun _ _ => False) .start .start fields spreads hnodup
  · cases herror
  · exact ⟨schema, flat, hschema, hflat, fun members => (hvalid members).2⟩

/-- An object with a field of its own and a spread one is refused where the single struct admits it. -/
theorem spread_refuses_own_field :
    let fields : List (Field TypeExpr) := [⟨"a", .any .start, false, none⟩]
    let spreads : List FlatStruct := [⟨.start, [⟨"b", .any .start, false, none⟩]⟩]
    let object : Instance := .object [("a", .null), ("b", .null)]
    ((joinedFields fields spreads).map Field.name).Nodup ∧
    ∃ schema flat, toSchema (.struct .start fields (spreads.map FlatStruct.type)) = .ok schema ∧
      toSchema (.struct .start (joinedFields fields spreads) []) = .ok flat ∧
      Validates (fun _ _ => False) flat object ∧ ¬ Validates (fun _ _ => False) schema object := by
  intro fields spreads object
  have hnodup : ((joinedFields fields spreads).map Field.name).Nodup := by decide
  obtain ⟨schema, hschema⟩ : ∃ schema,
      toSchema (.struct .start fields (spreads.map FlatStruct.type)) = .ok schema := ⟨_, rfl⟩
  obtain ⟨flat, hflat⟩ : ∃ flat,
      toSchema (.struct .start (joinedFields fields spreads) []) = .ok flat := ⟨_, rfl⟩
  refine ⟨hnodup, schema, flat, hschema, hflat, ?_, ?_⟩
  · rw [validates_eq_fits hflat, fits_flat_iff hnodup rfl]
    have hany : ∀ v, Fits (fun _ _ => False) (.any .start) v :=
      fun v => ⟨.object [], rfl, by simp [validates_object_iff]⟩
    simp [HasOnly, HasFields, joinedFields, fields, spreads, hany]
  · rw [validates_joined_iff hnodup hschema]
    simp [HasOnly, spreads]

end Schema

end McdocSchema
