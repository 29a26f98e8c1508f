import McdocSchema.Proofs.Concatenation
import McdocSchema.Proofs.Subschemas

/-!
# The shape of what texts are compiled to

In the types of a document that comes from a text only some forms occur, and each of them in a restricted
shape (`TypeExpr.IsShaped`): structs and enumerations are declared and never written inside a type, a lower
bound is never exclusive, a union has alternatives, what is indexed is a reference. The schemas of such
types are plain, so that objects are described by the definitions of structs alone.
-/

namespace McdocSchema

/-! ## Parts of types -/

/-- A range as texts have it: with an inclusive lower bound, or without a lower bound and then exclusive
below, or without anything. No bound is the value that is no number. -/
structure NumberRange.IsShaped (r : NumberRange) : Prop where
  form : r.min ≠ none ∧ r.minExclusive = false ∨ r.min = none ∧ r.minExclusive = true ∨
    r.min = none ∧ r.max = none ∧ r.minExclusive = false ∧ r.maxExclusive = false
  min_ne_nan : r.min ≠ some .nan
  max_ne_nan : r.max ≠ some .nan

theorem NumberRange.IsPrintable.isShaped {r : NumberRange} (h : r.IsPrintable) :
    r.IsShaped := by
  have hbound : ∀ x : Option Number.Binary64, (∀ y ∈ x, Number.IsBound y) → x ≠ some .nan := by
    rintro _ hx rfl
    exact Number.isBound_iff.1 (hx .nan rfl)
  refine ⟨?_, hbound r.min h.min_isBound, hbound r.max h.max_isBound⟩
  by_cases hmin : r.min = none
  · cases hexclusive : r.minExclusive with
    | true => exact .inr (.inl ⟨hmin, rfl⟩)
    | false =>
      rw [h.eq_of_inclusive hmin hexclusive]
      exact .inr (.inr ⟨rfl, rfl, rfl, rfl⟩)
  · exact .inl ⟨hmin, h.minExclusive_of_min hmin⟩

namespace TypeExpr

/-- The types that a type is made of. -/
def parts : TypeExpr → List TypeExpr
  | .list _ element _ => [element]
  | .tuple _ elements => elements
  | .union _ members => members
  | .reference _ _ arguments => arguments
  | .indexed _ base _ => [base]
  | .struct _ fields spreads => fields.map Field.type ++ spreads
  | _ => []

/-- The parts whose schemas are parts of the schema of the type: a reference is not looked into. -/
def convertedParts : TypeExpr → List TypeExpr
  | .reference .. => []
  | t => t.parts

/-- The first type is the second one or occurs in it. -/
def OccursIn : TypeExpr → TypeExpr → Prop := Relation.ReflTransGen fun u t => u ∈ t.parts

/-- The first type is reached when the second one is converted. -/
def IsReachedFrom : TypeExpr → TypeExpr → Prop :=
  Relation.ReflTransGen fun u t => u ∈ t.convertedParts

/-- The ranges that are written in a type, those in its parts left out. -/
def ranges : TypeExpr → List NumberRange
  | .string _ length => length.toList
  | .numeric _ _ range => range.toList
  | .primitiveArray _ _ values size => values.toList ++ size.toList
  | .list _ _ size => size.toList
  | _ => []

/-- Whether a type can be written inside another one. -/
def isInline : TypeExpr → Bool
  | .primitiveArray .. | .struct .. | .enum .. | .absent | .foreign .. => false
  | _ => true

/-- Whether the conversion has nothing to say about a type, which then gets the empty schema. -/
def isUnknown : TypeExpr → Bool
  | .primitiveArray .. | .absent | .foreign .. => true
  | _ => false

/-- A type with the shape that types inside the declarations of a text have, its parts apart. -/
structure IsShaped (t : TypeExpr) : Prop where
  isInline : t.isInline = true
  ranges : ∀ r ∈ t.ranges, r.IsShaped
  union : ∀ pos members, t = .union pos members → 2 ≤ members.length
  indexed : ∀ pos base indices, t = .indexed pos base indices →
    indices ≠ [] ∧ base.isReference = true

variable {t u : TypeExpr}

theorem sizeOf_lt_of_mem_parts (h : u ∈ t.parts) : sizeOf u < sizeOf t := by
  cases t with
  | list pos element size =>
    rw [List.mem_singleton.1 h]
    simp
    omega
  | tuple pos elements =>
    have hlt : sizeOf u < sizeOf elements := List.sizeOf_lt_of_mem h
    simp
    omega
  | union pos members =>
    have hlt : sizeOf u < sizeOf members := List.sizeOf_lt_of_mem h
    simp
    omega
  | reference pos path arguments =>
    have hlt : sizeOf u < sizeOf arguments := List.sizeOf_lt_of_mem h
    simp
    omega
  | indexed pos base indices =>
    rw [List.mem_singleton.1 h]
    simp
    omega
  | struct pos fields spreads =>
    rcases List.mem_append.1 h with h | h
    · obtain ⟨field, hfield, rfl⟩ := List.mem_map.1 h
      have hlt := List.sizeOf_lt_of_mem hfield
      have hin : sizeOf field.type < sizeOf field := by
        cases field
        simp
        omega
      simp
      omega
    · have hlt := List.sizeOf_lt_of_mem h
      simp
      omega
  | _ => cases h

/-- What holds of a type whenever it holds of its parts holds of all types. -/
theorem induction_on_parts {P : TypeExpr → Prop} (step : ∀ t, (∀ u ∈ t.parts, P u) → P t)
    (t : TypeExpr) : P t :=
  step t fun u hu =>
    have := sizeOf_lt_of_mem_parts hu
    induction_on_parts step u
termination_by sizeOf t

theorem convertedParts_subset (t : TypeExpr) : t.convertedParts ⊆ t.parts := by
  cases t <;> simp [convertedParts]

theorem IsReachedFrom.occursIn (h : u.IsReachedFrom t) : u.OccursIn t :=
  Relation.ReflTransGen.mono (fun _ t hu => convertedParts_subset t hu) _ _ h

/-! ## Types that can be written -/

theorem IsPrintable.of_mem_parts (h : t.IsPrintable) (hu : u ∈ t.parts) : u.IsPrintable := by
  cases t with
  | list pos element size =>
    rw [IsPrintable] at h
    rw [List.mem_singleton.1 hu]
    exact h.1
  | tuple pos elements =>
    rw [IsPrintable, arePrintable_iff] at h
    exact h u hu
  | union pos members =>
    rw [IsPrintable, arePrintable_iff] at h
    exact h.2 u hu
  | reference pos path arguments =>
    rw [IsPrintable, arePrintable_iff] at h
    exact h.2 u hu
  | indexed pos base indices =>
    rw [IsPrintable] at h
    rw [List.mem_singleton.1 hu]
    exact h.2.1
  | struct pos fields spreads => exact h.elim
  | _ => cases hu

theorem IsPrintable.of_occursIn (h : t.IsPrintable) (hu : u.OccursIn t) : u.IsPrintable := by
  induction hu using Relation.ReflTransGen.head_induction_on with
  | refl => exact h
  | head hpart _ ih => exact ih.of_mem_parts hpart

theorem IsPrintable.isShaped (h : t.IsPrintable) : t.IsShaped := by
  have hranges : ∀ {r : Option NumberRange}, (∀ x ∈ r, x.IsPrintable) →
      ∀ x ∈ r.toList, x.IsShaped :=
    fun hr x hx => (hr x (Option.mem_toList.1 hx)).isShaped
  cases t with
  | string pos length =>
    rw [IsPrintable] at h
    exact ⟨rfl, hranges h, by simp, by simp⟩
  | numeric pos name range =>
    rw [IsPrintable] at h
    exact ⟨rfl, hranges h.2, by simp, by simp⟩
  | list pos element size =>
    rw [IsPrintable] at h
    exact ⟨rfl, hranges h.2, by simp, by simp⟩
  | union pos members =>
    rw [IsPrintable] at h
    exact ⟨rfl, by simp [TypeExpr.ranges], by simpa using h.1, by simp⟩
  | indexed pos base indices =>
    rw [IsPrintable] at h
    refine ⟨rfl, by simp [TypeExpr.ranges], by simp, ?_⟩
    rintro _ _ _ ⟨⟩
    exact ⟨h.2.2.1, h.1⟩
  | any | boolean | literal | tuple | reference =>
    exact ⟨rfl, by simp [TypeExpr.ranges], by simp, by simp⟩
  | primitiveArray | struct | enum | absent | foreign => exact h.elim

end TypeExpr

/-! ## Schemas of types -/

namespace Schema

theorem bind_eq_ok_iff {ε α β : Type} {x : Except ε α} {f : α → Except ε β} {b : β} :
    x >>= f = .ok b ↔ ∃ a, x = .ok a ∧ f a = .ok b := by
  cases x with
  | error e => simp [bind, Except.bind]
  | ok a => simp [bind, Except.bind]

variable {s : Json} {fields : List (String × Json)}
variable {names : List String}

theorem key_of_mem_boundField {key : String} {bound : Option Number.Binary64}
    (h : boundField key bound = .ok fields) : ∀ f ∈ fields, f.1 = key := by
  cases bound with
  | none =>
    cases h
    simp
  | some x =>
    rw [boundField] at h
    cases hx : lengthBound x with
    | error fault =>
      rw [hx] at h
      cases h
    | ok n =>
      rw [hx] at h
      cases h
      simp

theorem isPlainField_of_lengthFields {minKey maxKey : String} {range : Option NumberRange}
    (hmin : ∀ value, IsPlainField minKey value) (hmax : ∀ value, IsPlainField maxKey value)
    (h : lengthFields minKey maxKey range = .ok fields) : ∀ f ∈ fields, IsPlainField f.1 f.2 := by
  cases range with
  | none =>
    cases h
    simp
  | some r =>
    obtain ⟨low, hlow, h⟩ := bind_eq_ok_iff.1 h
    obtain ⟨high, hhigh, h⟩ := bind_eq_ok_iff.1 h
    cases h
    intro f hf
    rcases List.mem_append.1 hf with hf | hf
    · rw [key_of_mem_boundField hlow f hf]
      exact hmin f.2
    · rw [key_of_mem_boundField hhigh f hf]
      exact hmax f.2

/-- The bounds of a range in shape are plain: a lower bound is not exclusive. -/
theorem isPlainField_of_numberFields {range : Option NumberRange}
    (h : ∀ r ∈ range.toList, r.IsShaped) : ∀ f ∈ numberFields range, IsPlainField f.1 f.2 := by
  cases range with
  | none => simp [numberFields]
  | some r =>
    have hmin : ∀ f ∈ numberField "minimum" "exclusiveMinimum" r.minExclusive r.min,
        f.1 = "minimum" := by
      rcases (h r (by simp)).form with ⟨-, hinclusive⟩ | ⟨hnone, -⟩ | ⟨hnone, -⟩
      · cases r.min <;> simp [numberField, hinclusive]
      · simp [numberField, hnone]
      · simp [numberField, hnone]
    have hmax : ∀ f ∈ numberField "maximum" "exclusiveMaximum" r.maxExclusive r.max,
        f.1 = "maximum" ∨ f.1 = "exclusiveMaximum" := by
      cases r.max with
      | none => simp [numberField]
      | some x => cases r.maxExclusive <;> simp [numberField]
    intro f hf
    rcases List.mem_append.1 hf with hf | hf
    · rw [hmin f hf]
      exact isPlainField_leaf (by decide) (by decide) (by decide)
    · rcases hmax f hf with hkey | hkey <;> rw [hkey]
      · exact isPlainField_leaf (by decide) (by decide) (by decide)
      · exact isPlainField_leaf (by decide) (by decide) (by decide)

theorem isPlainField_of_requiredField :
    ∀ f ∈ requiredField names, IsPlainField f.1 f.2 := by
  unfold requiredField
  split
  · simp
  · exact List.forall_mem_cons.2
      ⟨isPlainField_leaf (by decide : "required" ∉ _) (by decide : "required" ≠ _)
        (by decide : "required" ≠ _), by simp⟩

/-- The fields that describe an object carry plain schemas. -/
theorem isPlainBelow_fields {properties : Json}
    (hproperties : IsPlainField "properties" properties) (more : List (String × Json))
    (hmore : ∀ f ∈ more, IsPlainField f.1 f.2) :
    IsPlainBelow (.object ([("type", .string "object"), ("properties", properties)] ++ more
      ++ requiredField names)) := by
  have htype : ∀ u, ¬ Carries "type" (.string "object") u := by
    rintro u (⟨hk, -⟩ | ⟨hk, -⟩ | ⟨hk, -⟩) <;> revert hk <;> decide
  have hfields : ∀ f ∈ ("properties", properties) :: more ++ requiredField names,
      IsPlainField f.1 f.2 := by
    intro f hf
    rcases List.mem_append.1 hf with hf | hf
    · rcases List.mem_cons.1 hf with rfl | hf
      · exact hproperties
      · exact hmore f hf
    · exact isPlainField_of_requiredField f hf
  apply isPlainBelow_object
  · exact List.forall_mem_cons.2 ⟨by decide, fun f hf => (hfields f hf).ne_exclusiveMinimum⟩
  · exact List.forall_mem_cons.2 ⟨fun u hu => absurd hu (htype u), fun f hf => (hfields f hf).carried⟩

theorem isPlainBelow_structSchema {properties : Json}
    (hproperties : IsPlainField "properties" properties) :
    IsPlainBelow (structSchema properties names) := by
  have hclosed : IsPlainField "additionalProperties" (.bool false) :=
    isPlainField_schema (by decide) (isPlain_bool false)
  exact isPlainBelow_fields hproperties [("additionalProperties", .bool false)]
    (by simpa using hclosed)

/-- The only steps into several schemas that have to hold together. -/
theorem of_child?_allOf {step : Step} {items : List Json} {u : Json}
    (h : step.child? (.object [("allOf", .array items)]) = some u) :
    ∃ i, step = .item "allOf" i ∧ items[i]? = some u := by
  have hkey : ∀ {key value}, Json.field? key (.object [("allOf", .array items)]) = some value →
      key = "allOf" ∧ value = .array items := by
    intro key value hfield
    simpa using mem_of_field? hfield
  cases step with
  | schema keyword =>
    obtain ⟨hk, hfield⟩ := Option.ite_none_right_eq_some.1 h
    obtain ⟨rfl, -⟩ := hkey hfield
    exact absurd hk (by decide)
  | item keyword index =>
    obtain ⟨-, hfield⟩ := Option.ite_none_right_eq_some.1 h
    obtain ⟨found, hfound, hu⟩ := Option.bind_eq_some_iff.1 hfield
    obtain ⟨value, hvalue, harray⟩ := Option.bind_eq_some_iff.1 hfound
    obtain ⟨rfl, rfl⟩ := hkey hvalue
    cases harray
    exact ⟨index, rfl, hu⟩
  | named keyword name =>
    obtain ⟨hk, hfield⟩ := Option.ite_none_right_eq_some.1 h
    obtain ⟨value, hvalue, -⟩ := Option.bind_eq_some_iff.1 hfield
    obtain ⟨rfl, -⟩ := hkey hvalue
    exact absurd hk (by decide)

theorem subschema?_spreadSchema {properties : Json} {spreads : List Json}
    (hproperties : IsPlainField "properties" properties) (hspreads : ∀ s ∈ spreads, IsPlain s)
    {path : List Step} {v : Json}
    (hv : subschema? (spreadSchema properties names spreads) path = some v) :
    v.field? "exclusiveMinimum" = none ∧
      (DescribesObjects v → path = [] ∨ path = [.item "allOf" 0]) := by
  cases path with
  | nil =>
    cases hv
    exact ⟨rfl, fun _ => .inl rfl⟩
  | cons step path =>
    obtain ⟨t, hstep, hrest⟩ := subschema?_cons_iff.1 hv
    obtain ⟨i, rfl, hi⟩ := of_child?_allOf hstep
    cases i with
    | zero =>
      cases hi
      obtain ⟨hnone, hnil⟩ := isPlainBelow_fields hproperties [] (by simp) path v hrest
      exact ⟨hnone, fun hobjects => .inr (by rw [hnil hobjects])⟩
    | succ i =>
      obtain ⟨hnone, hnot⟩ := hspreads t (List.mem_of_getElem? hi) path v hrest
      exact ⟨hnone, fun hobjects => absurd hobjects hnot⟩

theorem mem_set {α : Type} {fields : Fields α} {key : String} {value : α} {f : String × α}
    (h : f ∈ Fields.set key value fields) : f = (key, value) ∨ f ∈ fields := by
  induction fields with
  | nil => exact .inl (List.mem_singleton.1 h)
  | cons g fields ih =>
    rw [Fields.set] at h
    split at h
    · next hkey =>
      rcases List.mem_cons.1 h with rfl | h
      · exact .inl (by rw [eq_of_beq hkey])
      · exact .inr (List.mem_cons_of_mem g h)
    · rcases List.mem_cons.1 h with rfl | h
      · exact .inr List.mem_cons_self
      · exact (ih h).imp_right (List.mem_cons_of_mem g)

theorem mem_ofList {α : Type} {pairs : List (String × α)} {f : String × α}
    (h : f ∈ Fields.ofList pairs) : f ∈ pairs := by
  induction pairs using List.reverseRecOn with
  | nil => exact h
  | append_singleton pairs pair ih =>
    rw [Fields.ofList, List.foldl_append] at h
    rcases mem_set h with rfl | h
    · simp
    · exact List.mem_append_left _ (ih h)

end Schema

namespace TypeExpr

open Schema

variable {t u : TypeExpr} {s : Json}
variable {fields : List (Field TypeExpr)}

/-- The schemas of types stand in the order of the types. -/
theorem toSchemas_eq_ok_iff {ts : List TypeExpr} {schemas : List Json} :
    toSchemas ts = .ok schemas ↔ List.Forall₂ (fun t s => t.toSchema = .ok s) ts schemas := by
  induction ts generalizing schemas with
  | nil =>
    rw [toSchemas, Except.ok.injEq, List.forall₂_nil_left_iff, eq_comm]
  | cons t ts ih =>
    rw [toSchemas, bind_eq_ok_iff, List.forall₂_cons_left_iff]
    simp only [bind_eq_ok_iff, Except.ok.injEq, ih]
    constructor
    · rintro ⟨first, hfirst, others, hothers, rfl⟩
      exact ⟨first, others, hfirst, hothers, rfl⟩
    · rintro ⟨first, others, hfirst, hothers, rfl⟩
      exact ⟨first, hfirst, others, hothers, rfl⟩

/-- The schemas of fields stand in the order of the fields, each under its name. -/
theorem fieldSchemas_eq_ok_iff {properties : List (String × Json)} :
    fieldSchemas fields = .ok properties ↔
      List.Forall₂ (fun f p => f.name = p.1 ∧ f.type.toSchema = .ok p.2) fields properties := by
  induction fields generalizing properties with
  | nil =>
    rw [fieldSchemas, Except.ok.injEq, List.forall₂_nil_left_iff, eq_comm]
  | cons f fields ih =>
    rw [fieldSchemas, bind_eq_ok_iff, List.forall₂_cons_left_iff]
    simp only [bind_eq_ok_iff, Except.ok.injEq, ih]
    constructor
    · rintro ⟨first, hfirst, others, hothers, rfl⟩
      exact ⟨(f.name, first), others, ⟨rfl, hfirst⟩, hothers, rfl⟩
    · rintro ⟨⟨name, first⟩, others, ⟨rfl, hfirst⟩, hothers, rfl⟩
      exact ⟨first, hfirst, others, hothers, rfl⟩

theorem exists_rel_of_mem {α β : Type} {R : α → β → Prop} {xs : List α} {ys : List β}
    (h : List.Forall₂ R xs ys) : ∀ y ∈ ys, ∃ x ∈ xs, R x y := by
  induction h with
  | nil => simp
  | @cons x _ _ _ hfirst _ ih =>
    refine List.forall_mem_cons.2 ⟨⟨x, List.mem_cons_self, hfirst⟩, fun y hy => ?_⟩
    obtain ⟨x', hx', hrel⟩ := ih y hy
    exact ⟨x', List.mem_cons_of_mem x hx', hrel⟩

theorem mem_toSchemas {ts : List TypeExpr} {schemas : List Json} (h : toSchemas ts = .ok schemas) :
    ∀ s ∈ schemas, ∃ t ∈ ts, t.toSchema = .ok s :=
  exists_rel_of_mem (toSchemas_eq_ok_iff.1 h)

theorem mem_fieldSchemas {schemas : List (String × Json)} (h : fieldSchemas fields = .ok schemas) :
    ∀ p ∈ schemas, ∃ t ∈ fields.map Field.type, t.toSchema = .ok p.2 := by
  intro p hp
  obtain ⟨f, hf, -, hschema⟩ := exists_rel_of_mem (fieldSchemas_eq_ok_iff.1 h) p hp
  exact ⟨f.type, List.mem_map_of_mem hf, hschema⟩

/-- The schema of a type whose parts have the shape, and the type itself, is plain. -/
theorem isPlain_toSchema (hshape : ∀ u : TypeExpr, u.OccursIn t → u.IsShaped)
    (h : t.toSchema = .ok s) : IsPlain s := by
  induction t using induction_on_parts generalizing s with
  | step t ih =>
    have hpart : ∀ u ∈ t.parts, ∀ s, u.toSchema = .ok s → IsPlain s :=
      fun u hu s hs => ih u hu (fun v hv => hshape v (hv.tail hu)) hs
    have hparts : ∀ {ts schemas}, toSchemas ts = .ok schemas → ts ⊆ t.parts →
        ∀ s ∈ schemas, IsPlain s := by
      intro ts schemas hschemas hsub s hs
      obtain ⟨u, hu, hschema⟩ := mem_toSchemas hschemas s hs
      exact hpart u (hsub hu) s hschema
    have hself : t.IsShaped := hshape t .refl
    cases t with
    | any =>
      cases h
      exact isPlain_object (by simp)
    | boolean =>
      cases h
      exact isPlain_object (by simpa using isPlainField_type (by decide))
    | string pos length =>
      obtain ⟨bounds, hbounds, h⟩ := bind_eq_ok_iff.1 h
      cases h
      refine isPlain_object (List.forall_mem_cons.2 ⟨isPlainField_type (by decide), ?_⟩)
      exact isPlainField_of_lengthFields
        (fun _ => isPlainField_leaf (by decide) (by decide) (by decide))
        (fun _ => isPlainField_leaf (by decide) (by decide) (by decide)) hbounds
    | numeric pos name range =>
      cases h
      refine isPlain_object (List.forall_mem_cons.2 ⟨isPlainField_type ?_, ?_⟩)
      · split <;> decide
      · exact isPlainField_of_numberFields hself.ranges
    | literal pos value typeName =>
      cases h
      have hconst : IsPlainField "const" (literalValue value) :=
        isPlainField_leaf (by decide) (by decide) (by decide)
      exact isPlain_object (by simpa using hconst)
    | list pos element size =>
      obtain ⟨items, hitems, h⟩ := bind_eq_ok_iff.1 h
      obtain ⟨bounds, hbounds, h⟩ := bind_eq_ok_iff.1 h
      cases h
      have hitem : IsPlainField "items" items :=
        isPlainField_schema (by decide) (hpart element List.mem_cons_self items hitems)
      refine isPlain_object (List.forall_mem_cons.2 ⟨isPlainField_type (by decide), ?_⟩)
      refine List.forall_mem_cons.2 ⟨hitem, ?_⟩
      exact isPlainField_of_lengthFields
        (fun _ => isPlainField_leaf (by decide) (by decide) (by decide))
        (fun _ => isPlainField_leaf (by decide) (by decide) (by decide)) hbounds
    | tuple pos elements =>
      obtain ⟨items, hitems, h⟩ := bind_eq_ok_iff.1 h
      cases h
      have hitem : IsPlainField "prefixItems" (.array items) :=
        isPlainField_list (by decide) (by decide) (hparts hitems (List.Subset.refl _))
      have hrest : IsPlainField "items" (.bool false) :=
        isPlainField_schema (by decide) (isPlain_bool false)
      exact isPlain_object (by simpa using ⟨isPlainField_type (by decide), hitem, hrest⟩)
    | union pos members =>
      obtain ⟨alternatives, halternatives, h⟩ := bind_eq_ok_iff.1 h
      cases h
      have halternative : IsPlainField "anyOf" (.array alternatives) :=
        isPlainField_list (by decide) (by decide) (hparts halternatives (List.Subset.refl _))
      exact isPlain_object (by simpa using halternative)
    | reference pos path arguments =>
      cases h
      have href : IsPlainField "$ref" (.string ("#/definitions/" ++ path)) :=
        isPlainField_leaf (by decide) (by decide) (by decide)
      exact isPlain_object (by simpa using href)
    | indexed pos base indices => exact hpart base List.mem_cons_self s h
    | primitiveArray | struct | «enum» | absent | foreign => cases hself.isInline

/-- Only the schema of a struct itself describes objects, and where types are spread into it, the first
of the schemas that it is made of. -/
theorem subschema?_struct {pos : Position} {spreads : List TypeExpr}
    (hplain : ∀ u ∈ parts (.struct pos fields spreads), ∀ s, u.toSchema = .ok s → IsPlain s)
    (h : toSchema (.struct pos fields spreads) = .ok s) {path : List Schema.Step} {v : Json}
    (hv : subschema? s path = some v) :
    v.field? "exclusiveMinimum" = none ∧
      (DescribesObjects v → path = [] ∨ path = [.item "allOf" 0]) := by
  obtain ⟨properties, hproperties, h⟩ := bind_eq_ok_iff.1 h
  obtain ⟨others, hothers, h⟩ := bind_eq_ok_iff.1 h
  have hfields : IsPlainField "properties" (.object (Fields.ofList properties)) := by
    refine isPlainField_named (by decide) fun p hp => ?_
    obtain ⟨u, hu, hschema⟩ := mem_fieldSchemas hproperties p (mem_ofList hp)
    exact hplain u (List.mem_append_left _ hu) _ hschema
  have hspread : ∀ s ∈ others, IsPlain s := by
    intro s hs
    obtain ⟨u, hu, hschema⟩ := mem_toSchemas hothers s hs
    exact hplain u (List.mem_append_right _ hu) _ hschema
  cases spreads with
  | nil =>
    cases h
    obtain ⟨hnone, hnil⟩ := isPlainBelow_structSchema hfields path v hv
    exact ⟨hnone, fun hobjects => .inl (hnil hobjects)⟩
  | cons spread spreads =>
    cases h
    exact subschema?_spreadSchema hfields hspread hv

end TypeExpr

/-! ## Documents -/

/-- Whether a declaration is an alias, a struct, an enumeration or a dispatch. -/
def Declaration.isWritten : Declaration → Bool
  | .alias _ | .dispatch .. => true
  | .anonymous type => (Generator.anonymousSort? type).isSome
  | .use .. | .injection .. => false

/-- The types that are written in a declaration. A struct without a name is no type inside a declaration
but the declaration itself. -/
def Declaration.types : Declaration → List TypeExpr
  | .alias decl => [decl.target]
  | .anonymous type => type.parts
  | .dispatch _ _ _ target => [target]
  | .use .. => []
  | .injection _ _ fields => fields.map Field.type

theorem Declaration.IsPrintable.of_mem_types {decl : Declaration} (h : decl.IsPrintable) :
    ∀ t ∈ decl.types, t.IsPrintable := by
  cases decl with
  | «alias» named => simpa [types] using h.isPrintable_target
  | anonymous type =>
    cases type with
    | struct pos fields spreads =>
      intro t ht
      rcases List.mem_append.1 ht with ht | ht
      · obtain ⟨field, hfield, rfl⟩ := List.mem_map.1 ht
        exact (h.1 field hfield).isPrintable_type
      · exact h.2 t ht
    | «enum» pos variants => simp [types, TypeExpr.parts]
    | _ => exact h.elim
  | dispatch pos dispatcher indices target => simpa [types] using h.2.2
  | «use» => exact h.elim
  | injection => exact h.elim

theorem Declaration.IsPrintable.isWritten {decl : Declaration} (h : decl.IsPrintable) :
    decl.isWritten = true := by
  cases decl with
  | «alias» | dispatch => rfl
  | anonymous type =>
    cases type with
    | struct | «enum» => rfl
    | _ => exact h.elim
  | «use» | injection => exact h.elim

theorem Generator.mem_definitions {g : Generator} {base found : Fields Json} {decls : List Declaration}
    (h : (g.definitions base decls).1 = .ok found) {name : String} {schema : Json}
    (hmem : (name, schema) ∈ found) :
    (name, schema) ∈ base ∨ ∃ decl ∈ decls, ∃ number type,
      decl.definition? number = some (name, type) ∧ type.toSchema = .ok schema := by
  induction decls generalizing g base with
  | nil =>
    cases h
    exact .inl hmem
  | cons decl decls ih =>
    rcases g.definitions_cons_cases base decl with
      ⟨_, _, _, -, -, -, hrun⟩ | ⟨-, base', hrun, hbase⟩
    · rw [hrun] at h
      cases h
    · rw [hrun] at h
      rcases ih h with hset | ⟨d, hd, hrest⟩
      · rcases hbase with rfl | ⟨name', type, schema', hdef, hschema, rfl⟩
        · exact .inl hset
        · rcases Schema.mem_set hset with heq | hset
          · cases heq
            exact .inr ⟨decl, List.mem_cons_self, _, type, hdef, hschema⟩
          · exact .inl hset
      · exact .inr ⟨d, List.mem_cons_of_mem decl hd, hrest⟩

/-- The only steps from the schema of a document lead to its definitions. -/
theorem Schema.mem_definitions_of_child? {step : Step} {found : Fields Json} {s : Json}
    (h : step.child? (Generator.rootSchema found) = some s) : ∃ name, (name, s) ∈ found := by
  obtain ⟨fields, hfields, f, hf, hcarries⟩ := carries_of_child? h
  cases hfields
  simp only [List.mem_cons, List.not_mem_nil, or_false] at hf
  rcases hf with rfl | rfl | rfl
  · rcases hcarries with ⟨hk, -⟩ | ⟨hk, -⟩ | ⟨hk, -⟩ <;> exact absurd hk (by decide : "$schema" ∉ _)
  · rcases hcarries with ⟨hk, -⟩ | ⟨hk, -⟩ | ⟨hk, -⟩ <;> exact absurd hk (by decide : "type" ∉ _)
  · rcases hcarries with ⟨hk, -⟩ | ⟨hk, -⟩ | ⟨-, entries, name, hentries, hmem⟩
    · exact absurd hk (by decide : "definitions" ∉ _)
    · exact absurd hk (by decide : "definitions" ∉ _)
    · cases hentries
      exact ⟨name, hmem⟩

section

open Schema

variable {decl : Declaration} {number : Nat} {name : String} {type u : TypeExpr} {schema : Json}

/-- What occurs in a type is the type or occurs in one of its parts. -/
theorem TypeExpr.OccursIn.cases_parts (h : u.OccursIn type) :
    u = type ∨ ∃ t ∈ type.parts, u.OccursIn t := by
  rcases Relation.ReflTransGen.cases_tail h with rfl | ⟨t, hu, ht⟩
  · exact .inl rfl
  · exact .inr ⟨t, ht, hu⟩

/-- What is reached from the type of a definition can be written inside a type, or it is the struct or the
enumeration that is defined. -/
theorem isPrintable_or_of_isReachedFrom (h : decl.IsPrintable)
    (hdef : decl.definition? number = some (name, type)) (hu : u.IsReachedFrom type) :
    u.IsPrintable ∨ (Generator.anonymousSort? u).isSome = true := by
  cases decl with
  | «alias» named =>
    cases hdef
    exact .inl (h.isPrintable_target.of_occursIn hu.occursIn)
  | anonymous type' =>
    obtain ⟨sort, hsort, heq⟩ := Option.map_eq_some_iff.1 hdef
    cases heq
    rcases hu.occursIn.cases_parts with rfl | ⟨t, ht, hu⟩
    · exact .inr (Option.isSome_of_eq_some hsort)
    · exact .inl ((Declaration.IsPrintable.of_mem_types h t ht).of_occursIn hu)
  | _ => cases hdef

/-- The types of definitions, and what is reached from them, have a form that is converted. -/
theorem isUnknown_of_isReachedFrom (h : decl.IsPrintable)
    (hdef : decl.definition? number = some (name, type)) (hu : u.IsReachedFrom type) :
    u.isUnknown = false := by
  rcases isPrintable_or_of_isReachedFrom h hdef hu with hu | hu
  · have hinline := hu.isShaped.isInline
    cases u <;> first | rfl | cases hinline
  · cases u <;> first | rfl | cases hu

/-- In the schema of a definition only structs describe objects, and nothing has an exclusive lower
bound. -/
theorem subschema?_definition (h : decl.IsPrintable)
    (hdef : decl.definition? number = some (name, type)) (hschema : type.toSchema = .ok schema)
    {path : List Step} {v : Json} (hv : subschema? schema path = some v) :
    v.field? "exclusiveMinimum" = none ∧ (DescribesObjects v →
      (∃ n, name = Generator.anonymousName "Struct" n) ∧ (path = [] ∨ path = [.item "allOf" 0])) := by
  have hplain : ∀ t ∈ decl.types, ∀ s, t.toSchema = .ok s → IsPlain s := by
    intro t ht s hs
    have hprintable := h.of_mem_types t ht
    exact TypeExpr.isPlain_toSchema (fun u hu => (hprintable.of_occursIn hu).isShaped) hs
  have hnot : IsPlain schema → v.field? "exclusiveMinimum" = none ∧ (DescribesObjects v →
      (∃ n, name = Generator.anonymousName "Struct" n) ∧ (path = [] ∨ path = [.item "allOf" 0])) :=
    fun hs => ⟨(hs path v hv).1, fun hobjects => absurd hobjects (hs path v hv).2⟩
  cases decl with
  | «alias» named =>
    cases hdef
    exact hnot (hplain _ List.mem_cons_self schema hschema)
  | anonymous type' =>
    obtain ⟨sort, hsort, heq⟩ := Option.map_eq_some_iff.1 hdef
    cases heq
    cases type with
    | struct pos fields spreads =>
      cases hsort
      obtain ⟨hnone, hobjects⟩ := TypeExpr.subschema?_struct hplain hschema hv
      exact ⟨hnone, fun hv => ⟨⟨number, rfl⟩, hobjects hv⟩⟩
    | «enum» pos variants =>
      cases hschema
      apply hnot
      refine isPlain_object (List.forall_mem_cons.2 ⟨?_, by simp⟩)
      exact isPlainField_leaf (by decide : "enum" ∉ _) (by decide : "enum" ≠ _)
        (by decide : "enum" ≠ _)
    | _ => cases hsort
  | _ => cases hdef

structure IsCompiledShape (text : String) (doc : Document) : Prop where
  /-- Every declaration is an alias, a struct, an enumeration or a dispatch. -/
  isWritten : ∀ decl ∈ doc.declarations, decl.isWritten = true
  /-- What occurs in the types of a declaration is in shape. -/
  isShaped : ∀ decl ∈ doc.declarations, ∀ t ∈ decl.types, ∀ u : TypeExpr, u.OccursIn t → u.IsShaped
  /-- Whatever the conversion reaches has a form that it knows. -/
  isKnown : ∀ decl ∈ doc.declarations, ∀ number name type,
    decl.definition? number = some (name, type) →
      ∀ u : TypeExpr, u.IsReachedFrom type → u.isUnknown = false
  /-- No schema in the schema of the text has an exclusive lower bound. -/
  no_exclusiveMinimum : ∀ (g : Generator) (schema : Json), (g.compile text).1 = .ok schema →
    ∀ path u, subschema? schema path = some u → u.field? "exclusiveMinimum" = none
  /-- Only the definition of a struct describes objects, by itself or in the first of several schemas that
  have to hold together. -/
  objects : ∀ (g : Generator) (schema : Json), (g.compile text).1 = .ok schema →
    ∀ name path u, subschema? schema (.named "definitions" name :: path) = some u →
      DescribesObjects u →
        (∃ n, name = Generator.anonymousName "Struct" n) ∧ (path = [] ∨ path = [.item "allOf" 0])

/-- The definitions of the schema of a text are those of its declarations. -/
theorem exists_definition {text : String} {doc : Document} (h : Document.ofString text = .ok doc)
    {g : Generator} (hcompile : (g.compile text).1 = .ok schema) :
    ∃ found, schema = Generator.rootSchema found ∧ ∀ name s, (name, s) ∈ found →
      ∃ decl ∈ doc.declarations, ∃ number type,
        decl.definition? number = some (name, type) ∧ type.toSchema = .ok s := by
  have hrun : ((g.generate doc).1.mapError CompileFault.length) = .ok schema := by
    rw [← hcompile, Generator.compile_eq, h]
    rfl
  rw [Generator.generate_fst] at hrun
  cases hfound : (g.definitions [] doc.declarations).1 with
  | error fault =>
    rw [hfound] at hrun
    cases hrun
  | ok found =>
    rw [hfound] at hrun
    cases hrun
    refine ⟨found, rfl, fun name s hmem => ?_⟩
    rcases Generator.mem_definitions hfound hmem with hnil | hdecl
    · cases hnil
    · exact hdecl

/-- **The shape of everything that text can compile to.** -/
theorem isCompiledShape_of_ofString {text : String} {doc : Document}
    (h : Document.ofString text = .ok doc) : IsCompiledShape text doc := by
  have hprintable := (Document.isPrintable_of_ofString h).declarations
  refine ⟨fun decl hdecl => (hprintable decl hdecl).isWritten, ?_, ?_, ?_, ?_⟩
  · intro decl hdecl t ht u hu
    exact (((hprintable decl hdecl).of_mem_types t ht).of_occursIn hu).isShaped
  · intro decl hdecl number name type hdef u hu
    exact isUnknown_of_isReachedFrom (hprintable decl hdecl) hdef hu
  · intro g schema hcompile path u hu
    obtain ⟨found, rfl, hfound⟩ := exists_definition h hcompile
    cases path with
    | nil =>
      cases hu
      rfl
    | cons step path =>
      obtain ⟨s, hstep, hrest⟩ := subschema?_cons_iff.1 hu
      obtain ⟨name, hmem⟩ := mem_definitions_of_child? hstep
      obtain ⟨decl, hdecl, number, type, hdef, hschema⟩ := hfound name s hmem
      exact (subschema?_definition (hprintable decl hdecl) hdef hschema hrest).1
  · intro g schema hcompile name path u hu
    obtain ⟨found, rfl, hfound⟩ := exists_definition h hcompile
    obtain ⟨s, hstep, hrest⟩ := subschema?_cons_iff.1 hu
    have hmem : (name, s) ∈ found := mem_of_field? hstep
    obtain ⟨decl, hdecl, number, type, hdef, hschema⟩ := hfound name s hmem
    exact (subschema?_definition (hprintable decl hdecl) hdef hschema hrest).2

/-- A struct with a list in a field and with an indexed type spread into it, and an alias of a union. -/
theorem isCompiledShape_spread :
    let text := "struct \x7ba: [int @ <..<], ...b::C[k]\x7d\ntype D = any | ()"
    let element : TypeExpr := .numeric ⟨1, 13⟩ "int" (some ⟨none, none, true, true⟩)
    let doc : Document := { declarations := [.anonymous (.struct ⟨1, 1⟩
        [⟨"a", .list ⟨1, 12⟩ element none, false, none⟩]
        [.indexed ⟨1, 29⟩ (.reference ⟨1, 29⟩ "b::C" []) [.key "k"]]),
      .alias ⟨⟨2, 1⟩, "D", [], .union ⟨2, 10⟩ [.any ⟨2, 10⟩, .tuple ⟨2, 18⟩ []], none⟩] }
    Document.ofString text = .ok doc ∧ IsCompiledShape text doc := by
  intro text element doc
  have h : Document.ofString text = .ok doc := by cbv
  exact ⟨h, isCompiledShape_of_ofString h⟩

end

end McdocSchema
