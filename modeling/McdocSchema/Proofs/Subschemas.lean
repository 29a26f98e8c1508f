import Mathlib
import McdocSchema.Schema.Conversion

/-!
# The schemas inside a schema

A schema holds further schemas behind some of its keywords: one, a list of them, or one for each of some
names. A path of such steps leads to every schema inside (`subschema?`), and never into the constants,
the names and the options that are written behind other keywords.

A schema is plain if no schema inside it describes objects or has an exclusive lower bound. That can be
told field by field (`isPlain_object`).
-/

namespace McdocSchema.Schema

/-! ## Steps into a schema -/

/-- The keywords behind which a schema is written. -/
def schemaKeywords : List String :=
  ["items", "additionalProperties", "contains", "propertyNames", "not", "if", "then", "else",
    "unevaluatedItems", "unevaluatedProperties", "contentSchema"]

/-- The keywords behind which a list of schemas is written. -/
def listKeywords : List String := ["prefixItems", "anyOf", "allOf", "oneOf"]

/-- The keywords behind which schemas are written under names. -/
def namedKeywords : List String :=
  ["properties", "patternProperties", "dependentSchemas", "$defs", "definitions"]

/-- A step from a schema to one that is written behind a keyword of it. -/
inductive Step
  | schema (keyword : String)
  | item (keyword : String) (index : Nat)
  | named (keyword name : String)
  deriving DecidableEq, Repr

/-- The schema that a step leads to. -/
def Step.child? : Step → Json → Option Json
  | .schema keyword, s => if keyword ∈ schemaKeywords then s.field? keyword else none
  | .item keyword index, s =>
    if keyword ∈ listKeywords then ((s.field? keyword).bind Json.items?).bind (·[index]?) else none
  | .named keyword name, s =>
    if keyword ∈ namedKeywords then (s.field? keyword).bind (Json.field? name) else none

/-- The schema that a path of steps leads to. -/
def subschema? (s : Json) : List Step → Option Json
  | [] => some s
  | step :: path => (step.child? s).bind fun u => subschema? u path

/-- The schema says that a value is an object, or what it has in common with several schemas. -/
def DescribesObjects (s : Json) : Prop :=
  s.field? "type" = some (.string "object") ∨ s.field? "allOf" ≠ none

/-- What is written behind the keyword has the schema `u` in it. -/
def Carries (keyword : String) (value u : Json) : Prop :=
  keyword ∈ schemaKeywords ∧ value = u ∨
  keyword ∈ listKeywords ∧ (∃ items, value = .array items ∧ u ∈ items) ∨
  keyword ∈ namedKeywords ∧ ∃ fields name, value = .object fields ∧ (name, u) ∈ fields

variable {fields : List (String × Json)} {key : String} {s u value : Json} {step : Step}
  {path : List Step}

theorem mem_of_field? (h : (Json.object fields).field? key = some value) : (key, value) ∈ fields := by
  obtain ⟨before, after, rfl, -⟩ := List.lookup_eq_some_iff.1 h
  simp

theorem subschema?_cons_iff :
    subschema? s (step :: path) = some u ↔ ∃ t, step.child? s = some t ∧ subschema? t path = some u :=
  Option.bind_eq_some_iff

/-- A step goes into a field. -/
theorem carries_of_child? (h : step.child? s = some u) :
    ∃ fields, s = .object fields ∧ ∃ f ∈ fields, Carries f.1 f.2 u := by
  have hobject : ∀ {key value}, s.field? key = some value →
      ∃ fields, s = .object fields ∧ (key, value) ∈ fields := by
    intro key value hfield
    cases s with
    | object fields => exact ⟨fields, rfl, mem_of_field? hfield⟩
    | _ => cases hfield
  cases step with
  | schema keyword =>
    obtain ⟨hk, hfield⟩ := Option.ite_none_right_eq_some.1 h
    obtain ⟨fields, rfl, hmem⟩ := hobject hfield
    exact ⟨fields, rfl, _, hmem, .inl ⟨hk, rfl⟩⟩
  | item keyword index =>
    obtain ⟨hk, hfield⟩ := Option.ite_none_right_eq_some.1 h
    obtain ⟨items, hitems, hu⟩ := Option.bind_eq_some_iff.1 hfield
    obtain ⟨value, hvalue, harray⟩ := Option.bind_eq_some_iff.1 hitems
    obtain ⟨fields, rfl, hmem⟩ := hobject hvalue
    cases value with
    | array items' =>
      cases harray
      exact ⟨fields, rfl, _, hmem, .inr (.inl ⟨hk, _, rfl, List.mem_of_getElem? hu⟩)⟩
    | _ => cases harray
  | named keyword name =>
    obtain ⟨hk, hfield⟩ := Option.ite_none_right_eq_some.1 h
    obtain ⟨value, hvalue, hu⟩ := Option.bind_eq_some_iff.1 hfield
    obtain ⟨fields, rfl, hmem⟩ := hobject hvalue
    cases value with
    | object inner =>
      exact ⟨fields, rfl, _, hmem, .inr (.inr ⟨hk, inner, name, rfl, mem_of_field? hu⟩)⟩
    | _ => cases hu

/-! ## Plain schemas -/

/-- No schema inside, and not the schema itself, describes objects or has an exclusive lower bound. -/
def IsPlain (s : Json) : Prop :=
  ∀ path u, subschema? s path = some u → u.field? "exclusiveMinimum" = none ∧ ¬ DescribesObjects u

/-- A field that a plain schema may have. -/
structure IsPlainField (key : String) (value : Json) : Prop where
  ne_exclusiveMinimum : key ≠ "exclusiveMinimum"
  ne_allOf : key ≠ "allOf"
  type_ne : key = "type" → value ≠ .string "object"
  carried : ∀ u, Carries key value u → IsPlain u

theorem isPlain_bool (b : Bool) : IsPlain (.bool b) := by
  intro path u h
  cases path with
  | nil =>
    cases h
    exact ⟨rfl, by simp [DescribesObjects, Json.field?]⟩
  | cons step path =>
    obtain ⟨t, hstep, -⟩ := subschema?_cons_iff.1 h
    obtain ⟨fields, hfields, -⟩ := carries_of_child? hstep
    cases hfields

theorem field?_eq_none (h : ∀ f ∈ fields, f.1 ≠ key) : (Json.object fields).field? key = none := by
  cases hfield : (Json.object fields).field? key with
  | none => rfl
  | some value => exact absurd rfl (h _ (mem_of_field? hfield))

/-- Only the schema itself may describe objects, and no schema inside has an exclusive lower bound. -/
def IsPlainBelow (s : Json) : Prop :=
  ∀ path u, subschema? s path = some u →
    u.field? "exclusiveMinimum" = none ∧ (DescribesObjects u → path = [])

theorem isPlainBelow_object (hmin : ∀ f ∈ fields, f.1 ≠ "exclusiveMinimum")
    (h : ∀ f ∈ fields, ∀ u, Carries f.1 f.2 u → IsPlain u) : IsPlainBelow (.object fields) := by
  intro path u hu
  cases path with
  | nil =>
    cases hu
    exact ⟨field?_eq_none hmin, fun _ => rfl⟩
  | cons step path =>
    obtain ⟨t, hstep, hrest⟩ := subschema?_cons_iff.1 hu
    obtain ⟨fields', hfields, f, hf, hcarries⟩ := carries_of_child? hstep
    cases hfields
    obtain ⟨hnone, hnot⟩ := h f hf t hcarries path u hrest
    exact ⟨hnone, fun hobjects => absurd hobjects hnot⟩

theorem isPlain_object (h : ∀ f ∈ fields, IsPlainField f.1 f.2) : IsPlain (.object fields) := by
  have hbelow : IsPlainBelow (.object fields) :=
    isPlainBelow_object (fun f hf => (h f hf).ne_exclusiveMinimum) fun f hf => (h f hf).carried
  intro path u hu
  obtain ⟨hnone, hnil⟩ := hbelow path u hu
  refine ⟨hnone, fun hobjects => ?_⟩
  obtain rfl := hnil hobjects
  cases hu
  rcases hobjects with htype | hall
  · exact (h _ (mem_of_field? htype)).type_ne rfl rfl
  · exact hall (field?_eq_none fun f hf => (h f hf).ne_allOf)

theorem isPlainField_type {name : String} (h : name ≠ "object") :
    IsPlainField "type" (.string name) := by
  refine ⟨by decide, by decide, fun _ => by simpa using h, ?_⟩
  rintro u (⟨hk, -⟩ | ⟨hk, -⟩ | ⟨hk, -⟩)
  · exact absurd hk (by decide)
  · exact absurd hk (by decide)
  · exact absurd hk (by decide)

/-- A keyword behind which no schemas are written. -/
theorem isPlainField_leaf (hkey : key ∉ schemaKeywords ++ listKeywords ++ namedKeywords)
    (hne : key ≠ "exclusiveMinimum") (htype : key ≠ "type") : IsPlainField key value := by
  simp only [List.mem_append, not_or] at hkey
  refine ⟨hne, ?_, fun hk => absurd hk htype, ?_⟩
  · rintro rfl
    exact hkey.1.2 (by decide)
  · rintro u (⟨hk, -⟩ | ⟨hk, -⟩ | ⟨hk, -⟩)
    · exact absurd hk hkey.1.1
    · exact absurd hk hkey.1.2
    · exact absurd hk hkey.2

theorem isPlainField_schema (hkey : key ∈ schemaKeywords) (h : IsPlain value) :
    IsPlainField key value := by
  have hothers : ∀ k ∈ schemaKeywords, k ∉ listKeywords ∧ k ∉ namedKeywords ∧
      k ≠ "exclusiveMinimum" ∧ k ≠ "allOf" ∧ k ≠ "type" := by decide
  obtain ⟨hlist, hnamed, hmin, hall, htype⟩ := hothers key hkey
  refine ⟨hmin, hall, fun hk => absurd hk htype, ?_⟩
  rintro u (⟨-, rfl⟩ | ⟨hk, -⟩ | ⟨hk, -⟩)
  · exact h
  · exact absurd hk hlist
  · exact absurd hk hnamed

theorem isPlainField_list {items : List Json} (hkey : key ∈ listKeywords) (hall : key ≠ "allOf")
    (h : ∀ s ∈ items, IsPlain s) : IsPlainField key (.array items) := by
  have hothers : ∀ k ∈ listKeywords, k ∉ schemaKeywords ∧ k ∉ namedKeywords ∧
      k ≠ "exclusiveMinimum" ∧ k ≠ "type" := by decide
  obtain ⟨hschema, hnamed, hmin, htype⟩ := hothers key hkey
  refine ⟨hmin, hall, fun hk => absurd hk htype, ?_⟩
  rintro u (⟨hk, -⟩ | ⟨-, items', hitems, hu⟩ | ⟨hk, -⟩)
  · exact absurd hk hschema
  · cases hitems
    exact h u hu
  · exact absurd hk hnamed

theorem isPlainField_named {entries : List (String × Json)} (hkey : key ∈ namedKeywords)
    (h : ∀ e ∈ entries, IsPlain e.2) : IsPlainField key (.object entries) := by
  have hothers : ∀ k ∈ namedKeywords, k ∉ schemaKeywords ∧ k ∉ listKeywords ∧
      k ≠ "exclusiveMinimum" ∧ k ≠ "allOf" ∧ k ≠ "type" := by decide
  obtain ⟨hschema, hlist, hmin, hall, htype⟩ := hothers key hkey
  refine ⟨hmin, hall, fun hk => absurd hk htype, ?_⟩
  rintro u (⟨hk, -⟩ | ⟨hk, -⟩ | ⟨-, entries', name, hentries, hu⟩)
  · exact absurd hk hschema
  · exact absurd hk hlist
  · cases hentries
    exact h _ hu

end McdocSchema.Schema
