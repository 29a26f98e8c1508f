import McdocSchema.Proofs.Failures
import McdocSchema.Proofs.Meaning

/-!
# Tuples

The schema of a tuple has one schema for each element, and it allows no further items. Nothing asks for the
items to be there: the schema describes the arrays whose items fit the first elements of the tuple. These
are the tuples themselves only for the tuple without elements.
-/

namespace McdocSchema.Schema

open TypeExpr

variable {env : String → Instance → Prop} {v : Instance}

theorem map_validates_of_toSchemas {ts : List TypeExpr} {schemas : List Json}
    (h : toSchemas ts = .ok schemas) : schemas.map (Validates env) = ts.map (Fits env) := by
  rw [toSchemas_eq_ok_iff] at h
  induction h with
  | nil => rfl
  | cons hschema _ ih => rw [List.map_cons, List.map_cons, validates_eq_fits hschema, ih]

/-- Items fit the beginning of a list of meanings if there are not too many, and each fits its own. -/
theorem forall₂_take_iff {meanings : List (Instance → Prop)} {items : List Instance} :
    List.Forall₂ (fun P x => P x) (meanings.take items.length) items ↔
      (∀ p ∈ meanings.zip items, p.1 p.2) ∧ items.drop meanings.length = [] := by
  induction items generalizing meanings with
  | nil => simp
  | cons x items ih =>
    cases meanings with
    | nil => simp
    | cons P meanings =>
      simp only [List.length_cons, List.take_succ_cons, List.drop_succ_cons, List.zip_cons_cons,
        List.forall₂_cons, List.forall_mem_cons, ih, and_assoc]

/-- What the keywords of a tuple's schema say together. -/
theorem validates_tupleSchema_iff {schemas : List Json} :
    Validates env (.object [("type", .string "array"), ("prefixItems", .array schemas),
      ("items", .bool false)]) v ↔ ∃ items, v = .array items ∧
        List.Forall₂ (fun P x => P x) ((schemas.map (Validates env)).take items.length) items := by
  have hlength : ∀ front rest, prefixLength (("type", .string front) ::
      ("prefixItems", .array schemas) :: rest) = (schemas.map (Validates env)).length :=
    fun _ _ => (List.length_map (Validates env)).symm
  rw [validates_object_iff, allHold_cons, allHold_cons, allHold_cons, holds_type_iff,
    holds_prefixItems_iff, holds_items_iff, and_iff_left allHold_nil, hlength]
  simp only [forall₂_take_iff, validates_bool_iff, Bool.false_eq_true, imp_false,
    ← List.eq_nil_iff_forall_not_mem]
  constructor
  · rintro ⟨⟨items, rfl⟩, hfit, hnone⟩
    exact ⟨items, rfl, hfit items rfl, hnone items rfl⟩
  · rintro ⟨items, rfl, hfit, hnone⟩
    refine ⟨⟨items, rfl⟩, ?_, ?_⟩
    · rintro _ ⟨⟩
      exact hfit
    · rintro _ ⟨⟩
      exact hnone

/-- **Tuples fix the types of their items but not the number.** A tuple has a schema if its elements have
schemas. The arrays that are valid against it are those whose items fit the first elements of the tuple,
so that they are the arrays with one fitting item for each element just if there are no elements. -/
theorem validates_tuple_iff (env : String → Instance → Prop) (pos : Position)
    (elements : List TypeExpr) :
    (∃ fault, toSchema (.tuple pos elements) = .error fault ∧
      ∃ t ∈ elements, t.toSchema = .error fault) ∨
    ∃ schema, toSchema (.tuple pos elements) = .ok schema ∧
      (∀ v, Validates env schema v ↔ ∃ items, v = .array items ∧
        List.Forall₂ (Fits env) (elements.take items.length) items) ∧
      ((∀ v, Validates env schema v ↔ ∃ items, v = .array items ∧
        List.Forall₂ (Fits env) elements items) ↔ elements = []) := by
  cases h : toSchemas elements with
  | error fault =>
    refine .inl ⟨fault, ?_, exists_mem_of_toSchemas_error h⟩
    rw [toSchema, h]
    rfl
  | ok schemas =>
    have hvalid : ∀ v, Validates env (.object [("type", .string "array"),
        ("prefixItems", .array schemas), ("items", .bool false)]) v ↔ ∃ items, v = .array items ∧
          List.Forall₂ (Fits env) (elements.take items.length) items := by
      intro v
      simp only [validates_tupleSchema_iff, map_validates_of_toSchemas h, ← List.map_take,
        List.forall₂_map_left_iff]
    refine .inr ⟨_, by rw [toSchema, h]; rfl, hvalid, ?_, ?_⟩
    · -- the array without items is always valid
      intro hclaim
      have hempty := (hvalid (.array [])).2 ⟨[], rfl, by simp⟩
      obtain ⟨items, hitems, hfit⟩ := (hclaim (.array [])).1 hempty
      cases hitems
      exact List.forall₂_nil_right_iff.1 hfit
    · rintro rfl
      simpa using hvalid

/-- The tuple of one string admits the array without items. -/
theorem tuple_admits_missing_item :
    ∃ schema, toSchema (.tuple .start [.string .start none]) = .ok schema ∧
      Validates (fun _ _ => False) schema (.array []) ∧
      ¬ ∃ items, Instance.array [] = .array items ∧
        List.Forall₂ (Fits fun _ _ => False) [.string .start none] items := by
  refine ⟨_, rfl, validates_tupleSchema_iff.2 ⟨[], rfl, by simp⟩, ?_⟩
  rintro ⟨items, hitems, hfit⟩
  cases hitems
  cases hfit

end McdocSchema.Schema
