import McdocSchema.Proofs.Failures
import McdocSchema.Proofs.GeneratedJson

/-!
# Types without a schema

A type has no schema just if a bound on a length or a size is not finite, in a node that the conversion
comes to. The conversion fails with the first of them in the order in which it looks at them
(`TypeExpr.lengthBounds`): those of the parts of a node come before its own, a lower bound before an
upper one.
-/

namespace McdocSchema

open Number (Binary64)

/-- What keeps a number from being a length. -/
def LengthFault.of? : Binary64 → Option LengthFault
  | .nan => some .notANumber
  | .infinity _ => some .infinite
  | .finite .. => none

theorem LengthFault.of?_eq_none_iff {x : Binary64} : of? x = none ↔ x.isFinite = true := by
  cases x <;> simp [of?, Binary64.isFinite]

namespace Schema

variable {α β : Type}
variable {x : Except LengthFault α}

/-- The fault of a conversion that fails. -/
def fault? : Except LengthFault α → Option LengthFault
  | .error fault => some fault
  | .ok _ => none

theorem fault?_eq_some_iff {fault : LengthFault} :
    fault? x = some fault ↔ x = .error fault := by
  cases x <;> simp [fault?]

theorem fault?_eq_none_iff : fault? x = none ↔ ∃ a, x = .ok a := by
  cases x <;> simp [fault?]

theorem fault?_bind {f : α → Except LengthFault β}
    {later : Option LengthFault} (hf : ∀ a, fault? (f a) = later) :
    fault? (x >>= f) = (fault? x).or later := by
  cases x with
  | error fault => rfl
  | ok a => exact hf a

theorem fault?_bind_ok {f : α → β} :
    fault? (x >>= fun a => .ok (f a)) = fault? x := by
  cases x <;> rfl

/-! ## Ranges -/

theorem fault?_boundField (key : String) (x : Option Binary64) :
    fault? (boundField key x) = x.toList.findSome? LengthFault.of? := by
  cases x with
  | none => rfl
  | some x => cases x <;> rfl

theorem fault?_lengthFields (minKey maxKey : String) (range : Option NumberRange) :
    fault? (lengthFields minKey maxKey range) =
      (range.toList.flatMap NumberRange.bounds).findSome? LengthFault.of? := by
  cases range with
  | none => rfl
  | some r =>
    have hmax : ∀ low, fault? (boundField maxKey r.max >>= fun high => .ok (low ++ high)) =
        r.max.toList.findSome? LengthFault.of? := by
      intro low
      rw [fault?_bind_ok, fault?_boundField]
    rw [lengthFields, fault?_bind hmax, fault?_boundField, Option.toList_some,
      List.flatMap_singleton, NumberRange.bounds, List.findSome?_append]

end Schema

namespace TypeExpr

open Schema

/-! ## Types -/

theorem fault?_toSchemas (ts : List TypeExpr) :
    fault? (toSchemas ts) = ts.findSome? fun t => fault? t.toSchema := by
  induction ts with
  | nil => rfl
  | cons t ts ih =>
    have hlater : ∀ schema, fault? (toSchemas ts >>= fun schemas => .ok (schema :: schemas)) =
        ts.findSome? fun t => fault? t.toSchema := by
      intro schema
      rw [fault?_bind_ok, ih]
    rw [toSchemas, fault?_bind hlater, List.findSome?_cons]
    cases fault? t.toSchema <;> rfl

theorem fault?_fieldSchemas (fields : List (Field TypeExpr)) :
    fault? (fieldSchemas fields) =
      (fields.map Field.type).findSome? fun t => fault? t.toSchema := by
  induction fields with
  | nil => rfl
  | cons field fields ih =>
    obtain ⟨name, type, optional, doc⟩ := field
    have hlater : ∀ schema, fault? (fieldSchemas fields >>= fun schemas =>
        .ok ((name, schema) :: schemas)) =
        (fields.map Field.type).findSome? fun t => fault? t.toSchema := by
      intro schema
      rw [fault?_bind_ok, ih]
    rw [fieldSchemas, fault?_bind hlater, List.map_cons, List.findSome?_cons]
    cases fault? type.toSchema <;> rfl

/-- A type fails as the first of its parts that fails, else at its own bounds. -/
theorem fault?_toSchema (t : TypeExpr) :
    fault? t.toSchema = (t.convertedParts.findSome? fun u => fault? u.toSchema).or
      ((t.lengths.flatMap NumberRange.bounds).findSome? LengthFault.of?) := by
  cases t with
  | string pos length => rw [toSchema, fault?_bind_ok, fault?_lengthFields]; rfl
  | list pos element size =>
    have hsize : ∀ items, fault? (lengthFields "minItems" "maxItems" size >>= fun bounds =>
        .ok (Json.object ([("type", .string "array"), ("items", items)] ++ bounds))) =
        (size.toList.flatMap NumberRange.bounds).findSome? LengthFault.of? := by
      intro items
      rw [fault?_bind_ok, fault?_lengthFields]
    rw [toSchema, fault?_bind hsize]
    cases hfault : fault? element.toSchema <;> simp [convertedParts, parts, lengths, hfault]
  | tuple pos elements =>
    rw [toSchema, fault?_bind_ok, fault?_toSchemas]
    simp [convertedParts, parts, lengths]
  | union pos members =>
    rw [toSchema, fault?_bind_ok, fault?_toSchemas]
    simp [convertedParts, parts, lengths]
  | struct pos fields spreads =>
    have hspreads : ∀ finish : List Json → Json,
        fault? (toSchemas spreads >>= fun others => .ok (finish others)) =
          spreads.findSome? fun t => fault? t.toSchema := by
      intro finish
      rw [fault?_bind_ok, fault?_toSchemas]
    rw [toSchema, fault?_bind fun properties => hspreads _, fault?_fieldSchemas]
    simp [convertedParts, parts, lengths]
  | indexed pos base indices =>
    rw [toSchema]
    cases hfault : fault? base.toSchema <;> simp [convertedParts, parts, lengths, hfault]
  | _ => rfl

/-- The bounds on lengths and sizes that the conversion of a type looks at, in its order. -/
def lengthBounds (t : TypeExpr) : List Binary64 :=
  t.convertedParts.attach.flatMap (fun u =>
    have := sizeOf_lt_of_mem_parts (convertedParts_subset t u.2)
    lengthBounds u.1) ++ t.lengths.flatMap NumberRange.bounds
termination_by sizeOf t

theorem lengthBounds_eq (t : TypeExpr) :
    t.lengthBounds = t.convertedParts.flatMap lengthBounds ++ t.lengths.flatMap NumberRange.bounds := by
  rw [lengthBounds, List.flatMap_subtype (g := lengthBounds) fun _ _ => rfl, List.unattach_attach]

theorem findSome?_flatMap {α β γ : Type} {xs : List α} {f : α → List β} {g : β → Option γ}
    {k : α → Option γ} (h : ∀ x ∈ xs, (f x).findSome? g = k x) :
    (xs.flatMap f).findSome? g = xs.findSome? k := by
  induction xs with
  | nil => rfl
  | cons x xs ih =>
    rw [List.flatMap_cons, List.findSome?_append, h x List.mem_cons_self,
      ih fun y hy => h y (List.mem_cons_of_mem x hy), List.findSome?_cons]
    cases k x <;> rfl

/-- The conversion of a type fails with the first bound that is not finite. -/
theorem fault?_toSchema_eq_findSome? (t : TypeExpr) :
    fault? t.toSchema = t.lengthBounds.findSome? LengthFault.of? := by
  induction t using induction_on_parts with
  | step t ih =>
    rw [fault?_toSchema, lengthBounds_eq, List.findSome?_append]
    congr 1
    exact (findSome?_flatMap fun u hu => (ih u (convertedParts_subset t hu)).symm).symm

/-- The bounds that are looked at are those of the nodes that the conversion comes to. -/
theorem mem_lengthBounds_iff {t : TypeExpr} {x : Binary64} : x ∈ t.lengthBounds ↔
    ∃ u : TypeExpr, u.IsReachedFrom t ∧ ∃ r ∈ u.lengths, x ∈ r.bounds := by
  induction t using induction_on_parts with
  | step t ih =>
    rw [lengthBounds_eq, List.mem_append, List.mem_flatMap, List.mem_flatMap]
    constructor
    · rintro (⟨part, hpart, hx⟩ | hx)
      · obtain ⟨u, hu, hx⟩ := (ih part (convertedParts_subset t hpart)).1 hx
        exact ⟨u, hu.tail hpart, hx⟩
      · exact ⟨t, .refl, hx⟩
    · rintro ⟨u, hu, hx⟩
      rcases hu.cases_tail with rfl | ⟨part, hu, hpart⟩
      · exact .inr hx
      · exact .inl ⟨part, hpart, (ih part (convertedParts_subset t hpart)).2 ⟨u, hu, hx⟩⟩

/-- **A type has a schema unless a length is not finite.** The conversion fails just if a string or a list
that it comes to has a bound that is infinite or no number, and else there is a schema. It fails with what
is wrong about the first such bound, in the order in which the bounds are looked at. -/
theorem toSchema_error_iff (t : TypeExpr) :
    ((∃ fault, t.toSchema = .error fault) ↔ ∃ u : TypeExpr, u.IsReachedFrom t ∧
      ∃ r ∈ u.lengths, ∃ x ∈ r.bounds, x.isFinite = false) ∧
    (∀ fault, t.toSchema = .error fault ↔ ∃ before x after,
      t.lengthBounds = before ++ x :: after ∧ LengthFault.of? x = some fault ∧
        ∀ y ∈ before, y.isFinite = true) ∧
    ((∃ schema, t.toSchema = .ok schema) ↔ ∀ u : TypeExpr, u.IsReachedFrom t →
      ∀ r ∈ u.lengths, ∀ x ∈ r.bounds, x.isFinite = true) := by
  have hok : (∃ schema, t.toSchema = .ok schema) ↔ ∀ u : TypeExpr, u.IsReachedFrom t →
      ∀ r ∈ u.lengths, ∀ x ∈ r.bounds, x.isFinite = true := by
    rw [← fault?_eq_none_iff, fault?_toSchema_eq_findSome?, List.findSome?_eq_none_iff]
    simp only [LengthFault.of?_eq_none_iff, mem_lengthBounds_iff]
    exact ⟨fun h u hu r hr x hx => h x ⟨u, hu, r, hr, hx⟩,
      fun h x ⟨u, hu, r, hr, hx⟩ => h u hu r hr x hx⟩
  refine ⟨?_, ?_, hok⟩
  · have hfails : (∃ fault, t.toSchema = .error fault) ↔ ¬ ∃ schema, t.toSchema = .ok schema := by
      cases t.toSchema <;> simp
    rw [hfails, hok]
    simp
  · intro fault
    rw [← fault?_eq_some_iff, fault?_toSchema_eq_findSome?, List.findSome?_eq_some_iff]
    simp only [LengthFault.of?_eq_none_iff]

-- The element comes before the size of its list.
example : (TypeExpr.list .start (.string .start (some { max := some .nan }))
    (some { min := some (.infinity false) })).toSchema = .error .notANumber := rfl

end TypeExpr

end McdocSchema
