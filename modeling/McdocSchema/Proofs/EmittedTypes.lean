import McdocSchema.Proofs.DeclaredFields
import McdocSchema.Proofs.DefinitionTable
import McdocSchema.Proofs.EditedTexts

/-!
# Where types are emitted

The schema of a type stands in the schema of the document at the end of a path of steps: the definition of
an alias or of a struct or enumeration without a name, and from there into its parts. `ConvertsAt` gives the
path for every type that the conversion reaches and that no later declaration hides; that the schema is
there is `Document.ConvertsAt.subschema?`. The path does not depend on the paths of references.
-/

namespace McdocSchema

open Schema

theorem Schema.subschema?_append (s : Json) (front back : List Step) :
    subschema? s (front ++ back) = (subschema? s front).bind fun u => subschema? u back := by
  induction front generalizing s with
  | nil => rfl
  | cons step front ih =>
    rw [List.cons_append, subschema?, subschema?]
    cases step.child? s with
    | none => rfl
    | some u => exact ih u

/-! ## Parts of types -/

namespace TypeExpr

/-- The second type is a part of the first one, and its schema is behind these steps. -/
inductive PartAt : TypeExpr → TypeExpr → List Step → Prop
  | element {pos : Position} {u : TypeExpr} {size : Option NumberRange} :
      PartAt (.list pos u size) u [.schema "items"]
  | entry {pos : Position} {elements : List TypeExpr} {u : TypeExpr} {k : Nat}
      (h : elements[k]? = some u) : PartAt (.tuple pos elements) u [.item "prefixItems" k]
  | member {pos : Position} {members : List TypeExpr} {u : TypeExpr} {k : Nat}
      (h : members[k]? = some u) : PartAt (.union pos members) u [.item "anyOf" k]
  | base {pos : Position} {u : TypeExpr} {indices : List Index} : PartAt (.indexed pos u indices) u []
  | field {pos : Position} {fields : List (Field TypeExpr)} {spreads : List TypeExpr} {name : String}
      {f : Field TypeExpr} (h : Field.last? fields name = some f) :
      PartAt (.struct pos fields spreads) f.type (objectPath spreads ++ [.named "properties" name])
  | spread {pos : Position} {fields : List (Field TypeExpr)} {spreads : List TypeExpr} {u : TypeExpr}
      {k : Nat} (h : spreads[k]? = some u) : PartAt (.struct pos fields spreads) u [.item "allOf" (k + 1)]

variable {t u : TypeExpr} {steps : List Step} {s : Json}

theorem exists_toSchema_of_getElem? {ts : List TypeExpr} {schemas : List Json} {k : Nat}
    (h : toSchemas ts = .ok schemas) (hk : ts[k]? = some u) :
    ∃ s, u.toSchema = .ok s ∧ schemas[k]? = some s := by
  have hall := toSchemas_eq_ok_iff.1 h
  induction hall generalizing k with
  | nil => cases hk
  | cons hfirst hothers ih =>
    cases k with
    | zero =>
      cases hk
      exact ⟨_, hfirst, rfl⟩
    | succ k => exact ih (toSchemas_eq_ok_iff.2 hothers) hk

theorem child?_item {keyword : String} {fields : List (String × Json)} {items : List Json} {k : Nat}
    (hkeyword : keyword ∈ listKeywords) (h : (Json.object fields).field? keyword = some (.array items)) :
    (Step.item keyword k).child? (.object fields) = items[k]? := by
  rw [Step.child?, if_pos hkeyword, h]
  rfl

theorem PartAt.subschema? (h : t.PartAt u steps) (ht : t.toSchema = .ok s) :
    ∃ s', u.toSchema = .ok s' ∧ Schema.subschema? s steps = some s' := by
  cases h with
  | element =>
    obtain ⟨items, hitems, ht⟩ := bind_eq_ok_iff.1 ht
    obtain ⟨bounds, -, ht⟩ := bind_eq_ok_iff.1 ht
    cases ht
    exact ⟨items, hitems, rfl⟩
  | entry h =>
    obtain ⟨items, hitems, ht⟩ := bind_eq_ok_iff.1 ht
    cases ht
    obtain ⟨s', hs', hk⟩ := exists_toSchema_of_getElem? hitems h
    refine ⟨s', hs', ?_⟩
    rw [Schema.subschema?, child?_item (by decide) rfl, hk]
    rfl
  | member h =>
    obtain ⟨items, hitems, ht⟩ := bind_eq_ok_iff.1 ht
    cases ht
    obtain ⟨s', hs', hk⟩ := exists_toSchema_of_getElem? hitems h
    refine ⟨s', hs', ?_⟩
    rw [Schema.subschema?, child?_item (by decide) rfl, hk]
    rfl
  | base => exact ⟨s, ht, rfl⟩
  | @field pos fields spreads name f h =>
    obtain ⟨properties, hproperties, ht⟩ := bind_eq_ok_iff.1 ht
    obtain ⟨others, -, ht⟩ := bind_eq_ok_iff.1 ht
    have hget := get?_ofList_fieldSchemas hproperties name
    rw [h] at hget
    obtain ⟨s', hs', hok⟩ := Option.map_eq_some_iff.1 hget
    have hproperty : ((Fields.ofList properties).get? name).bind some = some s' := by
      rw [hs', Option.bind_some]
    refine ⟨s', hok.symm, ?_⟩
    cases spreads with
    | nil =>
      cases ht
      exact hproperty
    | cons spread spreads =>
      cases ht
      exact hproperty
  | @spread pos fields spreads u k h =>
    obtain ⟨properties, -, ht⟩ := bind_eq_ok_iff.1 ht
    obtain ⟨others, hothers, ht⟩ := bind_eq_ok_iff.1 ht
    obtain ⟨s', hs', hk⟩ := exists_toSchema_of_getElem? hothers h
    refine ⟨s', hs', ?_⟩
    cases spreads with
    | nil => cases h
    | cons spread spreads =>
      cases ht
      rw [Schema.subschema?, spreadSchema, child?_item (by decide) rfl, List.getElem?_cons_succ, hk]
      rfl

theorem PartAt.repath (h : t.PartAt u steps) (pos : Position) (path : String) :
    (t.repath pos path).PartAt (u.repath pos path) steps := by
  have hmap : ∀ {ts : List TypeExpr} {u : TypeExpr} {k : Nat}, ts[k]? = some u →
      (repathAll pos path ts)[k]? = some (u.repath pos path) := by
    intro ts u k h
    rw [repathAll_eq, List.getElem?_map, h]
    rfl
  cases h with
  | element => exact .element
  | entry h => exact .entry (hmap h)
  | member h => exact .member (hmap h)
  | base => exact .base
  | @field p fields spreads name f h =>
    have hlast : Field.last? (repathFields pos path fields) name = some (f.repath pos path) := by
      rw [repathFields_eq, Field.last?, ← List.map_reverse, List.find?_map]
      show (Field.last? fields name).map _ = _
      rw [h]
      rfl
    have hobject : objectPath (repathAll pos path spreads) = objectPath spreads := by
      cases spreads <;> rfl
    rw [← hobject]
    exact .field hlast
  | spread h => exact .spread (hmap h)

end TypeExpr

/-! ## Documents -/

namespace Document

open Generator (anonymousName anonymousSort? rootSchema)

/-- The type is converted with the document, and its schema is behind these steps. Structs and enumerations
without a name are numbered from the given number on. -/
inductive ConvertsAt (numbered : Nat) (doc : Document) : TypeExpr → List Step → Prop
  | alias {front back : List Declaration} {named : Alias}
      (h : doc.declarations = front ++ .alias named :: back)
      (hlast : ∀ other : Alias, .alias other ∈ back → other.name ≠ named.name) :
      ConvertsAt numbered doc named.target [.named "definitions" named.name]
  | anonymous {front back : List Declaration} {type : TypeExpr} {sort : String}
      (h : doc.declarations = front ++ .anonymous type :: back) (hsort : anonymousSort? type = some sort) :
      ConvertsAt numbered doc type [.named "definitions"
        (anonymousName sort (numbered + front.countP Declaration.isNumbered + 1))]
  | part {t u : TypeExpr} {steps more : List Step} (h : ConvertsAt numbered doc t steps)
      (hpart : t.PartAt u more) : ConvertsAt numbered doc u (steps ++ more)

variable {numbered : Nat} {doc : Document} {t : TypeExpr} {steps : List Step} {g : Generator}
  {found : Fields Json}

theorem child?_definitions (found : Fields Json) (name : String) :
    (Step.named "definitions" name).child? (rootSchema found) = found.get? name := rfl

/-- **Types are emitted where they are converted.** -/
theorem ConvertsAt.subschema? (h : doc.ConvertsAt g.numbered t steps)
    (hdecls : ∀ decl ∈ doc.declarations, decl.KeepsApart)
    (hfound : (g.definitions [] doc.declarations).1 = .ok found) :
    ∃ s, t.toSchema = .ok s ∧ Schema.subschema? (rootSchema found) steps = some s := by
  have hdefinitions := Generator.areDefinitions_of_definitions hdecls hfound
  induction h with
  | @«alias» front back named h hlast =>
    obtain ⟨s, hs, hget⟩ := hdefinitions.aliases front named back h hlast
    exact ⟨s, hs, by rw [Schema.subschema?, child?_definitions, hget]; rfl⟩
  | anonymous h hsort =>
    obtain ⟨s, hs, hget⟩ := hdefinitions.anonymous _ _ _ _ h hsort
    exact ⟨s, hs, by rw [Schema.subschema?, child?_definitions, hget]; rfl⟩
  | part _ hpart ih =>
    obtain ⟨s, hs, hsub⟩ := ih
    obtain ⟨s', hs', hsub'⟩ := hpart.subschema? hs
    exact ⟨s', hs', by rw [Schema.subschema?_append, hsub]; exact hsub'⟩

theorem ConvertsAt.repath (h : doc.ConvertsAt numbered t steps) (pos : Position) (path : String) :
    (doc.repath pos path).ConvertsAt numbered (t.repath pos path) steps := by
  induction h with
  | @«alias» front back named h hlast =>
    have hdecls : (doc.repath pos path).declarations = front.map (Declaration.repath pos path) ++
        .alias { named with target := named.target.repath pos path } ::
          back.map (Declaration.repath pos path) := by
      rw [Document.repath, h, List.map_append, List.map_cons]
      rfl
    refine .alias hdecls fun other hother => ?_
    obtain ⟨decl, hdecl, heq⟩ := List.mem_map.1 hother
    cases decl with
    | «alias» before =>
      cases heq
      exact hlast before hdecl
    | _ => cases heq
  | @anonymous front back type sort h hsort =>
    have hdecls : (doc.repath pos path).declarations = front.map (Declaration.repath pos path) ++
        .anonymous (type.repath pos path) :: back.map (Declaration.repath pos path) := by
      rw [Document.repath, h, List.map_append, List.map_cons]
      rfl
    have hnumbered : (front.map (Declaration.repath pos path)).countP Declaration.isNumbered =
        front.countP Declaration.isNumbered := by
      rw [List.countP_map]
      congr 1
      funext decl
      cases decl with
      | anonymous type => cases type <;> rfl
      | _ => rfl
    rw [← hnumbered]
    exact .anonymous hdecls ((type.anonymousSort?_repath pos path).trans hsort)
  | part _ hpart ih => exact .part ih (hpart.repath pos path)

end Document

/-! ## Labels -/

open Generator (anonymousName rootSchema)

/-- What the schema has if a declaration with the given number, or one of its members, is given the name.
An alias is defined under the name, and a field is a property under it, unless the name is used again behind
it; a variant is among the values of its enumeration, unless all variants have values of their own. -/
def Declaration.IsShown (number : Nat) (back : List Declaration) (name : String) (schema : Json) :
    Option Nat → Declaration → Prop
  | none, .alias named =>
    (∀ other : Alias, .alias other ∈ back → other.name ≠ name) →
      ∃ s, named.target.toSchema = .ok s ∧ subschema? schema [.named "definitions" name] = some s
  | some j, .anonymous (.struct _ fields spreads) =>
    ∀ f, fields[j]? = some f → (∀ other ∈ fields.drop (j + 1), other.name ≠ name) →
      ∃ s, f.type.toSchema = .ok s ∧
        subschema? schema ([.named "definitions" (anonymousName "Struct" number)] ++
          (TypeExpr.objectPath spreads ++ [.named "properties" name])) = some s
  | some j, .anonymous (.enum _ variants) =>
    j < variants.length → (∃ v ∈ variants, v.value = none) →
      ∃ items, subschema? schema [.named "definitions" (anonymousName "Enum" number)] =
        some (.object [("enum", .array items)]) ∧ items[j]? = some (.string name)
  | _, _ => True

/-- What the schema of a document has if the label at a spot is given the name. -/
def Spot.IsShown (spot : Spot) (numbered : Nat) (doc : Document) (name : String) (schema : Json) : Prop :=
  ∀ front decl back, doc.declarations = front ++ decl :: back → front.length = spot.declaration →
    decl.IsShown (numbered + front.countP Declaration.isNumbered + 1) back name schema spot.member

theorem modify_append_cons {α : Type} (front back : List α) (a : α) (f : α → α) :
    (front ++ a :: back).modify front.length f = front ++ f a :: back := by
  induction front with
  | nil => rfl
  | cons b front ih => exact congrArg (b :: ·) ih

theorem Field.last?_append_cons {front back : List (Field TypeExpr)} {f : Field TypeExpr}
    (hlast : ∀ other ∈ back, other.name ≠ f.name) :
    Field.last? (front ++ f :: back) f.name = some f := by
  have hnone : back.reverse.find? (fun other => other.name == f.name) = none := by
    simpa using hlast
  rw [Field.last?, List.reverse_append, List.reverse_cons, List.append_assoc, List.find?_append, hnone]
  simp

theorem Schema.enumSchema_of_none {variants : List Variant} (h : none ∈ variants.map Variant.value) :
    enumSchema variants = .object [("enum", .array (variants.map fun v => .string v.name))] := by
  have hlength : (variants.filterMap Variant.value).length ≠ variants.length := by
    obtain ⟨v, hv, hnone⟩ := List.mem_map.1 h
    have := List.length_filterMap_lt_length_iff_exists.2 ⟨v, hv, hnone⟩
    omega
  rw [enumSchema, if_neg hlength]

theorem Spot.isShown_of_definitions {spot : Spot} {doc : Document} {label : Label} {g : Generator}
    {found : Fields Json} (hdecls : ∀ decl ∈ (doc.setLabel spot label).declarations, decl.KeepsApart)
    (hfound : (g.definitions [] (doc.setLabel spot label).declarations).1 = .ok found) :
    spot.IsShown g.numbered doc label.name (rootSchema found) := by
  obtain ⟨i, member⟩ := spot
  rintro front decl back h rfl
  have hset : (doc.setLabel ⟨front.length, member⟩ label).declarations =
      front ++ decl.setLabel label member :: back := by
    rw [Document.setLabel, h, modify_append_cons]
  cases member with
  | none =>
    cases decl with
    | «alias» named =>
      intro hlast
      exact (Document.ConvertsAt.alias hset hlast).subschema? hdecls hfound
    | _ => trivial
  | some j =>
    cases decl with
    | anonymous type =>
      cases type with
      | struct pos fields spreads =>
        intro f hf hlast
        obtain ⟨hlt, rfl⟩ := List.getElem?_eq_some_iff.1 hf
        let f' : Field TypeExpr := { fields[j] with name := label.name, doc := label.doc }
        have hfields : fields.modify j (fun f => { f with name := label.name, doc := label.doc }) =
            fields.take j ++ f' :: fields.drop (j + 1) := by
          rw [List.modify_eq_take_cons_drop hlt]
        have hname : Field.last? (fields.modify j fun f =>
            { f with name := label.name, doc := label.doc }) label.name = some f' := by
          rw [hfields]
          exact Field.last?_append_cons hlast
        exact ((Document.ConvertsAt.anonymous hset rfl).part (.field hname)).subschema? hdecls hfound
      | «enum» pos variants =>
        rintro hj ⟨v, hv, hnone⟩
        obtain ⟨s, hs, hsub⟩ := (Document.ConvertsAt.anonymous hset rfl).subschema? hdecls hfound
        cases hs
        have hvalues : none ∈ (variants.modify j fun v =>
            { v with name := label.name, doc := label.doc }).map Variant.value := by
          rw [map_modify_of_eq (f := Variant.value) (by exact fun _ => rfl), ← hnone]
          exact List.mem_map_of_mem hv
        rw [enumSchema_of_none hvalues] at hsub
        refine ⟨_, hsub, ?_⟩
        simp [hj]
      | _ => trivial
    | _ => trivial

end McdocSchema
