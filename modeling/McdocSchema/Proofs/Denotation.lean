import Mathlib.Data.List.Nodup
import McdocSchema.Proofs.Validation
import McdocSchema.Schema.Conversion

/-!
# What types mean

The data that a type stands for, said without schemas. An integral type stands for all integers; how
wide they may be is not said. A struct stands for the objects that have no key outside its fields,
every field that is not optional, and for each field data of its type. `TypeExpr.isExact` tells the types
whose schemas are exact.
-/

namespace McdocSchema

open Number (Binary64)

/-! ## Bounds -/

/-- The number lies between the bounds that are given. -/
def NumberRange.Admits (range : NumberRange) (q : ℚ) : Prop :=
  (∀ b ∈ range.min, ∀ x ∈ b.toRat?, if range.minExclusive then x < q else x ≤ q) ∧
    ∀ b ∈ range.max, ∀ x ∈ b.toRat?, if range.maxExclusive then q < x else q ≤ x

/-- The number is in the range, if there is one. -/
def InRange (range : Option NumberRange) (q : ℚ) : Prop :=
  ∀ r ∈ range, r.Admits q

namespace Number.Binary64

/-- Whether a number is an integer. -/
def isIntegral (x : Binary64) : Bool :=
  match x.toRatio? with
  | some (n, d) => n % d == 0
  | none => false

theorem toRat?_of_toRatio? {x : Binary64} {n : Int} {d : Nat} (h : x.toRatio? = some (n, d)) :
    x.toRat? = some ((n : ℚ) / d) ∧ d ≠ 0 := by
  cases x with
  | nan => cases h
  | infinity negative => cases h
  | finite negative m e =>
    rw [toRatio?, Option.some.injEq, Prod.mk.injEq] at h
    obtain ⟨rfl, rfl⟩ := h
    have hpow : ((scaleDown m e : ℕ) : ℚ) / (scaleUp 1 e : ℕ) = m * 2 ^ e := by
      rw [scaleDown, scaleUp, Nat.shiftLeft_eq, Nat.shiftLeft_eq]
      -- One of the two powers is one.
      rcases Int.eq_nat_or_neg e with ⟨k, rfl | rfl⟩
      · simp
      · simp [div_eq_mul_inv]
    refine ⟨?_, by simp [scaleUp, Nat.shiftLeft_eq]⟩
    rw [toRat?, Option.some.injEq, mul_assoc, ← hpow]
    cases negative
    · simp
    · simp [neg_div]

theorem exists_toRat?_of_isFinite {x : Binary64} (h : x.isFinite = true) :
    ∃ q, x.toRat? = some q := by
  cases x with
  | nan => cases h
  | infinity negative => cases h
  | finite negative m e => exact ⟨_, rfl⟩

theorem exists_int_of_isIntegral {x : Binary64} (h : x.isIntegral = true) :
    ∃ n : ℤ, x.toRat? = some (n : ℚ) ∧ Schema.lengthBound x = .ok (.int n) := by
  cases x with
  | nan => cases h
  | infinity negative => cases h
  | finite negative m e =>
    cases hr : toRatio? (.finite negative m e) with
    | none => cases hr
    | some p =>
      obtain ⟨n, d⟩ := p
      obtain ⟨hrat, hd⟩ := toRat?_of_toRatio? hr
      rw [isIntegral, hr] at h
      obtain ⟨k, rfl⟩ := Int.dvd_of_emod_eq_zero (eq_of_beq h)
      have hd' : (d : Int) ≠ 0 := by exact_mod_cast hd
      have hcut : ((d : Int) * k).tdiv d = k := Int.mul_tdiv_cancel_left k hd'
      refine ⟨k, ?_, ?_⟩
      · rw [hrat]
        push_cast
        rw [mul_div_cancel_left₀]
        exact_mod_cast hd
      · rw [Schema.lengthBound, truncate?, hr, Option.map_some]
        show Except.ok (Json.int (((d : Int) * k).tdiv d)) = _
        rw [hcut]

end Number.Binary64

/-! ## Types -/

/-- The data of a numeric type: numbers for `float` and `double`, and integers for the others. -/
def IsNumeric (name : String) (range : Option NumberRange) (v : Instance) : Prop :=
  ∃ q : ℚ, v = .number q ∧ (name ∉ ["float", "double"] → ∃ n : ℤ, q = n) ∧ InRange range q

/-- The objects with the given fields: no key is outside of them, every field that is not optional is
present, and what is present fits its field. -/
def IsRecord (fields : List (Field (Instance → Prop))) (v : Instance) : Prop :=
  ∃ members, v = .object members ∧
    (∀ m ∈ members, ∃ f ∈ fields, f.name = m.1) ∧
    (∀ f ∈ fields, f.optional = false → ∃ m ∈ members, m.1 = f.name) ∧
    ∀ f ∈ fields, ∀ m ∈ members, m.1 = f.name → f.type m.2

/-- The values of an enumeration: the numbers if every variant has one, else the names. -/
def IsVariant (variants : List Variant) (v : Instance) : Prop :=
  if ∀ x ∈ variants, x.value.isSome then ∃ x ∈ variants, ∃ n ∈ x.value, v = .number n
  else ∃ x ∈ variants, v = .string x.name

namespace TypeExpr

section Denotation

variable (env : String → Instance → Prop)

mutual

/-- The data that a type stands for; `env` says what the references stand for. Of an indexed type and
of nodes that are no types nothing is known. -/
def Denotes : TypeExpr → Instance → Prop
  | .any _, _ => True
  | .boolean _, v => ∃ b, v = .bool b
  | .string _ length, v => ∃ s, v = .string s ∧ InRange length s.length
  | .numeric _ name range, v => IsNumeric name range v
  | .literal _ (.text s) _, v => v = .string s
  | .literal _ (.flag b) _, v => v = .bool b
  | .literal _ .null _, v => v = .null
  | .primitiveArray _ element values size, v =>
    ∃ items, v = .array items ∧ (∀ x ∈ items, IsNumeric element values x) ∧
      InRange size items.length
  | .list _ element size, v =>
    ∃ items, v = .array items ∧ (∀ x ∈ items, Denotes element x) ∧ InRange size items.length
  | .tuple _ elements, v =>
    ∃ items, v = .array items ∧ List.Forall₂ (fun P x => P x) (denotations elements) items
  | .union _ members, v => ∃ P ∈ denotations members, P v
  | .reference _ path _, v => env path v
  | .struct _ fields spreads, v => IsRecord (recordFields fields ++ spreadFields spreads) v
  | .enum _ variants, v => IsVariant variants v
  | .indexed .., _ | .absent, _ | .foreign .., _ => True

/-- The data that each of the types stands for. -/
def denotations : List TypeExpr → List (Instance → Prop)
  | [] => []
  | t :: types => Denotes t :: denotations types

/-- The fields with the data that their types stand for. -/
def recordFields : List (Field TypeExpr) → List (Field (Instance → Prop))
  | [] => []
  | ⟨name, type, optional, doc⟩ :: fields =>
    ⟨name, Denotes type, optional, doc⟩ :: recordFields fields

/-- The fields of the structs that are spread. -/
def spreadFields : List TypeExpr → List (Field (Instance → Prop))
  | [] => []
  | .struct _ fields spreads :: types =>
    recordFields fields ++ spreadFields spreads ++ spreadFields types
  | _ :: types => spreadFields types

end

variable {env}

theorem denotations_eq_map (types : List TypeExpr) :
    denotations env types = types.map (Denotes env) := by
  induction types with
  | nil => rfl
  | cons t types ih => rw [denotations, ih, List.map_cons]

theorem recordFields_eq_map (fields : List (Field TypeExpr)) :
    recordFields env fields = fields.map fun f => { f with type := Denotes env f.type } := by
  induction fields with
  | nil => rfl
  | cons f fields ih => rw [recordFields, ih, List.map_cons]

end Denotation

/-! ## The exact fragment -/

/-- Whether a bound that is given on a length is an integer and belongs to the range. -/
def isExactBound (bound : Option Binary64) (exclusive : Bool) : Bool :=
  bound.all fun x => x.isIntegral && !exclusive

/-- Whether the bounds that are given on a length are integers and belong to the range. -/
def isExactLength (range : Option NumberRange) : Bool :=
  range.all fun r => isExactBound r.min r.minExclusive && isExactBound r.max r.maxExclusive

/-- Whether the bounds that are given on a number are finite. -/
def isExactRange (range : Option NumberRange) : Bool :=
  range.all fun r => r.min.all Binary64.isFinite && r.max.all Binary64.isFinite

mutual

/-- Whether the schema of a type is exact. -/
def isExact : TypeExpr → Bool
  | .any _ | .boolean _ | .literal .. | .enum .. | .reference .. => true
  | .string _ length => isExactLength length
  | .numeric _ _ range => isExactRange range
  | .list _ element size => isExact element && isExactLength size
  | .union _ members => areExact members
  | .struct _ fields [] => fieldsAreExact fields && decide (fields.map Field.name).Nodup
  | _ => false

/-- Whether the schemas of the types are exact. -/
def areExact : List TypeExpr → Bool
  | [] => true
  | t :: types => isExact t && areExact types

/-- Whether the schemas of the fields are exact. -/
def fieldsAreExact : List (Field TypeExpr) → Bool
  | [] => true
  | ⟨_, type, _, _⟩ :: fields => isExact type && fieldsAreExact fields

end

end TypeExpr

end McdocSchema
