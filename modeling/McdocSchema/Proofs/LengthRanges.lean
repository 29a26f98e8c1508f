import Mathlib.Tactic.NormNum
import McdocSchema.Proofs.Meaning

/-!
# Ranges of lengths

For the lengths of strings and the sizes of lists only the bounds of a range are written, and both are
taken as inclusive: such a schema describes the closed range (`NumberRange.closed`). So it is wrong about a
length exactly if the length is a bound that the range leaves out and the closed range does not.
-/

namespace McdocSchema

open Number (Binary64)

namespace NumberRange

/-- The range with both of its bounds in it. -/
def closed (range : NumberRange) : NumberRange :=
  { range with minExclusive := false, maxExclusive := false }

/-- Whether the bounds that are given are integers. -/
def isIntegral (range : NumberRange) : Bool :=
  range.min.all Binary64.isIntegral && range.max.all Binary64.isIntegral

/-- The number is a bound at an exclusive end. -/
def IsOpenEnd (range : NumberRange) (q : ℚ) : Prop :=
  (range.minExclusive = true ∧ ∃ b ∈ range.min, b.toRat? = some q) ∨
    (range.maxExclusive = true ∧ ∃ b ∈ range.max, b.toRat? = some q)

theorem isFinite_of_isIntegral {x : Binary64} (h : x.isIntegral = true) : x.isFinite = true := by
  cases x with
  | nan => cases h
  | infinity negative => cases h
  | finite negative m e => rfl

theorem isExactRange_of_isIntegral {range : NumberRange} (h : range.isIntegral = true) :
    TypeExpr.isExactRange (some range) = true := by
  rw [isIntegral, Bool.and_eq_true, Option.all_eq_true, Option.all_eq_true] at h
  rw [TypeExpr.isExactRange, Option.all_some, Bool.and_eq_true, Option.all_eq_true,
    Option.all_eq_true]
  exact ⟨fun b hb => isFinite_of_isIntegral (h.1 b hb), fun b hb => isFinite_of_isIntegral (h.2 b hb)⟩

theorem isExactLength_closed {range : NumberRange} (h : range.isIntegral = true) :
    TypeExpr.isExactLength (some range.closed) = true := by
  simpa [TypeExpr.isExactLength, TypeExpr.isExactBound, closed, isIntegral] using h

/-- An end that is exclusive leaves out its bound and nothing else. -/
theorem end_iff {bound : Option Binary64} {exclusive : Bool} {q : ℚ} {R S : ℚ → Prop}
    (h : ∀ x, S x ↔ R x ∧ x ≠ q) :
    (∀ b ∈ bound, ∀ x ∈ b.toRat?, if exclusive then S x else R x) ↔
      (∀ b ∈ bound, ∀ x ∈ b.toRat?, R x) ∧
        ¬ (exclusive = true ∧ ∃ b ∈ bound, b.toRat? = some q) := by
  cases exclusive with
  | false => simp
  | true =>
    simp only [if_true, h, true_and, not_exists, not_and]
    constructor
    · intro hall
      exact ⟨fun b hb x hx => (hall b hb x hx).1, fun b hb hq => (hall b hb q hq).2 rfl⟩
    · rintro ⟨hall, hne⟩ b hb x hx
      refine ⟨hall b hb x hx, ?_⟩
      rintro rfl
      exact hne b hb hx

/-- A number is in a range if it is in the closed range and is no bound at an exclusive end. -/
theorem admits_iff_closed {range : NumberRange} {q : ℚ} :
    range.Admits q ↔ range.closed.Admits q ∧ ¬ range.IsOpenEnd q := by
  have hmin := @end_iff range.min range.minExclusive q (· ≤ q) (· < q) fun _ => lt_iff_le_and_ne
  have hmax := @end_iff range.max range.maxExclusive q (q ≤ ·) (q < ·) fun x => by
    rw [lt_iff_le_and_ne, ne_comm]
  rw [Admits, hmin, hmax, IsOpenEnd, not_or, and_and_and_comm]
  rfl

end NumberRange

namespace Schema

open TypeExpr

variable {env : String → Instance → Prop} {range : NumberRange}

/-- What is described by the closed range is described as the range says, except at an exclusive
end. -/
theorem iff_admits_iff {q : ℚ} {P : Prop} (h : P ↔ range.closed.Admits q) :
    (P ↔ range.Admits q) ↔ ¬ (range.closed.Admits q ∧ range.IsOpenEnd q) := by
  have hrange := @NumberRange.admits_iff_closed range q
  tauto

variable (env range) in
theorem exists_stringSchema_closed (pos : Position) (h : range.isIntegral = true) :
    ∃ schema, toSchema (.string pos (some range)) = .ok schema ∧
      ∀ s : String, Validates env schema (.string s) ↔ range.closed.Admits s.length := by
  obtain ⟨schema, hs, hmeans⟩ :=
    exists_stringSchema env pos (NumberRange.isExactLength_closed h)
  refine ⟨schema, hs, ?_⟩
  intro s
  rw [hmeans, Denotes]
  simp [InRange]

variable (env range) in
theorem exists_listSchema_closed (pos pos' : Position) (h : range.isIntegral = true) :
    ∃ schema, toSchema (.list pos (.any pos') (some range)) = .ok schema ∧
      ∀ items : List Instance,
        Validates env schema (.array items) ↔ range.closed.Admits items.length := by
  obtain ⟨any, hany, hmeans⟩ := exists_schema env (.any pos') rfl
  obtain ⟨schema, hs, hmeans⟩ :=
    exists_listSchema pos (NumberRange.isExactLength_closed h) hany hmeans
  refine ⟨schema, hs, ?_⟩
  intro items
  rw [hmeans, Denotes]
  simp [InRange, Denotes]

variable (env) in
/-- **Lengths and exclusive ends.** For a range with integral bounds, the schema of a string and that
of a list are right about a length unless it is a bound at an exclusive end which the closed range
has. The schema of a numeric type is right about every number. -/
theorem lengths_exclusive_iff (pos pos' : Position) (h : range.isIntegral = true) :
    (∃ schema, toSchema (.string pos (some range)) = .ok schema ∧
      ∀ s : String, (Validates env schema (.string s) ↔ range.Admits s.length) ↔
        ¬ (range.closed.Admits s.length ∧ range.IsOpenEnd s.length)) ∧
    (∃ schema, toSchema (.list pos (.any pos') (some range)) = .ok schema ∧
      ∀ items : List Instance, (Validates env schema (.array items) ↔ range.Admits items.length) ↔
        ¬ (range.closed.Admits items.length ∧ range.IsOpenEnd items.length)) ∧
    ∀ name, ∃ schema, toSchema (.numeric pos name (some range)) = .ok schema ∧
      ∀ q : ℚ, Validates env schema (.number q) ↔
        (name ∉ ["float", "double"] → ∃ n : ℤ, q = n) ∧ range.Admits q := by
  refine ⟨?_, ?_, ?_⟩
  · obtain ⟨schema, hs, hclosed⟩ := exists_stringSchema_closed env range pos h
    exact ⟨schema, hs, fun s => iff_admits_iff (hclosed s)⟩
  · obtain ⟨schema, hs, hclosed⟩ := exists_listSchema_closed env range pos pos' h
    exact ⟨schema, hs, fun items => iff_admits_iff (hclosed items)⟩
  · intro name
    refine ⟨_, rfl, ?_⟩
    intro q
    rw [validates_numeric_iff (NumberRange.isExactRange_of_isIntegral h), IsNumeric]
    simp [InRange]

/-- Lengths from one to less than three. -/
theorem lengths_exclusive_below_three :
    let range : NumberRange := { min := some 1, max := some 3, maxExclusive := true }
    range.isIntegral = true ∧
    (∃ schema, toSchema (.string .start (some range)) = .ok schema ∧
      ∀ s : String, (Validates (fun _ _ => False) schema (.string s) ↔ range.Admits s.length) ↔
        ¬ (range.closed.Admits s.length ∧ range.IsOpenEnd s.length)) ∧
    (∃ schema, toSchema (.list .start (.any .start) (some range)) = .ok schema ∧
      ∀ items : List Instance,
        (Validates (fun _ _ => False) schema (.array items) ↔ range.Admits items.length) ↔
          ¬ (range.closed.Admits items.length ∧ range.IsOpenEnd items.length)) ∧
    ∀ name, ∃ schema, toSchema (.numeric .start name (some range)) = .ok schema ∧
      ∀ q : ℚ, Validates (fun _ _ => False) schema (.number q) ↔
        (name ∉ ["float", "double"] → ∃ n : ℤ, q = n) ∧ range.Admits q := by
  intro range
  have h : range.isIntegral = true := by decide
  exact ⟨h, lengths_exclusive_iff _ .start .start h⟩

/-- A string and a list with three elements are valid where less than three are asked for. -/
theorem three_validates_below_three :
    let range : NumberRange := { min := some 1, max := some 3, maxExclusive := true }
    range.isIntegral = true ∧ ¬ range.Admits 3 ∧
    (∃ schema, toSchema (.string .start (some range)) = .ok schema ∧
      Validates (fun _ _ => False) schema (.string "abc")) ∧
    ∃ schema, toSchema (.list .start (.any .start) (some range)) = .ok schema ∧
      Validates (fun _ _ => False) schema (.array [.null, .null, .null]) := by
  intro range
  have h : range.isIntegral = true := by decide
  have hone : (1 : Binary64).toRat? = some 1 := by
    have hratio : (1 : Binary64).toRatio? = some (4503599627370496, 4503599627370496) := by decide
    rw [(Binary64.toRat?_of_toRatio? hratio).1]
    norm_num
  have hthree : (3 : Binary64).toRat? = some 3 := by
    have hratio : (3 : Binary64).toRatio? = some (6755399441055744, 2251799813685248) := by decide
    rw [(Binary64.toRat?_of_toRatio? hratio).1]
    norm_num
  have hclosed : range.closed.Admits 3 := by
    simp [NumberRange.Admits, NumberRange.closed, range, hone, hthree]
  refine ⟨h, ?_, ?_, ?_⟩
  · simp [NumberRange.Admits, range, hone, hthree]
  · obtain ⟨schema, hs, hmeans⟩ := exists_stringSchema_closed (fun _ _ => False) range .start h
    exact ⟨schema, hs, (hmeans "abc").2 hclosed⟩
  · obtain ⟨schema, hs, hmeans⟩ := exists_listSchema_closed (fun _ _ => False) range .start .start h
    exact ⟨schema, hs, (hmeans [.null, .null, .null]).2 hclosed⟩

end Schema

end McdocSchema
