import McdocSchema.Proofs.Denotation
import McdocSchema.Proofs.Numerals

/-!
# Integers that floating-point numbers can hold

A natural number keeps its value when it is rounded to a floating-point number just if it has at most 53
significant bits and no more than 971 zeros behind them (`toRat?_ofRatio_one_iff`). Otherwise it becomes
another integer or an infinity, but never a fraction. So a numeral without a point and an exponent is
read as the integer that it says, as another integer or as an infinity.
-/

namespace McdocSchema.Number

namespace Binary64

variable {negative : Bool}

/-- A mantissa of 53 bits with zeros behind it, as many as the greatest exponent allows. -/
def IsRepresentable (n : ℕ) : Prop :=
  ∃ m k : ℕ, n = m * 2 ^ k ∧ m < 2 ^ 53 ∧ k ≤ 971

theorem isRepresentable_of_lt {n : ℕ} (h : n < 2 ^ 53) : IsRepresentable n :=
  ⟨n, 0, by simp, h, by omega⟩

theorem exists_isCanonical {n : ℕ} (hn : n ≠ 0) (h : IsRepresentable n) :
    ∃ m e, IsCanonical m e ∧ (n : ℚ) = m * 2 ^ e := by
  obtain ⟨m, k, rfl, hm, hk⟩ := h
  obtain ⟨x, -, hlo, hhi⟩ := exists_exponentFor_eq hn one_ne_zero
  rw [Nat.cast_one, div_one] at hlo hhi
  have hupper : ((m * 2 ^ k : ℕ) : ℚ) < 2 ^ (53 + (k : ℤ)) := by
    rw [zpow_add₀ two_ne_zero, zpow_natCast]
    push_cast
    gcongr
    exact_mod_cast hm
  have hone : (2 : ℚ) ^ (0 : ℤ) ≤ (m * 2 ^ k : ℕ) := by
    rw [zpow_zero]
    exact_mod_cast Nat.one_le_iff_ne_zero.2 hn
  have hxk : x ≤ k := by
    have := exponent_lt_of_between hlo hupper
    omega
  have hx : minExponent ≤ x := by
    have := exponent_lt_of_between hone hhi
    rw [minExponent]
    omega
  -- The mantissa is shifted so that it has 53 bits.
  obtain ⟨j, hj⟩ := Int.eq_ofNat_of_zero_le (sub_nonneg.2 hxk)
  have hvalue : ((m * 2 ^ k : ℕ) : ℚ) = (m * 2 ^ j : ℕ) * 2 ^ x := by
    have hkx : (k : ℤ) = j + x := by omega
    push_cast
    rw [mul_assoc, ← zpow_natCast (2 : ℚ) k, hkx, zpow_add₀ two_ne_zero, zpow_natCast]
  rw [hvalue, zpow_add₀ two_ne_zero, mul_le_mul_iff_of_pos_right (by positivity)] at hlo
  rw [hvalue, zpow_add₀ two_ne_zero, mul_lt_mul_iff_of_pos_right (by positivity)] at hhi
  refine ⟨m * 2 ^ j, x, ⟨?_, hx, ?_, .inl ?_⟩, hvalue⟩
  · exact_mod_cast hhi
  · rw [maxExponent]
    omega
  · exact_mod_cast hlo

theorem isRepresentable_of_eq {n m : ℕ} {e : ℤ} (hc : IsCanonical m e) (h : (n : ℚ) = m * 2 ^ e) :
    IsRepresentable n := by
  rcases Int.le_total 0 e with he | he
  · obtain ⟨k, rfl⟩ := Int.eq_ofNat_of_zero_le he
    have hk := hc.le_maxExponent
    rw [maxExponent] at hk
    refine ⟨m, k, ?_, hc.mantissa_lt, by omega⟩
    rw [zpow_natCast] at h
    exact_mod_cast h
  · obtain ⟨k, rfl⟩ := Int.exists_eq_neg_ofNat he
    rw [zpow_neg, zpow_natCast, eq_mul_inv_iff_mul_eq₀ (by positivity)] at h
    have hm : n * 2 ^ k = m := by exact_mod_cast h
    have hle : n ≤ m := hm ▸ Nat.le_mul_of_pos_right n (by positivity)
    exact isRepresentable_of_lt (hle.trans_lt hc.mantissa_lt)

/-- An integer as the value of a finite number with that sign. -/
def signedValue (negative : Bool) (q : ℚ) : ℚ :=
  (if negative then -1 else 1) * q

theorem signedValue_inj {q r : ℚ} :
    signedValue negative q = signedValue negative r ↔ q = r := by
  cases negative <;> simp [signedValue]

theorem toRat?_finite (negative : Bool) (m : ℕ) (e : ℤ) :
    toRat? (.finite negative m e) = some (signedValue negative (m * 2 ^ e)) := by
  rw [toRat?, signedValue, mul_assoc]

/-- A rounded fraction keeps its sign, and its exponent is not less than that of the fraction. -/
theorem ofRatio_eq_or {n d : ℕ} (hn : n ≠ 0) :
    ofRatio negative n d = .infinity negative ∨
      ∃ m e, ofRatio negative n d = .finite negative m e ∧ exponentFor n d ≤ e := by
  rw [ofRatio, if_neg hn]
  dsimp only
  by_cases hround : roundHalfEven (scaleUp n (exponentFor n d)) (scaleDown d (exponentFor n d)) =
      Nat.pow 2 53
  · rw [if_pos hround]
    by_cases hmax : maxExponent < exponentFor n d + 1
    · exact .inl (if_pos hmax)
    · exact .inr ⟨_, _, if_neg hmax, by omega⟩
  · rw [if_neg hround]
    by_cases hmax : maxExponent < exponentFor n d
    · exact .inl (if_pos hmax)
    · exact .inr ⟨_, _, if_neg hmax, le_refl _⟩

/-- A natural number keeps its value when it is rounded if it is representable, and only then. -/
theorem toRat?_ofRatio_one_iff {n : ℕ} :
    (ofRatio negative n 1).toRat? = some (signedValue negative n) ↔ IsRepresentable n := by
  by_cases hn : n = 0
  · subst hn
    refine iff_of_true ?_ (isRepresentable_of_lt (by positivity))
    rw [ofRatio, if_pos rfl, zero, toRat?_finite]
    simp
  constructor
  · intro h
    have hnumber := isNumber_ofRatio negative n one_ne_zero
    rcases @ofRatio_eq_or negative n 1 hn with hx | ⟨m, e, hx, -⟩
    · rw [hx] at h
      cases h
    · rw [hx] at h hnumber
      rw [toRat?_finite, Option.some.injEq, signedValue_inj] at h
      exact isRepresentable_of_eq hnumber h.symm
  · intro h
    obtain ⟨m, e, hc, hvalue⟩ := exists_isCanonical hn h
    rw [ofRatio_of_eq negative hc one_ne_zero (by rw [Nat.cast_one, div_one, hvalue]),
      toRat?_finite, hvalue]

/-- A natural number is never rounded to a fraction. -/
theorem exists_int_of_ofRatio_one {n : ℕ} {q : ℚ}
    (h : (ofRatio negative n 1).toRat? = some q) : ∃ z : ℤ, q = z := by
  have hsigned : ∀ k : ℕ, ∃ z : ℤ, signedValue negative k = z := by
    intro k
    refine ⟨(if negative then -1 else 1) * k, ?_⟩
    cases negative <;> simp [signedValue]
  by_cases hlt : n < 2 ^ 53
  · rw [toRat?_ofRatio_one_iff.2 (isRepresentable_of_lt hlt), Option.some.injEq] at h
    rw [← h]
    exact hsigned n
  -- A number with more than 53 bits has an exponent above zero.
  have hn : n ≠ 0 := by
    rintro rfl
    exact hlt (by positivity)
  rcases @ofRatio_eq_or negative n 1 hn with hx | ⟨m, e, hx, he⟩
  · rw [hx] at h
    cases h
  · obtain ⟨x, hmax, -, hhi⟩ := exists_exponentFor_eq hn one_ne_zero
    have hlo : (2 : ℚ) ^ (53 : ℤ) ≤ n / (1 : ℕ) := by
      rw [Nat.cast_one, div_one]
      exact_mod_cast not_lt.1 hlt
    have hpos : 0 ≤ e := by
      have := exponent_lt_of_between hlo hhi
      omega
    obtain ⟨k, rfl⟩ := Int.eq_ofNat_of_zero_le hpos
    rw [hx, toRat?_finite, Option.some.injEq, zpow_natCast] at h
    rw [← h]
    exact_mod_cast hsigned (m * 2 ^ k)

end Binary64

/-! ## Numerals of integers -/

/-- A numeral without a point and an exponent. -/
structure IntegerNumeral extends Numeral where
  fraction_eq : fraction = none
  exponent_eq : exponent = none

namespace IntegerNumeral

open Binary64 (IsRepresentable signedValue ofDecimal ofRatio)

variable (a : IntegerNumeral)

/-- The integer that a numeral says. -/
def int : ℤ :=
  if a.isNegative then -(decimalDigitsValue a.whole : ℤ) else decimalDigitsValue a.whole

/-- The integer is one that a floating-point number can hold. -/
def IsExact : Prop :=
  IsRepresentable a.int.natAbs

theorem natAbs_int : a.int.natAbs = decimalDigitsValue a.whole := by
  rw [int]
  split <;> simp

theorem signedValue_eq : signedValue a.isNegative (decimalDigitsValue a.whole) = a.int := by
  rw [signedValue, int]
  split <;> simp

theorem ofDecimal_zero_eq (negative : Bool) (n : ℕ) : ofDecimal negative n 0 = ofRatio negative n 1 := by
  by_cases hn : n = 0
  · simp [ofDecimal, ofRatio, hn]
  · simp [ofDecimal, hn]

theorem value_eq : a.value = ofRatio a.isNegative (decimalDigitsValue a.whole) 1 := by
  rw [Numeral.value, Numeral.digits, Numeral.lastExponent, a.fraction_eq, a.exponent_eq,
    ← ofDecimal_zero_eq]
  simp

/-- A numeral is read as the integer that it says if that can be held, and only then. -/
theorem toRat?_value_iff : a.value.toRat? = some (a.int : ℚ) ↔ a.IsExact := by
  rw [value_eq, ← signedValue_eq, Binary64.toRat?_ofRatio_one_iff, IsExact, natAbs_int]

theorem exists_int_of_toRat?_value {q : ℚ} (h : a.value.toRat? = some q) : ∃ z : ℤ, q = z := by
  rw [value_eq] at h
  exact Binary64.exists_int_of_ofRatio_one h

theorem lengthBound_of_toRat? {x : Binary64} {z : ℤ} (h : x.toRat? = some (z : ℚ)) :
    Schema.lengthBound x = .ok (.int z) := by
  cases x with
  | nan => cases h
  | infinity negative => cases h
  | finite negative m e =>
    have hratio : ∃ n d, Binary64.toRatio? (.finite negative m e) = some (n, d) := ⟨_, _, rfl⟩
    obtain ⟨n, d, hratio⟩ := hratio
    obtain ⟨hrat, hd⟩ := Binary64.toRat?_of_toRatio? hratio
    have hd' : (d : ℚ) ≠ 0 := by exact_mod_cast hd
    rw [hrat, Option.some.injEq, div_eq_iff hd'] at h
    have hn : n = z * d := by exact_mod_cast h
    have hcut : n.tdiv d = z := by
      rw [hn, Int.mul_tdiv_cancel z (by exact_mod_cast hd)]
    show Except.ok (Json.int ((Binary64.truncate? (.finite negative m e)).getD 0)) = _
    rw [Binary64.truncate?, hratio]
    exact congrArg (fun k => Except.ok (Json.int k)) hcut

/-- A bound on a length is the integer that was written if that can be held, and only then. -/
theorem lengthBound_value_iff : Schema.lengthBound a.value = .ok (.int a.int) ↔ a.IsExact := by
  rw [← toRat?_value_iff]
  constructor
  · intro h
    have hfinite : a.value.isFinite = true := by
      cases hx : a.value with
      | finite negative m e => rfl
      | nan =>
        rw [hx] at h
        cases h
      | infinity negative =>
        rw [hx] at h
        cases h
    obtain ⟨q, hq⟩ := Binary64.exists_toRat?_of_isFinite hfinite
    obtain ⟨z, rfl⟩ := a.exists_int_of_toRat?_value hq
    rw [lengthBound_of_toRat? hq] at h
    cases h
    exact hq
  · intro h
    exact lengthBound_of_toRat? h

/-! ## The numeral of an integer -/

/-- The digits of an integer, with a minus sign if it is negative. -/
def ofInt (n : ℤ) : IntegerNumeral where
  sign := if n < 0 then ['-'] else []
  whole := natDigits n.natAbs
  fraction := none
  exponent := none
  isSign := by
    split
    · exact .inr ⟨'-', rfl, rfl⟩
    · exact .inl rfl
  whole_ne_nil := natDigits_ne_nil _
  whole_isDecimal := fun _ hc => isDecimal_of_ascii (isDigit_of_mem_natDigits hc)
  fraction_isDecimal := isDecimal_of_mem_none
  fraction_eq := rfl
  exponent_eq := rfl

theorem int_ofInt (n : ℤ) : (ofInt n).int = n := by
  rw [int, Numeral.isNegative]
  show (if ((if n < 0 then ['-'] else [] : List Char) == ['-']) = true then
    -(decimalDigitsValue (natDigits n.natAbs) : ℤ) else decimalDigitsValue (natDigits n.natAbs)) = n
  rw [decimalDigitsValue_natDigits]
  by_cases hn : n < 0
  · rw [if_pos (by simp [hn])]
    omega
  · rw [if_neg (by simp [hn])]
    omega

end IntegerNumeral

end McdocSchema.Number
