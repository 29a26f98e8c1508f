import McdocSchema.Proofs.CanonicalForm

/-!
# Rounding depends on the value alone

A fraction is rounded by its value, however it is written (`ofRatio_of_div_eq`). The cases in which a
decimal is answered without its power of ten agree with the others, so that a decimal is read by its value
as well (`ofDecimal_of_value_eq`).
-/

namespace McdocSchema.Number

/-! ## Quotients -/

/-- A common factor does not matter to a rounded quotient. -/
theorem roundHalfEven_mul_mul (k n d : ℕ) (hk : 0 < k) :
    roundHalfEven (k * n) (k * d) = roundHalfEven n d := by
  have hlow : 2 * (k * (n % d)) < k * d ↔ 2 * (n % d) < d := by
    rw [mul_left_comm, Nat.mul_lt_mul_left hk]
  have hhigh : k * d < 2 * (k * (n % d)) ↔ d < 2 * (n % d) := by
    rw [mul_left_comm, Nat.mul_lt_mul_left hk]
  simp only [roundHalfEven, Nat.mul_div_mul_left _ _ hk, Nat.mul_mod_mul_left, hlow, hhigh]

theorem roundHalfEven_of_mul_eq {n d n' d' : ℕ} (hd : 0 < d) (hd' : 0 < d')
    (h : n * d' = n' * d) : roundHalfEven n d = roundHalfEven n' d' := by
  calc roundHalfEven n d = roundHalfEven (d' * n) (d' * d) := (roundHalfEven_mul_mul d' n d hd').symm
    _ = roundHalfEven (d * n') (d * d') := by rw [mul_comm d' n, h, mul_comm n' d, mul_comm d' d]
    _ = roundHalfEven n' d' := roundHalfEven_mul_mul d n' d' hd

theorem roundHalfEven_eq_zero {n d : ℕ} (h : 2 * n < d) : roundHalfEven n d = 0 := by
  have hlt : n < d := by omega
  rw [roundHalfEven, Nat.mod_eq_of_lt hlt, Nat.div_eq_of_lt hlt, if_pos h]

namespace Binary64

variable {n d n' d' : ℕ}

/-! ## Fractions -/

theorem exponentFor_of_div_eq (hn : n ≠ 0) (hd : d ≠ 0) (hn' : n' ≠ 0) (hd' : d' ≠ 0)
    (h : (n : ℚ) / d = n' / d') : exponentFor n d = exponentFor n' d' := by
  obtain ⟨x, hx, hlo, hhi⟩ := exists_exponentFor_eq hn hd
  obtain ⟨y, hy, hlo', hhi'⟩ := exists_exponentFor_eq hn' hd'
  rw [← h] at hlo' hhi'
  have hxy := exponent_lt_of_between hlo hhi'
  have hyx := exponent_lt_of_between hlo' hhi
  rw [hx, hy]
  congr 1
  omega

theorem mul_scaleDown_eq (hd : d ≠ 0) (hd' : d' ≠ 0) (h : (n : ℚ) / d = n' / d') (e : ℤ) :
    scaleUp n e * scaleDown d' e = scaleUp n' e * scaleDown d e := by
  have hpos : (scaleDown d e : ℚ) ≠ 0 := by
    exact_mod_cast (scaleDown_pos (Nat.pos_of_ne_zero hd) e).ne'
  have hpos' : (scaleDown d' e : ℚ) ≠ 0 := by
    exact_mod_cast (scaleDown_pos (Nat.pos_of_ne_zero hd') e).ne'
  have hscaled : (scaleUp n e : ℚ) / scaleDown d e = scaleUp n' e / scaleDown d' e := by
    rw [scaleUp_div_scaleDown, scaleUp_div_scaleDown, h]
  rw [div_eq_div_iff hpos hpos'] at hscaled
  exact_mod_cast hscaled

/-- Equal fractions are rounded to the same number. -/
theorem ofRatio_of_div_eq (negative : Bool) (hd : d ≠ 0) (hd' : d' ≠ 0)
    (h : (n : ℚ) / d = n' / d') : ofRatio negative n d = ofRatio negative n' d' := by
  have hq : (d : ℚ) ≠ 0 := by exact_mod_cast hd
  have hq' : (d' : ℚ) ≠ 0 := by exact_mod_cast hd'
  by_cases hn : n = 0
  · have hn' : n' = 0 := by
      rw [hn, Nat.cast_zero, zero_div, eq_comm, div_eq_zero_iff, or_iff_left hq'] at h
      exact_mod_cast h
    rw [hn, hn', ofRatio, ofRatio, if_pos rfl, if_pos rfl]
  · have hn' : n' ≠ 0 := by
      rintro rfl
      rw [Nat.cast_zero, zero_div, div_eq_zero_iff, or_iff_left hq] at h
      exact hn (by exact_mod_cast h)
    have hexponent := exponentFor_of_div_eq hn hd hn' hd' h
    have hround := roundHalfEven_of_mul_eq
      (scaleDown_pos (Nat.pos_of_ne_zero hd) (exponentFor n' d'))
      (scaleDown_pos (Nat.pos_of_ne_zero hd') (exponentFor n' d'))
      (mul_scaleDown_eq hd hd' h (exponentFor n' d'))
    rw [ofRatio, ofRatio, if_neg hn, if_neg hn']
    simp only [hexponent, hround]

/-- A value beyond the finite numbers is rounded to an infinity. -/
theorem ofRatio_of_le (negative : Bool) (hn : n ≠ 0) (hd : d ≠ 0)
    (h : (2 : ℚ) ^ (1024 : ℤ) ≤ n / d) : ofRatio negative n d = .infinity negative := by
  obtain ⟨x, hx, -, hhi⟩ := exists_exponentFor_eq hn hd
  have hbig : maxExponent < exponentFor n d := by
    have := exponent_lt_of_between h hhi
    rw [maxExponent]
    omega
  rw [ofRatio, if_neg hn]
  dsimp only
  by_cases hround : roundHalfEven (scaleUp n (exponentFor n d)) (scaleDown d (exponentFor n d)) =
      Nat.pow 2 53
  · rw [if_pos hround]
    exact if_pos (by omega)
  · rw [if_neg hround]
    exact if_pos hbig

/-- A value below half of the least number is rounded to zero. -/
theorem ofRatio_of_lt (negative : Bool) (hd : d ≠ 0) (h : (n : ℚ) / d < 2 ^ (-1075 : ℤ)) :
    ofRatio negative n d = zero negative := by
  by_cases hn : n = 0
  · rw [ofRatio, if_pos hn]
  obtain ⟨x, hx, hlo, -⟩ := exists_exponentFor_eq hn hd
  have hmin : exponentFor n d = minExponent := by
    have := exponent_lt_of_between hlo h
    rw [hx, minExponent]
    omega
  have hpos := scaleDown_pos (Nat.pos_of_ne_zero hd) minExponent
  have hzero : roundHalfEven (scaleUp n minExponent) (scaleDown d minExponent) = 0 := by
    refine roundHalfEven_eq_zero ?_
    have hscaled := scaleUp_div_scaleDown n d minExponent
    have hhalf : (scaleUp n minExponent : ℚ) / scaleDown d minExponent < 1 / 2 := by
      rw [hscaled, div_lt_iff₀ (by positivity)]
      refine lt_of_lt_of_eq h ?_
      rw [minExponent, one_div, ← zpow_neg_one, ← zpow_add₀ two_ne_zero]
      norm_num
    rw [div_lt_div_iff₀ (by exact_mod_cast hpos) two_pos] at hhalf
    have hlt : scaleUp n minExponent * 2 < 1 * scaleDown d minExponent := by exact_mod_cast hhalf
    omega
  rw [ofRatio, if_neg hn]
  simp only [hmin, hzero]
  rfl

/-! ## Decimals -/

/-- The numerator of a decimal as a fraction. -/
def numerator (digits : ℕ) (exponent : ℤ) : ℕ :=
  digits * 10 ^ exponent.toNat

/-- The denominator of a decimal as a fraction. -/
def denominator (exponent : ℤ) : ℕ :=
  10 ^ (-exponent).toNat

theorem denominator_ne_zero (exponent : ℤ) : denominator exponent ≠ 0 := by
  rw [denominator]
  positivity

theorem numerator_div_denominator (digits : ℕ) (exponent : ℤ) :
    (numerator digits exponent : ℚ) / denominator exponent = digits * 10 ^ exponent := by
  rw [numerator, denominator]
  rcases Int.le_total 0 exponent with he | he
  · obtain ⟨k, rfl⟩ := Int.eq_ofNat_of_zero_le he
    simp
  · obtain ⟨k, rfl⟩ := Int.exists_eq_neg_ofNat he
    simp [div_eq_mul_inv]

/-- A decimal is read as the fraction that it is, also if its exponent is far outside the format. -/
theorem ofDecimal_eq_ofRatio (negative : Bool) (digits : ℕ) (exponent : ℤ) :
    ofDecimal negative digits exponent =
      ofRatio negative (numerator digits exponent) (denominator exponent) := by
  have hvalue := numerator_div_denominator digits exponent
  by_cases hdigits : digits = 0
  · rw [ofDecimal, if_pos hdigits, ofRatio, if_pos (by rw [numerator, hdigits, Nat.zero_mul])]
  have hnumerator : numerator digits exponent ≠ 0 := by
    rw [numerator]
    positivity
  have hone : (1 : ℚ) ≤ digits := by exact_mod_cast Nat.one_le_iff_ne_zero.2 hdigits
  rw [ofDecimal, if_neg hdigits]
  by_cases hlarge : 400 < exponent
  · rw [if_pos hlarge, ofRatio_of_le negative hnumerator (denominator_ne_zero exponent)]
    rw [hvalue]
    calc (2 : ℚ) ^ (1024 : ℤ) ≤ 2 ^ (3 * 400 : ℤ) := by gcongr <;> norm_num
      _ = (2 ^ 3) ^ 400 := by rw [zpow_mul, zpow_ofNat, zpow_ofNat]
      _ ≤ 10 ^ 400 := pow_le_pow_left₀ (by norm_num) (by norm_num) 400
      _ = 10 ^ (400 : ℤ) := by rw [zpow_ofNat]
      _ ≤ 10 ^ exponent := by gcongr; norm_num
      _ ≤ digits * 10 ^ exponent := le_mul_of_one_le_left (by positivity) hone
  rw [if_neg hlarge]
  by_cases hsmall : exponent < -400 - (digits.log2 : ℤ)
  · rw [if_pos hsmall, ofRatio_of_lt negative (denominator_ne_zero exponent)]
    rw [hvalue]
    have hlog : (digits : ℚ) < 2 ^ ((digits.log2 : ℤ) + 1) := by exact_mod_cast Nat.lt_log2_self
    have height : (8 : ℚ) ^ exponent = 2 ^ (3 * exponent) := by
      rw [zpow_mul]
      norm_num
    -- Ten has more than three bits.
    have hten : (10 : ℚ) ^ exponent ≤ 8 ^ exponent := by
      obtain ⟨k, rfl⟩ := Int.exists_eq_neg_ofNat (by omega : exponent ≤ 0)
      rw [zpow_neg, zpow_neg, zpow_natCast, zpow_natCast]
      gcongr
      norm_num
    calc (digits : ℚ) * 10 ^ exponent
        ≤ digits * 8 ^ exponent := by gcongr
      _ < 2 ^ ((digits.log2 : ℤ) + 1) * 8 ^ exponent := by gcongr
      _ = 2 ^ ((digits.log2 : ℤ) + 1 + 3 * exponent) := by rw [height, ← zpow_add₀ two_ne_zero]
      _ ≤ 2 ^ (-1075 : ℤ) := by
          gcongr
          · norm_num
          · omega
  rw [if_neg hsmall]
  by_cases hnonneg : 0 ≤ exponent
  · rw [if_pos hnonneg, numerator, denominator, Nat.pow_eq]
    have hzero : (-exponent).toNat = 0 := by omega
    rw [hzero, pow_zero]
  · rw [if_neg hnonneg, numerator, denominator, Nat.pow_eq]
    have hzero : exponent.toNat = 0 := by omega
    rw [hzero, pow_zero, mul_one]

/-- Decimals with the same value are read as the same number. -/
theorem ofDecimal_of_value_eq (negative : Bool) {digits digits' : ℕ} {exponent exponent' : ℤ}
    (h : (digits : ℚ) * 10 ^ exponent = digits' * 10 ^ exponent') :
    ofDecimal negative digits exponent = ofDecimal negative digits' exponent' := by
  rw [ofDecimal_eq_ofRatio, ofDecimal_eq_ofRatio]
  refine ofRatio_of_div_eq negative (denominator_ne_zero exponent) (denominator_ne_zero exponent') ?_
  rw [numerator_div_denominator, numerator_div_denominator, h]

theorem ofRatio_true (n d : ℕ) : ofRatio true n d = (ofRatio false n d).neg := by
  by_cases hn : n = 0
  · rw [ofRatio, ofRatio, if_pos hn, if_pos hn]
    rfl
  · rw [ofRatio, ofRatio, if_neg hn, if_neg hn]
    dsimp only
    split_ifs <;> rfl

/-- The sign of a decimal that is read as a finite number is that of the number. -/
theorem ofDecimal_eq_finite {digits m : ℕ} {exponent e : ℤ} (negative : Bool)
    (h : ofDecimal false digits exponent = .finite false m e) :
    ofDecimal negative digits exponent = .finite negative m e := by
  cases negative with
  | false => exact h
  | true =>
    rw [ofDecimal_eq_ofRatio] at h ⊢
    rw [ofRatio_true, h]
    rfl

end Binary64

/-! ## Shortest decimals -/

namespace Decimal

def value (x : Decimal) : ℚ :=
  x.digits * 10 ^ x.exponent

theorem dropZeros_digits_ne_zero {x : Decimal} (fuel : ℕ) (h : x.digits ≠ 0) :
    (dropZeros fuel x).digits ≠ 0 := by
  induction fuel generalizing x with
  | zero => exact h
  | succ fuel ih =>
    rw [dropZeros]
    split
    · next hzero => exact ih (by dsimp only; omega)
    · exact h

theorem value_dropZeros (fuel : ℕ) (x : Decimal) : (dropZeros fuel x).value = x.value := by
  induction fuel generalizing x with
  | zero => rfl
  | succ fuel ih =>
    rw [dropZeros]
    split
    · next hzero =>
      rw [ih, value, value]
      have hdigits : (x.digits : ℚ) = (x.digits / 10 : ℕ) * 10 := by
        exact_mod_cast (Nat.div_mul_cancel (Nat.dvd_of_mod_eq_zero hzero.2)).symm
      rw [hdigits, zpow_add_one₀ (by norm_num), mul_comm (10 ^ x.exponent), mul_assoc]
    · rfl

end Decimal

namespace Binary64

/-- The shortest decimal comes from one that is read back or from the exact one. -/
theorem exists_shortest_eq (m : ℕ) (e : ℤ) :
    ∃ x : Decimal, shortest m e = x.dropZeros 400 ∧
      (x = exactDecimal m e ∨ ofDecimal false x.digits x.exponent = .finite false m e) := by
  rw [shortest]
  cases hfind : List.find? (fun x : Decimal => ofDecimal false x.digits x.exponent ==
      .finite false m e) ((List.range 17).flatMap fun k => neighbours m e (k + 1)) with
  | none => exact ⟨exactDecimal m e, rfl, .inl rfl⟩
  | some x =>
    have hread := List.find?_some hfind
    exact ⟨x, rfl, .inr (eq_of_beq hread)⟩

/-- The shortest decimal of a number is read as the number. -/
theorem ofDecimal_shortest {m : ℕ} {e : ℤ} (negative : Bool) (hc : IsCanonical m e) :
    ofDecimal negative (shortest m e).digits (shortest m e).exponent = .finite negative m e := by
  obtain ⟨x, hx, hread⟩ := exists_shortest_eq m e
  have hvalue := Decimal.value_dropZeros 400 x
  rw [← hx] at hvalue
  rw [ofDecimal_of_value_eq negative hvalue]
  rcases hread with rfl | hread
  · exact ofDecimal_exactDecimal negative hc
  · exact ofDecimal_eq_finite negative hread

/-- The shortest decimal of a number that is not zero is not zero. -/
theorem shortest_digits_ne_zero {m : ℕ} (e : ℤ) (hm : m ≠ 0) : (shortest m e).digits ≠ 0 := by
  obtain ⟨x, hx, hread⟩ := exists_shortest_eq m e
  rw [hx]
  refine Decimal.dropZeros_digits_ne_zero 400 ?_
  rcases hread with rfl | hread
  · rw [exactDecimal]
    split
    · simpa using hm
    · simpa using hm
  · intro hzero
    rw [ofDecimal, if_pos hzero, zero, finite.injEq] at hread
    exact hm hread.2.1.symm

end Binary64

end McdocSchema.Number
