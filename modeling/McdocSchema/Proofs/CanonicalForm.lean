import Mathlib.Algebra.Order.Field.Power
import Mathlib.Algebra.Order.Field.Rat
import Mathlib.Tactic.FieldSimp
import Mathlib.Tactic.Linarith
import Mathlib.Tactic.NormNum
import McdocSchema.Number.Shortest

/-!
# The canonical form of floating-point numbers

A finite number is kept in one form only: its mantissa has 53 bits, or fewer at the least exponent.
Rounding a fraction gives a number in that form or an infinity (`isNumber_ofRatio`), and it gives a
number back from any fraction that has its exact value (`ofRatio_of_eq`). So the exact decimal of a
number is read as that number.
-/

namespace McdocSchema.Number.Binary64

/-- The mantissa and the exponent of a finite number in canonical form. -/
structure IsCanonical (m : ℕ) (e : ℤ) : Prop where
  mantissa_lt : m < 2 ^ 53
  minExponent_le : minExponent ≤ e
  le_maxExponent : e ≤ maxExponent
  normal_or : 2 ^ 52 ≤ m ∨ e = minExponent

/-- A number that is infinite, or finite and in canonical form. -/
def IsNumber : Binary64 → Prop
  | .nan => False
  | .infinity _ => True
  | .finite _ m e => IsCanonical m e

theorem isCanonical_zero : IsCanonical 0 minExponent :=
  ⟨by decide, le_refl _, by decide, .inr rfl⟩

/-! ## Scaling -/

theorem scaleDown_pos {d : ℕ} (hd : 0 < d) (e : ℤ) : 0 < scaleDown d e := by
  rw [scaleDown, Nat.shiftLeft_eq]
  positivity

/-- Both directions of scaling together divide by a power of two. -/
theorem scaleUp_div_scaleDown (n d : ℕ) (e : ℤ) :
    (scaleUp n e : ℚ) / scaleDown d e = n / d / 2 ^ e := by
  rw [scaleUp, scaleDown, Nat.shiftLeft_eq, Nat.shiftLeft_eq]
  rcases Int.le_total 0 e with he | he
  · obtain ⟨k, rfl⟩ := Int.eq_ofNat_of_zero_le he
    simp [div_div]
  · obtain ⟨k, rfl⟩ := Int.exists_eq_neg_ofNat he
    simp [mul_div_right_comm]

/-- The exponents of two powers of two with a number between them. -/
theorem exponent_lt_of_between {a b : ℤ} {q : ℚ} (ha : (2 : ℚ) ^ a ≤ q) (hb : q < (2 : ℚ) ^ b) :
    a < b :=
  (zpow_lt_zpow_iff_right₀ one_lt_two).1 (lt_of_le_of_lt ha hb)

/-! ## The exponent of a fraction -/

/-- The number of bits tells a fraction up to a factor of two in either direction. -/
theorem between_log2 {n d : ℕ} (hn : n ≠ 0) (hd : d ≠ 0) :
    (2 : ℚ) ^ ((n.log2 : ℤ) - d.log2 - 1) ≤ n / d ∧
      (n : ℚ) / d < 2 ^ ((n.log2 : ℤ) - d.log2 + 1) := by
  have hd' : (0 : ℚ) < d := by exact_mod_cast Nat.pos_of_ne_zero hd
  have hnlo : (2 : ℚ) ^ n.log2 ≤ n := by exact_mod_cast Nat.log2_self_le hn
  have hnhi : (n : ℚ) < 2 ^ (n.log2 + 1) := by exact_mod_cast Nat.lt_log2_self
  have hdlo : (2 : ℚ) ^ d.log2 ≤ d := by exact_mod_cast Nat.log2_self_le hd
  have hdhi : (d : ℚ) < 2 ^ (d.log2 + 1) := by exact_mod_cast Nat.lt_log2_self
  constructor
  · rw [le_div_iff₀ hd']
    calc (2 : ℚ) ^ ((n.log2 : ℤ) - d.log2 - 1) * d
        ≤ 2 ^ ((n.log2 : ℤ) - d.log2 - 1) * 2 ^ (d.log2 + 1) := by gcongr
      _ = 2 ^ n.log2 := by
        rw [← zpow_natCast, ← zpow_natCast, ← zpow_add₀ two_ne_zero]
        congr 1
        omega
      _ ≤ n := hnlo
  · rw [div_lt_iff₀ hd']
    calc (n : ℚ) < 2 ^ (n.log2 + 1) := hnhi
      _ = 2 ^ ((n.log2 : ℤ) - d.log2 + 1) * 2 ^ d.log2 := by
        rw [← zpow_natCast, ← zpow_natCast, ← zpow_add₀ two_ne_zero]
        congr 1
        omega
      _ ≤ 2 ^ ((n.log2 : ℤ) - d.log2 + 1) * d := by gcongr

/-- At the exponent of a fraction it has 53 bits before the point, unless that exponent is less than the
least one. -/
theorem exists_exponentFor_eq {n d : ℕ} (hn : n ≠ 0) (hd : d ≠ 0) :
    ∃ e, exponentFor n d = max e minExponent ∧ (2 : ℚ) ^ (52 + e) ≤ n / d ∧
      (n : ℚ) / d < 2 ^ (53 + e) := by
  obtain ⟨hlo, hhi⟩ := between_log2 hn hd
  have hpos : (0 : ℚ) < scaleDown d ((n.log2 : ℤ) - d.log2 - 53) := by
    exact_mod_cast scaleDown_pos (Nat.pos_of_ne_zero hd) _
  -- The comparison in the definition is one of the fraction with a power of two.
  have hif : 2 ^ 53 * scaleDown d ((n.log2 : ℤ) - d.log2 - 53) ≤
      scaleUp n ((n.log2 : ℤ) - d.log2 - 53) ↔
        (2 : ℚ) ^ (53 + ((n.log2 : ℤ) - d.log2 - 53)) ≤ n / d := by
    rw [← Nat.cast_le (α := ℚ), Nat.cast_mul, ← le_div_iff₀ hpos, scaleUp_div_scaleDown,
      le_div_iff₀ (by positivity), zpow_add₀ two_ne_zero, zpow_ofNat]
    norm_num
  simp only [exponentFor, Nat.pow_eq]
  by_cases h : 2 ^ 53 * scaleDown d ((n.log2 : ℤ) - d.log2 - 53) ≤
      scaleUp n ((n.log2 : ℤ) - d.log2 - 53)
  · rw [if_pos h]
    refine ⟨_, rfl, ?_, ?_⟩
    · convert hif.1 h using 2
      omega
    · convert hhi using 2
      omega
  · rw [if_neg h]
    refine ⟨_, rfl, ?_, lt_of_not_ge (mt hif.2 h)⟩
    convert hlo using 2
    omega

theorem ne_zero_of_eq {n d m : ℕ} {e : ℤ} (hm : m ≠ 0) (h : (n : ℚ) / d = m * 2 ^ e) : n ≠ 0 := by
  rintro rfl
  have hm' : (0 : ℚ) < m := by exact_mod_cast Nat.pos_of_ne_zero hm
  have hv : (0 : ℚ) < m * 2 ^ e := by positivity
  rw [← h] at hv
  simp at hv

/-- The exponent of a fraction with the exact value of a number in canonical form is that of the
number. -/
theorem exponentFor_of_eq {n d m : ℕ} {e : ℤ} (hc : IsCanonical m e) (hm : m ≠ 0) (hd : d ≠ 0)
    (h : (n : ℚ) / d = m * 2 ^ e) : exponentFor n d = e := by
  have hn : n ≠ 0 := ne_zero_of_eq hm h
  obtain ⟨x, hx, hlo, hhi⟩ := exists_exponentFor_eq hn hd
  have hupper : (n : ℚ) / d < 2 ^ (53 + e) := by
    have hlt : (m : ℚ) < 2 ^ 53 := by exact_mod_cast hc.mantissa_lt
    rw [h, zpow_add₀ two_ne_zero, zpow_ofNat]
    gcongr
  have hxe : x ≤ e := by
    have := exponent_lt_of_between hlo hupper
    omega
  rw [hx]
  rcases hc.normal_or with hnormal | he
  · have hlower : (2 : ℚ) ^ (52 + e) ≤ n / d := by
      have hle : (2 : ℚ) ^ 52 ≤ m := by exact_mod_cast hnormal
      rw [h, zpow_add₀ two_ne_zero, zpow_ofNat]
      gcongr
    have hex := exponent_lt_of_between hlower hhi
    have hmin := hc.minExponent_le
    omega
  · omega

/-! ## Rounding a fraction -/

/-- A fraction with the exact value of a number in canonical form is rounded to that number. -/
theorem ofRatio_of_eq {n d m : ℕ} {e : ℤ} (negative : Bool) (hc : IsCanonical m e) (hd : d ≠ 0)
    (h : (n : ℚ) / d = m * 2 ^ e) : ofRatio negative n d = .finite negative m e := by
  have hd' : (0 : ℚ) < d := by exact_mod_cast Nat.pos_of_ne_zero hd
  by_cases hm : m = 0
  · subst hm
    have hn : n = 0 := by
      rw [Nat.cast_zero, zero_mul, div_eq_zero_iff] at h
      rcases h with h | h
      · exact_mod_cast h
      · exact absurd h hd'.ne'
    rcases hc.normal_or with hle | rfl
    · omega
    · rw [ofRatio, if_pos hn]
      rfl
  · have hn : n ≠ 0 := ne_zero_of_eq hm h
    have hpos : 0 < scaleDown d e := scaleDown_pos (Nat.pos_of_ne_zero hd) e
    have hscale : scaleUp n e = m * scaleDown d e := by
      have hq := scaleUp_div_scaleDown n d e
      rw [h, mul_div_assoc, div_self (by positivity), mul_one,
        div_eq_iff (by exact_mod_cast hpos.ne')] at hq
      exact_mod_cast hq
    have hround : roundHalfEven (scaleUp n e) (scaleDown d e) = m := by
      rw [hscale, roundHalfEven_mul _ _ hpos]
    rw [ofRatio, if_neg hn]
    simp only [exponentFor_of_eq hc hm hd h, hround, Nat.pow_eq]
    rw [if_neg hc.mantissa_lt.ne]
    exact if_neg (not_lt.2 hc.le_maxExponent)

theorem roundHalfEven_scaled_bounds {n d : ℕ} (hn : n ≠ 0) (hd : d ≠ 0) :
    roundHalfEven (scaleUp n (exponentFor n d)) (scaleDown d (exponentFor n d)) ≤ 2 ^ 53 ∧
      (minExponent < exponentFor n d → 2 ^ 52 ≤
        roundHalfEven (scaleUp n (exponentFor n d)) (scaleDown d (exponentFor n d))) := by
  obtain ⟨x, hx, hlo, hhi⟩ := exists_exponentFor_eq hn hd
  have hscale := scaleUp_div_scaleDown n d (exponentFor n d)
  have hpos := scaleDown_pos (Nat.pos_of_ne_zero hd) (exponentFor n d)
  have hle := two_mul_roundHalfEven_mul_le (scaleUp n (exponentFor n d))
    (scaleDown d (exponentFor n d))
  have hge := two_mul_le_two_mul_roundHalfEven_mul (scaleUp n (exponentFor n d))
    (scaleDown d (exponentFor n d)) hpos
  generalize roundHalfEven (scaleUp n (exponentFor n d)) (scaleDown d (exponentFor n d)) = r at *
  generalize scaleUp n (exponentFor n d) = a at *
  generalize scaleDown d (exponentFor n d) = b at *
  -- The scaled fraction is below `2 ^ 53`, and rounding moves it by a half at most.
  have hb : (0 : ℚ) < b := by exact_mod_cast hpos
  constructor
  · have hupper : (n : ℚ) / d < 2 ^ (53 + exponentFor n d) := by
      refine lt_of_lt_of_le hhi ?_
      gcongr
      · norm_num
      · rw [hx]
        exact le_max_left _ _
    rw [zpow_add₀ two_ne_zero, zpow_ofNat, ← div_lt_iff₀ (by positivity), ← hscale,
      div_lt_iff₀ hb] at hupper
    have ha : a < 2 ^ 53 * b := by exact_mod_cast hupper
    by_contra hr
    have hmul : (2 ^ 53 + 1) * b ≤ r * b := Nat.mul_le_mul_right b (by omega)
    omega
  · intro hmin
    have hxe : exponentFor n d = x := by omega
    rw [← hxe, zpow_add₀ two_ne_zero, zpow_ofNat, ← le_div_iff₀ (by positivity), ← hscale,
      le_div_iff₀ hb] at hlo
    have ha : 2 ^ 52 * b ≤ a := by exact_mod_cast hlo
    by_contra hr
    have hmul : r * b ≤ (2 ^ 52 - 1) * b := Nat.mul_le_mul_right b (by omega)
    omega

/-- A rounded fraction is an infinity or a finite number in canonical form. -/
theorem isNumber_ofRatio (negative : Bool) (n : ℕ) {d : ℕ} (hd : d ≠ 0) :
    (ofRatio negative n d).IsNumber := by
  rw [ofRatio]
  by_cases hn : n = 0
  · rw [if_pos hn]
    exact isCanonical_zero
  rw [if_neg hn]
  dsimp only [Nat.pow_eq]
  obtain ⟨hle, hge⟩ := roundHalfEven_scaled_bounds hn hd
  have hmin : minExponent ≤ exponentFor n d := by
    rw [exponentFor]
    exact le_max_right _ _
  generalize roundHalfEven (scaleUp n (exponentFor n d)) (scaleDown d (exponentFor n d)) = r at *
  generalize exponentFor n d = e at *
  by_cases hr : r = 2 ^ 53
  · simp only [hr, if_true]
    split
    · trivial
    · exact ⟨by decide, by omega, by omega, .inl (by decide)⟩
  · simp only [hr, if_false]
    split
    · trivial
    · refine ⟨by omega, hmin, by omega, ?_⟩
      rcases hmin.lt_or_eq with h | h
      · exact .inl (hge h)
      · exact .inr h.symm

theorem isNumber_ofDecimal (negative : Bool) (digits : ℕ) (exponent : ℤ) :
    (ofDecimal negative digits exponent).IsNumber := by
  unfold ofDecimal
  split
  · exact isCanonical_zero
  split
  · trivial
  split
  · exact isCanonical_zero
  split
  · exact isNumber_ofRatio _ _ one_ne_zero
  · exact isNumber_ofRatio _ _ (by rw [Nat.pow_eq]; positivity)

/-! ## Exact decimals -/

theorem two_mul_le_log2_mul_five_pow {m k : ℕ} (hm : m ≠ 0) : 2 * k ≤ (m * 5 ^ k).log2 := by
  rw [Nat.le_log2 (by positivity)]
  calc 2 ^ (2 * k) = 4 ^ k := by rw [pow_mul]; norm_num
    _ ≤ 5 ^ k := Nat.pow_le_pow_left (by norm_num) k
    _ ≤ m * 5 ^ k := Nat.le_mul_of_pos_left _ (Nat.pos_of_ne_zero hm)

/-- The exact decimal of a number is read as the number. -/
theorem ofDecimal_exactDecimal {m : ℕ} {e : ℤ} (negative : Bool) (hc : IsCanonical m e) :
    ofDecimal negative (exactDecimal m e).digits (exactDecimal m e).exponent =
      .finite negative m e := by
  simp only [exactDecimal, ofDecimal, Nat.pow_eq]
  by_cases hm : m = 0
  · subst hm
    rcases hc.normal_or with hle | rfl
    · omega
    · rw [if_pos (by split <;> simp)]
      rfl
  split
  · next he =>
    obtain ⟨k, rfl⟩ := Int.eq_ofNat_of_zero_le he
    dsimp only
    rw [if_neg (by simp [hm]), if_neg (by decide), if_neg (by omega), if_pos (le_refl _)]
    exact ofRatio_of_eq negative hc one_ne_zero (by simp)
  · next he =>
    obtain ⟨k, rfl⟩ := Int.exists_eq_neg_ofNat (le_of_not_ge he)
    have hlog : 2 * k ≤ (m * 5 ^ k).log2 := two_mul_le_log2_mul_five_pow hm
    have hk : (-(-(k : ℤ))).toNat = k := by simp
    dsimp only
    rw [hk, if_neg (by simp [hm]), if_neg (by omega), if_neg (by omega)]
    refine ofRatio_of_eq negative hc (by positivity) ?_
    have hten : (10 : ℚ) ^ k = 5 ^ k * 2 ^ k := by rw [← mul_pow]; norm_num
    push_cast
    rw [hten, zpow_neg, zpow_natCast]
    field_simp

end McdocSchema.Number.Binary64
