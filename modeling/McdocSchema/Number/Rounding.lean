/-!
# Rounding a quotient to the nearest integer

Every rounding in this library goes through `roundHalfEven`: a quotient of natural numbers is taken
to the nearest one, and a half goes to the even neighbour. The two statements below say that the
result is never further away than a half, and that an integer stays as it is.
-/

namespace McdocSchema.Number

/-- `n / d` rounded to the nearest natural number, a half to the even neighbour. -/
def roundHalfEven (n d : Nat) : Nat :=
  let q := n / d
  let r := n % d
  if 2 * r < d then q else if d < 2 * r then q + 1 else q + q % 2

/-- A multiple of the divisor is not rounded. -/
theorem roundHalfEven_mul (q d : Nat) (hd : 0 < d) : roundHalfEven (q * d) d = q := by
  simp [roundHalfEven, Nat.mul_div_cancel q hd, hd]

/-- The result exceeds the quotient by a half at most. -/
theorem two_mul_roundHalfEven_mul_le (n d : Nat) :
    2 * (roundHalfEven n d * d) ≤ 2 * n + d := by
  have hn : d * (n / d) + n % d = n := Nat.div_add_mod n d
  have hc : n / d * d = d * (n / d) := Nat.mul_comm _ _
  have hs : (n / d + 1) * d = n / d * d + d := Nat.succ_mul _ _
  unfold roundHalfEven
  dsimp only
  split
  · omega
  · split
    · omega
    · rcases Nat.mod_two_eq_zero_or_one (n / d) with h | h
      · rw [h, Nat.add_zero]; omega
      · rw [h]; omega

/-- The result falls short of the quotient by a half at most. -/
theorem two_mul_le_two_mul_roundHalfEven_mul (n d : Nat) (hd : 0 < d) :
    2 * n ≤ 2 * (roundHalfEven n d * d) + d := by
  have hn : d * (n / d) + n % d = n := Nat.div_add_mod n d
  have hr : n % d < d := Nat.mod_lt n hd
  have hc : n / d * d = d * (n / d) := Nat.mul_comm _ _
  have hs : (n / d + 1) * d = n / d * d + d := Nat.succ_mul _ _
  unfold roundHalfEven
  dsimp only
  split
  · omega
  · split
    · omega
    · rcases Nat.mod_two_eq_zero_or_one (n / d) with h | h
      · rw [h, Nat.add_zero]; omega
      · rw [h]; omega

end McdocSchema.Number
