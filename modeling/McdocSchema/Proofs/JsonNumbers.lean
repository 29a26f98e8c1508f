import McdocSchema.Json.Printer
import McdocSchema.Json.Reader
import McdocSchema.Proofs.DecimalValue
import McdocSchema.Proofs.Numerals

/-!
# Numbers in JSON

The numerals that the grammar of JSON has (`Numeral.IsJson`). An integer is written by its digits, and a
finite floating-point number by its shortest decimal, with a point or with an exponent; both texts are
numerals with the value of the number. The reader of JSON takes a numeral whole (`readNumber_append`), and
tells integers from other numbers by the point and the exponent.
-/

namespace McdocSchema

namespace Number

open Text (Stops stops_nil stops_cons)

/-- The digits of a number that is not zero do not start with a zero. -/
theorem exists_natDigits_eq {n : Nat} (hn : n ≠ 0) : ∃ d ds, natDigits n = d :: ds ∧ d ≠ '0' := by
  induction n using Nat.strongRecOn with
  | ind n ih =>
    rw [natDigits]
    rcases Nat.lt_or_ge n 10 with hlt | hge
    · have hall : ∀ k : Fin 10, (k : Nat) ≠ 0 → Nat.digitChar k ≠ '0' := by decide
      exact ⟨_, [], Nat.toDigits_of_lt_base hlt, hall ⟨n, hlt⟩ hn⟩
    · obtain ⟨d, ds, hds, hd⟩ := ih (n / 10) (by omega) (by omega)
      refine ⟨d, ds ++ [Nat.digitChar (n % 10)], ?_, hd⟩
      rw [Nat.toDigits_of_base_le (by decide) hge, ← List.cons_append, ← hds, natDigits]

namespace Numeral

/-! ## Plain numerals -/

/-- A numeral of the grammar of JSON: a minus or no sign, a zero or digits that do not start with one,
perhaps a point with digits behind it, and perhaps an exponent, all digits being the first ten. -/
structure IsJson (a : Numeral) : Prop where
  sign_eq : a.sign = [] ∨ a.sign = ['-']
  whole_isDigit : ∀ c ∈ a.whole, c.isDigit = true
  whole_eq : a.whole = ['0'] ∨ ∀ d ∈ a.whole.head?, d ≠ '0'
  fraction_isDigit : ∀ c ∈ a.fraction.getD [], c.isDigit = true
  fraction_ne_nil : a.fraction ≠ some []
  exponent_isDigit : ∀ e ∈ a.exponent, ∀ c ∈ e.digits, c.isDigit = true

/-- A numeral with plain digits, and with a minus sign if it is negative. -/
def plain (negative : Bool) (whole : List Char) (fraction : Option (List Char))
    (exponent : Option Exponent) (hne : whole ≠ []) (hw : ∀ c ∈ whole, c.isDigit = true)
    (hf : ∀ c ∈ fraction.getD [], c.isDigit = true) : Numeral where
  sign := if negative then ['-'] else []
  whole := whole
  fraction := fraction
  exponent := exponent
  isSign := by
    cases negative
    · exact .inl rfl
    · exact .inr ⟨'-', rfl, rfl⟩
  whole_ne_nil := hne
  whole_isDecimal := fun c hc => isDecimal_of_ascii (hw c hc)
  fraction_isDecimal := fun c hc => isDecimal_of_ascii (hf c hc)

section Plain

variable {negative : Bool} {whole : List Char} {fraction : Option (List Char)}
  {exponent : Option Exponent} {hne : whole ≠ []} {hw : ∀ c ∈ whole, c.isDigit = true}
  {hf : ∀ c ∈ fraction.getD [], c.isDigit = true}

theorem isNegative_plain : (plain negative whole fraction exponent hne hw hf).isNegative = negative := by
  cases negative <;> rfl

theorem chars_plain : (plain negative whole fraction exponent hne hw hf).chars =
    Binary64.signed negative
      (whole ++ (fraction.elim [] ('.' :: ·) ++ exponent.elim [] Exponent.chars)) := by
  cases negative <;> simp [chars, plain, Binary64.signed, fractionChars, exponentChars]

theorem isJson_plain (hwhole : whole = ['0'] ∨ ∀ d ∈ whole.head?, d ≠ '0')
    (hfraction : fraction ≠ some [])
    (hexponent : ∀ e ∈ exponent, ∀ c ∈ e.digits, c.isDigit = true) :
    (plain negative whole fraction exponent hne hw hf).IsJson := by
  refine ⟨?_, hw, hwhole, hf, hfraction, hexponent⟩
  cases negative
  · exact .inl rfl
  · exact .inr rfl

theorem value_plain {n : Nat} {e : ℤ}
    (h : (decimalDigitsValue (whole ++ fraction.getD []) : ℚ) *
      10 ^ (exponent.elim 0 Exponent.value - (fraction.getD []).length : ℤ) = n * 10 ^ e) :
    (plain negative whole fraction exponent hne hw hf).value = .ofDecimal negative n e := by
  rw [value, isNegative_plain]
  exact Binary64.ofDecimal_of_value_eq negative h

end Plain

end Numeral

/-! ## Decimals -/

namespace Decimal

variable {x : Decimal}

theorem isDigit_of_mem_replicate {k : Nat} {c : Char} (h : c ∈ List.replicate k '0') :
    c.isDigit = true := by
  rw [List.eq_of_mem_replicate h]
  rfl

theorem isDigit_of_mem_padStart {k n : Nat} {c : Char} (h : c ∈ padStart k '0' (natDigits n)) :
    c.isDigit = true := by
  rcases List.mem_append.1 h with h | h
  · exact isDigit_of_mem_replicate h
  · exact isDigit_of_mem_natDigits h

theorem decimalDigitsValue_padStart (k n : Nat) :
    decimalDigitsValue (padStart k '0' (natDigits n)) = n := by
  rw [padStart, decimalDigitsValue_append, decimalDigitsValue_replicate_zero,
    decimalDigitsValue_natDigits, Nat.zero_mul, Nat.zero_add]

/-- What stands before the point is a zero alone or starts with another digit. -/
theorem take_padStart_eq (hx : x.digits ≠ 0) (k : Nat) :
    let cs := padStart (k + 1) '0' (natDigits x.digits)
    cs.take (cs.length - k) = ['0'] ∨ ∀ d ∈ (cs.take (cs.length - k)).head?, d ≠ '0' := by
  obtain ⟨d, ds, hds, hd⟩ := exists_natDigits_eq hx
  intro cs
  -- A zero is put in front only if all the digits stand behind the point.
  rcases Nat.lt_or_ge (natDigits x.digits).length (k + 1) with hlt | hge
  · left
    obtain ⟨j, hj⟩ := Nat.exists_eq_add_of_lt hlt
    have hcs : cs = '0' :: (List.replicate j '0' ++ natDigits x.digits) := by
      have hcount : k + 1 - (natDigits x.digits).length = j + 1 := by omega
      show padStart (k + 1) '0' (natDigits x.digits) = _
      rw [padStart, hcount, List.replicate_succ, List.cons_append]
    have hone : cs.length - k = 1 := by
      rw [hcs, List.length_cons, List.length_append, List.length_replicate]
      omega
    rw [hone, hcs]
    rfl
  · right
    have hcs : cs = d :: ds := by
      show padStart (k + 1) '0' (natDigits x.digits) = _
      rw [padStart, Nat.sub_eq_zero_of_le hge, List.replicate_zero, List.nil_append, hds]
    obtain ⟨j, hj⟩ : ∃ j, cs.length - k = j + 1 := by
      have : cs.length = (natDigits x.digits).length := by rw [hcs, hds]
      exact ⟨cs.length - k - 1, by omega⟩
    rw [hj, hcs, List.take_succ_cons]
    rintro _ ⟨⟩
    exact hd

theorem exists_positional (negative : Bool) (hx : x.digits ≠ 0) :
    ∃ a : Numeral, a.IsJson ∧ a.chars = Binary64.signed negative x.positional ∧
      a.fraction.isSome = true ∧ a.value = .ofDecimal negative x.digits x.exponent := by
  obtain ⟨d, ds, hds, hd⟩ := exists_natDigits_eq hx
  rw [positional]
  dsimp only
  -- The digits end in zeros before the point, or the point stands between them.
  by_cases he : 0 ≤ x.exponent
  · obtain ⟨k, hk⟩ := Int.eq_ofNat_of_zero_le he
    rw [if_pos he, hk, Int.toNat_natCast]
    have hw : ∀ c ∈ natDigits x.digits ++ List.replicate k '0', c.isDigit = true := by
      intro c hc
      rcases List.mem_append.1 hc with hc | hc
      · exact isDigit_of_mem_natDigits hc
      · exact isDigit_of_mem_replicate hc
    have hf : ∀ c ∈ (some ['0']).getD [], c.isDigit = true := by simp
    refine ⟨.plain negative (natDigits x.digits ++ List.replicate k '0') (some ['0']) none
      (by simp [natDigits_ne_nil]) hw hf, Numeral.isJson_plain ?_ (by simp) (by simp), ?_, rfl, ?_⟩
    · right
      rw [hds]
      rintro _ ⟨⟩
      exact hd
    · rw [Numeral.chars_plain]
      simp
    · refine Numeral.value_plain ?_
      rw [Option.getD_some, decimalDigitsValue_append, decimalDigitsValue_append,
        decimalDigitsValue_natDigits, decimalDigitsValue_replicate_zero]
      have hzero : decimalDigitsValue ['0'] = 0 := by decide
      simp [hzero]
  · rw [if_neg he]
    obtain ⟨k, hk⟩ : ∃ k : Nat, x.exponent = -(k : ℤ) := Int.exists_eq_neg_ofNat (by omega)
    have hplaces : (-x.exponent).toNat = k := by omega
    rw [hplaces]
    have hlength : k + 1 ≤ (padStart (k + 1) '0' (natDigits x.digits)).length := by
      rw [padStart, List.length_append, List.length_replicate]
      omega
    have hdigits : ∀ c ∈ padStart (k + 1) '0' (natDigits x.digits), c.isDigit = true :=
      fun _ => isDigit_of_mem_padStart
    have hvalue := decimalDigitsValue_padStart (k + 1) x.digits
    have hhead := take_padStart_eq hx k
    -- Only these facts about the padded digits matter.
    generalize padStart (k + 1) '0' (natDigits x.digits) = cs at hlength hdigits hvalue hhead ⊢
    have hw : ∀ c ∈ cs.take (cs.length - k), c.isDigit = true :=
      fun c hc => hdigits c (List.mem_of_mem_take hc)
    have hf : ∀ c ∈ (some (cs.drop (cs.length - k))).getD [], c.isDigit = true :=
      fun c hc => hdigits c (List.mem_of_mem_drop hc)
    have hdrop : (cs.drop (cs.length - k)).length = k := by
      rw [List.length_drop]
      omega
    refine ⟨.plain negative (cs.take (cs.length - k)) (some (cs.drop (cs.length - k))) none ?_ hw hf,
      Numeral.isJson_plain hhead ?_ (by simp), ?_, rfl, ?_⟩
    · rw [← List.length_pos_iff, List.length_take]
      omega
    · intro hnil
      rw [Option.some.injEq] at hnil
      rw [hnil, List.length_nil] at hdrop
      omega
    · rw [Numeral.chars_plain]
      simp
    · refine Numeral.value_plain ?_
      rw [Option.getD_some, List.take_append_drop, hvalue, hdrop, hk]
      simp

/-- An exponent with its sign and at least two digits. -/
def writtenExponent (e : ℤ) : Exponent where
  mark := 'e'
  sign := [if e < 0 then '-' else '+']
  digits := padStart 2 '0' (natDigits e.natAbs)
  mark_eq := .inl rfl
  isSign := .inr ⟨_, rfl, by split <;> rfl⟩
  digits_ne_nil := by simp [padStart, natDigits_ne_nil]
  isDecimal := fun _ hc => isDecimal_of_ascii (isDigit_of_mem_padStart hc)

theorem value_writtenExponent (e : ℤ) : (writtenExponent e).value = e := by
  have hdigits : decimalDigitsValue (writtenExponent e).digits = e.natAbs :=
    decimalDigitsValue_padStart 2 e.natAbs
  rw [Exponent.value, hdigits]
  show (if [if e < 0 then '-' else '+'] = ['-'] then -(e.natAbs : ℤ) else e.natAbs) = e
  by_cases he : e < 0
  · rw [if_pos he, if_pos rfl]
    omega
  · rw [if_neg he, if_neg (by decide)]
    omega

theorem exists_scientific (negative : Bool) (hx : x.digits ≠ 0) :
    ∃ a : Numeral, a.IsJson ∧ a.chars = Binary64.signed negative x.scientific ∧
      a.exponent.isSome = true ∧ a.value = .ofDecimal negative x.digits x.exponent := by
  obtain ⟨d, ds, hds, hd⟩ := exists_natDigits_eq hx
  have hw : ∀ c ∈ [d], c.isDigit = true := by
    intro c hc
    obtain rfl := List.mem_singleton.1 hc
    exact isDigit_of_mem_natDigits (hds ▸ List.mem_cons_self)
  have hdigits : ∀ c ∈ ds, c.isDigit = true :=
    fun c hc => isDigit_of_mem_natDigits (hds ▸ List.mem_cons_of_mem d hc)
  have hwhole : [d] = ['0'] ∨ ∀ c ∈ [d].head?, c ≠ '0' := by
    right
    rintro _ ⟨⟩
    exact hd
  have hexponent : ∀ e ∈ some (writtenExponent x.leadingExponent), ∀ c ∈ e.digits,
      c.isDigit = true := by
    rintro _ ⟨⟩ c hc
    exact isDigit_of_mem_padStart hc
  have hvalue : decimalDigitsValue (d :: ds) = x.digits := by
    rw [← hds, decimalDigitsValue_natDigits]
  have hlast : x.leadingExponent - (ds.length : ℤ) = x.exponent := by
    rw [leadingExponent, hds, List.length_cons]
    omega
  -- Without further digits there is no point.
  cases ds with
  | nil =>
    refine ⟨.plain negative [d] none (some (writtenExponent x.leadingExponent)) (by simp) hw
      (by simp), Numeral.isJson_plain hwhole (by simp) hexponent, ?_, rfl, ?_⟩
    · rw [Numeral.chars_plain, scientific, hds]
      rfl
    · refine Numeral.value_plain ?_
      rw [Option.getD_none, List.append_nil, hvalue, ← hlast, Option.elim_some,
        value_writtenExponent]
  | cons c cs =>
    refine ⟨.plain negative [d] (some (c :: cs)) (some (writtenExponent x.leadingExponent)) (by simp)
      hw hdigits, Numeral.isJson_plain hwhole (by simp) hexponent, ?_, rfl, ?_⟩
    · rw [Numeral.chars_plain, scientific, hds]
      rfl
    · refine Numeral.value_plain ?_
      rw [Option.getD_some, List.singleton_append, hvalue, ← hlast, Option.elim_some,
        value_writtenExponent]

end Decimal

/-- The text of a finite number is a numeral of JSON with a point or an exponent, and with the value of
the number if that is in canonical form. -/
theorem Binary64.exists_numeral_toText (negative : Bool) (m : Nat) (e : ℤ) :
    ∃ a : Numeral, a.IsJson ∧ a.chars = (toText (.finite negative m e)).toList ∧
      (a.fraction.isSome = true ∨ a.exponent.isSome = true) ∧
      (IsCanonical m e → a.value = .finite negative m e) := by
  rw [toText, String.toList_ofList]
  by_cases hm : m = 0
  · rw [if_pos hm]
    have hw : ∀ c ∈ ['0'], c.isDigit = true := by simp
    refine ⟨.plain negative ['0'] (some ['0']) none (by simp) hw hw,
      Numeral.isJson_plain (.inl rfl) (by simp) (by simp), ?_, .inl rfl, ?_⟩
    · rw [Numeral.chars_plain]
      rfl
    · intro hc
      rcases hc.normal_or with hle | rfl
      · omega
      · rw [hm, @Numeral.value_plain _ _ _ _ _ _ _ 0 0]
        · rfl
        · have hzero : decimalDigitsValue (['0'] ++ (some ['0']).getD []) = 0 := by decide
          rw [hzero]
          simp
  · rw [if_neg hm]
    have hx := shortest_digits_ne_zero e hm
    rw [Decimal.toChars]
    split
    · obtain ⟨a, hjson, hchars, hpoint, hvalue⟩ := Decimal.exists_positional negative hx
      exact ⟨a, hjson, hchars, .inl hpoint, fun hc => hvalue.trans (ofDecimal_shortest negative hc)⟩
    · obtain ⟨a, hjson, hchars, hexponent, hvalue⟩ := Decimal.exists_scientific negative hx
      exact ⟨a, hjson, hchars, .inr hexponent,
        fun hc => hvalue.trans (ofDecimal_shortest negative hc)⟩

/-- The text of an integer is a numeral of JSON without a point and an exponent. -/
theorem exists_numeral_intText (n : ℤ) :
    ∃ a : Numeral, a.IsJson ∧ a.chars = (intText n).toList ∧ a.fraction = none ∧
      a.exponent = none := by
  have hw : ∀ c ∈ natDigits n.natAbs, c.isDigit = true := fun _ => isDigit_of_mem_natDigits
  refine ⟨.plain (n < 0) (natDigits n.natAbs) none none (natDigits_ne_nil _) hw (by simp),
    Numeral.isJson_plain ?_ (by simp) (by simp), ?_, rfl, rfl⟩
  · by_cases hn : n = 0
    · rw [hn]
      exact .inl rfl
    · right
      obtain ⟨d, ds, hds, hd⟩ := exists_natDigits_eq (Int.natAbs_ne_zero.2 hn)
      rw [hds]
      rintro _ ⟨⟩
      exact hd
  · rw [Numeral.chars_plain, intText_eq, String.toList_ofList]
    simp

end Number

/-! ## Reading numbers -/

namespace Json

open Number (Numeral Exponent Binary64)
open Text (Stops stops_nil stops_cons takeWhile_append_of_stops dropWhile_append_of_stops)

variable {rest : List Char}

/-- Whether a number goes on with the character. -/
def continuesNumber (c : Char) : Bool :=
  c.isDigit || c == '.' || c == 'e' || c == 'E'

theorem stops_of_continuesNumber {p : Char → Bool}
    (h : Stops continuesNumber rest) (hp : ∀ c, p c = true → continuesNumber c = true) :
    Stops p rest := by
  intro c hc
  rw [← Bool.not_eq_true]
  intro hpc
  have hno := h c hc
  rw [hp c hpc] at hno
  cases hno

theorem stops_isDigit (h : Stops continuesNumber rest) :
    Stops Char.isDigit rest :=
  stops_of_continuesNumber h fun c hc => by simp [continuesNumber, hc]

theorem stops_point (h : Stops continuesNumber rest) : Stops (· == '.') rest :=
  stops_of_continuesNumber h fun c hc => by simp [continuesNumber, eq_of_beq hc]

theorem stops_mark (h : Stops continuesNumber rest) :
    Stops (fun c => c == 'e' || c == 'E') rest := by
  refine stops_of_continuesNumber h fun c hc => ?_
  rw [Bool.or_eq_true] at hc
  rcases hc with hc | hc <;> simp [continuesNumber, eq_of_beq hc]

variable {a : Numeral}

theorem takeWhole_append (h : a.IsJson) (hrest : Stops Char.isDigit rest) :
    takeWhole (a.whole ++ rest) = some (a.whole, rest) := by
  have hdigits := h.whole_isDigit
  rcases h.whole_eq with hzero | hhead
  · rw [hzero]
    rfl
  · obtain ⟨d, ds, hds⟩ := List.exists_cons_of_ne_nil a.whole_ne_nil
    rw [hds] at hdigits hhead ⊢
    have hd : d ≠ '0' := hhead d rfl
    have hds : ∀ c ∈ ds, c.isDigit = true := fun c hc => hdigits c (List.mem_cons_of_mem d hc)
    rw [List.cons_append, takeWhole.eq_2 _ _ (by simpa using hd), if_pos (hdigits d List.mem_cons_self),
      takeWhile_append_of_stops hds hrest, dropWhile_append_of_stops hds hrest]

theorem takeFraction_append (h : a.IsJson) (hd : Stops Char.isDigit rest)
    (hp : Stops (· == '.') rest) :
    takeFraction (a.fractionChars ++ rest) = (a.fractionChars, rest) := by
  have hdigits := h.fraction_isDigit
  have hne := h.fraction_ne_nil
  rw [Numeral.fractionChars]
  revert hdigits hne
  cases a.fraction with
  | none =>
    intro _ _
    rw [Option.elim_none, List.nil_append]
    unfold takeFraction
    split
    · exact absurd (stops_cons.1 hp) (by decide)
    · rfl
  | some ds =>
    intro hdigits hne
    cases ds with
    | nil => exact absurd rfl hne
    | cons c cs =>
      have hc : c.isDigit = true := hdigits c List.mem_cons_self
      have hcs : ∀ c ∈ cs, c.isDigit = true := fun d hd => hdigits d (List.mem_cons_of_mem c hd)
      rw [Option.elim_some, List.cons_append, List.cons_append, takeFraction, if_pos hc,
        takeWhile_append_of_stops hcs hd, dropWhile_append_of_stops hcs hd]

theorem takeExponent_append (h : a.IsJson) (hd : Stops Char.isDigit rest)
    (hm : Stops (fun c => c == 'e' || c == 'E') rest) :
    takeExponent (a.exponentChars ++ rest) = (a.exponentChars, rest) := by
  have hdigits := h.exponent_isDigit
  rw [Numeral.exponentChars]
  revert hdigits
  cases a.exponent with
  | none =>
    intro _
    rw [Option.elim_none, List.nil_append]
    cases rest with
    | nil => rfl
    | cons c rest =>
      unfold takeExponent
      dsimp only
      rw [if_neg (by rw [stops_cons.1 hm]; simp)]
  | some e =>
    intro hdigits
    have hds : ∀ c ∈ e.digits, c.isDigit = true := hdigits e rfl
    have hmark : (e.mark == 'e' || e.mark == 'E') = true := by
      rcases e.mark_eq with h | h <;> rw [h] <;> rfl
    have hne : e.digits.isEmpty = false := by simpa using e.digits_ne_nil
    have htake := takeWhile_append_of_stops hds hd
    have hdrop := dropWhile_append_of_stops hds hd
    rw [Option.elim_some, Exponent.chars, List.cons_append]
    unfold takeExponent
    dsimp only
    rw [if_pos hmark]
    -- The digits do not start with a sign.
    rcases e.isSign with hs | ⟨c, hs, hc⟩
    · obtain ⟨d, ds, hcons⟩ := List.exists_cons_of_ne_nil e.digits_ne_nil
      have hdigit : d.isDigit = true := hds d (hcons ▸ List.mem_cons_self)
      have hplus : d ≠ '+' := Text.ne_of_holds hdigit (by decide)
      have hminus : d ≠ '-' := Text.ne_of_holds hdigit (by decide)
      rw [hs, List.nil_append]
      split
      · next heq =>
        rw [hcons] at heq
        exact absurd (List.head_eq_of_cons_eq heq) hplus
      · next heq =>
        rw [hcons] at heq
        exact absurd (List.head_eq_of_cons_eq heq) hminus
      · simp [htake, hdrop, hne]
    · rw [Lexeme.isSign, Bool.or_eq_true, beq_iff_eq, beq_iff_eq] at hc
      rcases hc with rfl | rfl
      · rw [hs]
        simp [htake, hdrop, hne]
      · rw [hs]
        simp [htake, hdrop, hne]

theorem take_parts (h : a.IsJson) (hrest : Stops continuesNumber rest) :
    takeWhole (a.whole ++ (a.fractionChars ++ (a.exponentChars ++ rest))) =
        some (a.whole, a.fractionChars ++ (a.exponentChars ++ rest)) ∧
      takeFraction (a.fractionChars ++ (a.exponentChars ++ rest)) =
        (a.fractionChars, a.exponentChars ++ rest) ∧
      takeExponent (a.exponentChars ++ rest) = (a.exponentChars, rest) := by
  have hdigit := a.stops_exponentChars (by decide) (by decide) (stops_isDigit hrest)
  have hpoint := a.stops_exponentChars (by decide) (by decide) (stops_point hrest)
  exact ⟨takeWhole_append h (a.stops_fractionChars (by decide) hdigit),
    takeFraction_append h hdigit hpoint,
    takeExponent_append h (stops_isDigit hrest) (stops_mark hrest)⟩

/-- What the reader makes of the parts of a number. -/
def ofParts (sign whole fraction exponent rest : List Char) : Except Trouble (Json × List Char) :=
  let text := String.ofList (sign ++ whole ++ fraction ++ exponent)
  if fraction.isEmpty && exponent.isEmpty then
    (Number.readInteger text).mapError .number |>.map fun n => (.int n, rest)
  else (Number.readReal text).mapError .number |>.map fun x => (.real x, rest)

/-- A numeral is taken apart into its parts. -/
theorem readNumber_append (h : a.IsJson) (hrest : Stops continuesNumber rest) :
    readNumber (a.chars ++ rest) =
      ofParts a.sign a.whole a.fractionChars a.exponentChars rest := by
  obtain ⟨hwhole, hfraction, hexponent⟩ := take_parts h hrest
  have hchars : a.chars ++ rest =
      a.sign ++ (a.whole ++ (a.fractionChars ++ (a.exponentChars ++ rest))) := by
    simp [Numeral.chars]
  obtain ⟨d, ds, hds⟩ := List.exists_cons_of_ne_nil a.whole_ne_nil
  have hd : d ≠ '-' := Text.ne_of_holds (h.whole_isDigit d (hds ▸ List.mem_cons_self)) (by decide)
  rw [hchars, ofParts]
  unfold readNumber
  split
  next sign ds' hsplit =>
    -- What is cut off in front of the digits is the sign, since no digit is a minus.
    have hparts : sign = a.sign ∧ ds' = a.whole ++ (a.fractionChars ++ (a.exponentChars ++ rest)) := by
      rcases h.sign_eq with hs | hs
      · rw [hs, List.nil_append] at hsplit
        rw [hs]
        split at hsplit
        · next hmore =>
          rw [hds] at hmore
          exact absurd (List.head_eq_of_cons_eq hmore) hd
        · cases hsplit
          exact ⟨rfl, rfl⟩
      · rw [hs] at hsplit ⊢
        cases hsplit
        exact ⟨rfl, rfl⟩
    rw [hparts.1, hparts.2, hwhole]
    simp only [hfraction, hexponent]
    split
    · cases Number.readInteger _ <;> rfl
    · cases Number.readReal _ <;> rfl

theorem readNumber_of_isSome (h : a.IsJson) (hrest : Stops continuesNumber rest)
    (hsome : a.fraction.isSome = true ∨ a.exponent.isSome = true) :
    readNumber (a.chars ++ rest) = .ok (.real a.value, rest) := by
  have hparts : (a.fractionChars.isEmpty && a.exponentChars.isEmpty) = false := by
    rw [Bool.and_eq_false_iff]
    rcases hsome with hsome | hsome
    · obtain ⟨ds, hds⟩ := Option.isSome_iff_exists.1 hsome
      left
      rw [Numeral.fractionChars, hds]
      rfl
    · obtain ⟨e, he⟩ := Option.isSome_iff_exists.1 hsome
      right
      rw [Numeral.exponentChars, he]
      rfl
  have hread := a.readReal_text
  rw [Numeral.text, Numeral.chars] at hread
  rw [readNumber_append h hrest, ofParts, hparts, if_neg (by simp), hread]
  rfl

theorem readNumber_of_integer {n : ℤ} (h : a.IsJson) (hrest : Stops continuesNumber rest)
    (hf : a.fraction = none) (he : a.exponent = none) (hread : Number.readInteger a.text = .ok n) :
    readNumber (a.chars ++ rest) = .ok (.int n, rest) := by
  have hfraction : a.fractionChars = [] := by
    rw [Numeral.fractionChars, hf]
    rfl
  have hexponent : a.exponentChars = [] := by
    rw [Numeral.exponentChars, he]
    rfl
  rw [Numeral.text, Numeral.chars] at hread
  rw [readNumber_append h hrest, ofParts, hread, hfraction, hexponent]
  rfl

end Json

end McdocSchema
