import Mathlib.Data.List.Induction
import Mathlib.Data.List.TakeWhile
import McdocSchema.Number.Reading
import McdocSchema.Proofs.CanonicalForm
import McdocSchema.Proofs.Spelling

/-!
# Numbers that read back

The text of a number as the printer writes it: an integer by its digits, and a floating-point number by
the digits of its exact decimal and an exponent. Both are number lexemes and both are read as the number
they were written for, an integer if it has no more digits than are read. The floating-point numbers
for which that holds are those that a number lexeme can stand for (`IsBound`).
-/

namespace McdocSchema.Number

open Text (isDigit)

/-! ## Plain characters -/

variable {c : Char} {cs : List Char}

/-- The digits that the printer writes. -/
def asciiDigits : List Char :=
  ['0', '1', '2', '3', '4', '5', '6', '7', '8', '9']

/-- The characters of which the texts of numbers are made. -/
def plainChars : List Char :=
  asciiDigits ++ ['e', '-']

/-- Nothing is done to plain characters before a number is read. -/
theorem plainChars_spec :
    ∀ c ∈ plainChars, isMargin c = false ∧ plainDigit c = c ∧ (c == '_') = false := by
  have hall : plainChars.all (fun c => !isMargin c && (plainDigit c == c && !(c == '_'))) = true := by
    decide
  intro c hc
  simpa using List.all_eq_true.1 hall c hc

theorem mem_asciiDigits_of_isDigit (h : c.isDigit = true) : c ∈ asciiDigits := by
  have hall : ∀ n : Fin 10, Char.ofNat (48 + n) ∈ asciiDigits := by decide
  rw [Char.isDigit, Bool.and_eq_true, decide_eq_true_eq, decide_eq_true_eq] at h
  have hlo : 48 ≤ c.toNat := h.1
  have hhi : c.toNat ≤ 57 := h.2
  have hc := hall ⟨c.toNat - 48, by omega⟩
  rwa [Nat.add_sub_cancel' hlo, Char.ofNat_toNat] at hc

theorem isDigit_of_ascii (h : c.isDigit = true) : isDigit c = true := by
  have hall : asciiDigits.all isDigit = true := by decide
  exact List.all_eq_true.1 hall c (mem_asciiDigits_of_isDigit h)

theorem mem_plainChars_of_isDigit (h : c.isDigit = true) : c ∈ plainChars :=
  List.mem_append_left ['e', '-'] (mem_asciiDigits_of_isDigit h)

theorem isDigit_of_mem_natDigits {n : Nat} (h : c ∈ natDigits n) : c.isDigit = true :=
  Nat.isDigit_of_mem_toDigits (by decide) (by decide) h

theorem trimMargins_of_not_isMargin (h : ∀ c ∈ cs, isMargin c = false) :
    trimMargins cs = cs := by
  have hdrop : ∀ ds : List Char, (∀ c ∈ ds, isMargin c = false) → ds.dropWhile isMargin = ds := by
    intro ds hds
    cases ds with
    | nil => rfl
    | cons d ds => rw [List.dropWhile_cons_of_neg (by simp [hds d List.mem_cons_self])]
  rw [trimMargins, hdrop cs h, hdrop cs.reverse (by simpa using h), List.reverse_reverse]

theorem removeUnderscores_of_ne {previous : Char} (hp : (previous == '_') = false)
    (h : ∀ c ∈ cs, (c == '_') = false) : removeUnderscores previous cs = some cs := by
  induction cs generalizing previous with
  | nil => simp [removeUnderscores, hp]
  | cons c cs ih =>
    have hc := h c List.mem_cons_self
    simp [removeUnderscores, hp, hc, ih hc fun d hd => h d (List.mem_cons_of_mem c hd)]

theorem trimmed_of_plain (h : ∀ c ∈ cs, c ∈ plainChars) :
    (trimMargins cs).map plainDigit = cs := by
  rw [trimMargins_of_not_isMargin fun c hc => (plainChars_spec c (h c hc)).1]
  exact (List.map_congr_left fun c hc => (plainChars_spec c (h c hc)).2.1).trans (List.map_id cs)

theorem mem_plainChars_of_mem_natDigits {n : Nat} (h : c ∈ natDigits n) :
    c ∈ plainChars :=
  mem_plainChars_of_isDigit (isDigit_of_mem_natDigits h)

theorem natDigits_ne_nil (n : Nat) : natDigits n ≠ [] :=
  Nat.toDigits_ne_nil

theorem digitsValue_natDigits (n : Nat) : digitsValue (natDigits n) = n :=
  Nat.ofDigitChars_ten_toDigits

theorem takeSign_of_isDigit (h : isDigit c = true) :
    takeSign (c :: cs) = (false, c :: cs) := by
  have hm : c ≠ '-' := Text.ne_of_holds h (by decide)
  have hp : c ≠ '+' := Text.ne_of_holds h (by decide)
  unfold takeSign
  split
  · next heq => exact absurd (List.head_eq_of_cons_eq heq) hm
  · next heq => exact absurd (List.head_eq_of_cons_eq heq) hp
  · rfl

theorem takeSign_signed (negative : Bool) (n : Nat) (cs : List Char) :
    takeSign (Binary64.signed negative (natDigits n ++ cs)) = (negative, natDigits n ++ cs) := by
  cases negative with
  | true => rfl
  | false =>
    obtain ⟨d, ds, hd⟩ := List.exists_cons_of_ne_nil (natDigits_ne_nil n)
    have hdigit : d.isDigit = true := isDigit_of_mem_natDigits (hd ▸ List.mem_cons_self)
    rw [hd]
    exact takeSign_of_isDigit (isDigit_of_ascii hdigit)

theorem mem_signed (negative : Bool) (h : ∀ c ∈ cs, c ∈ plainChars) :
    ∀ c ∈ Binary64.signed negative cs, c ∈ plainChars := by
  cases negative with
  | false => exact h
  | true =>
    intro c hc
    rcases List.mem_cons.1 hc with rfl | hc
    · decide
    · exact h c hc

/-! ## Integers -/

theorem sign_mul_natAbs (n : Int) :
    (if decide (n < 0) = true then -(n.natAbs : Int) else n.natAbs) = n := by
  by_cases h : n < 0
  · rw [if_pos (decide_eq_true h)]
    omega
  · rw [if_neg (by simpa using h)]
    omega

theorem intText_eq (n : Int) :
    intText n = String.ofList (Binary64.signed (n < 0) (natDigits n.natAbs)) := by
  cases n with
  | ofNat k =>
    have hk : decide (Int.ofNat k < 0) = false := decide_eq_false (by simp)
    rw [hk]
    rfl
  | negSucc k =>
    rw [decide_eq_true (Int.negSucc_lt_zero k)]
    rfl

/-- An integer with no more digits than are read reads back. -/
theorem readInteger_intText {n : Int} (h : (natDigits n.natAbs).length ≤ maxDigits) :
    readInteger (intText n) = .ok n := by
  have hplain : ∀ c ∈ natDigits n.natAbs, c ∈ plainChars := fun _ => mem_plainChars_of_mem_natDigits
  have hrun : ∀ c ∈ natDigits n.natAbs, (c.isDigit || c == '_') = true := fun c hc => by
    simp [isDigit_of_mem_natDigits hc]
  have hsign := takeSign_signed (n < 0) n.natAbs []
  rw [List.append_nil] at hsign
  have hdigits : integerDigits? (natDigits n.natAbs) = some (natDigits n.natAbs) := by
    rw [integerDigits?, List.takeWhile_eq_self_iff.2 hrun]
    exact removeUnderscores_of_ne (by decide) fun c hc => (plainChars_spec c (hplain c hc)).2.2
  have hrest : (natDigits n.natAbs).dropWhile (fun c => c.isDigit || c == '_') = [] :=
    List.dropWhile_eq_nil_iff.2 hrun
  rw [intText_eq, readInteger, String.toList_ofList, trimmed_of_plain (mem_signed _ hplain), hsign]
  dsimp only
  rw [hdigits, hrest]
  simp only [Nat.not_lt.2 h, if_false, List.isEmpty_nil, Bool.not_true, Bool.or_false,
    List.isEmpty_iff, natDigits_ne_nil, digitsValue_natDigits, sign_mul_natAbs]

/-! ## Floating-point numbers -/

/-- A decimal written with its digits and an exponent. -/
def Decimal.exponential (x : Decimal) : List Char :=
  natDigits x.digits ++ 'e' :: Binary64.signed (x.exponent < 0) (natDigits x.exponent.natAbs)

theorem Decimal.mem_exponential {x : Decimal} : ∀ c ∈ x.exponential, c ∈ plainChars := by
  intro c hc
  rcases List.mem_append.1 hc with hc | hc
  · exact mem_plainChars_of_mem_natDigits hc
  rcases List.mem_cons.1 hc with rfl | hc
  · decide
  · exact mem_signed _ (fun _ => mem_plainChars_of_mem_natDigits) c hc

theorem readExponent?_signed (e : Int) :
    readExponent? ('e' :: Binary64.signed (e < 0) (natDigits e.natAbs)) = some e := by
  have hsign := takeSign_signed (e < 0) e.natAbs []
  rw [List.append_nil] at hsign
  have hall : (natDigits e.natAbs).all Char.isDigit = true :=
    List.all_eq_true.2 fun _ => isDigit_of_mem_natDigits
  rw [readExponent?, if_pos (by decide), hsign]
  simp only [hall, digitsValue_natDigits, sign_mul_natAbs]
  rw [if_neg (by simp [natDigits_ne_nil])]

theorem readMagnitude?_exponential (negative : Bool) (x : Decimal) :
    readMagnitude? negative x.exponential =
      some (Binary64.ofDecimal negative x.digits x.exponent) := by
  have hdigits : ∀ c ∈ natDigits x.digits, c.isDigit = true := fun _ => isDigit_of_mem_natDigits
  have hstops : Text.Stops Char.isDigit
      ('e' :: Binary64.signed (x.exponent < 0) (natDigits x.exponent.natAbs)) :=
    Text.stops_cons.2 (by decide)
  rw [readMagnitude?, Decimal.exponential, Text.takeWhile_append_of_stops hdigits hstops,
    Text.dropWhile_append_of_stops hdigits hstops]
  simp [natDigits_ne_nil, readExponent?_signed, digitsValue_natDigits]

theorem readWord?_exponential (negative : Bool) (x : Decimal) :
    readWord? negative x.exponential = none := by
  obtain ⟨d, ds, hd⟩ := List.exists_cons_of_ne_nil (natDigits_ne_nil x.digits)
  have hmem : d ∈ natDigits x.digits := hd ▸ List.mem_cons_self
  have hdigit := isDigit_of_ascii (isDigit_of_mem_natDigits hmem)
  have hi : d ≠ 'i' := Text.ne_of_holds hdigit (by decide)
  have hn : d ≠ 'n' := Text.ne_of_holds hdigit (by decide)
  simp [readWord?, Decimal.exponential, hd, Text.toLower_of_isDigit hdigit, hi, hn]

theorem readReal_exponential (negative : Bool) (x : Decimal) :
    readReal (String.ofList (Binary64.signed negative x.exponential)) =
      .ok (Binary64.ofDecimal negative x.digits x.exponent) := by
  have hplain := mem_signed negative x.mem_exponential
  have hunder : removeUnderscores ' ' (Binary64.signed negative x.exponential) = some _ :=
    removeUnderscores_of_ne (by decide) fun c hc => (plainChars_spec c (hplain c hc)).2.2
  have hsign : takeSign (Binary64.signed negative x.exponential) = (negative, x.exponential) :=
    takeSign_signed negative x.digits _
  have hread : readReal? (String.ofList (Binary64.signed negative x.exponential)) =
      some (Binary64.ofDecimal negative x.digits x.exponent) := by
    rw [readReal?, String.toList_ofList, trimmed_of_plain hplain, hunder]
    simp [hsign, readWord?_exponential, readMagnitude?_exponential]
  rw [readReal, hread]

namespace Binary64

/-- A decimal that is read as the number without its sign. -/
def decimal : Binary64 → Decimal
  | .nan => ⟨0, 0⟩
  | .infinity _ => ⟨1, 999⟩
  | .finite _ m e => exactDecimal m e

def boundText (x : Binary64) : String :=
  String.ofList (signed x.isNegative x.decimal.exponential)

theorem readReal_boundText {x : Binary64} (h : x.IsNumber) : readReal x.boundText = .ok x := by
  rw [boundText, readReal_exponential]
  congr 1
  cases x with
  | nan => exact h.elim
  | infinity negative => rfl
  | finite negative m e => exact ofDecimal_exactDecimal negative h

end Binary64

/-! ## Lexemes of numbers -/

theorem areDigits_natDigits {n : Nat} : Lexeme.AreDigits (natDigits n) :=
  fun _ hc => isDigit_of_ascii (isDigit_of_mem_natDigits hc)

theorem signed_eq_append (negative : Bool) (cs : List Char) :
    ∃ sign, Lexeme.IsSign sign ∧ Binary64.signed negative cs = sign ++ cs := by
  cases negative with
  | false => exact ⟨[], .inl rfl, rfl⟩
  | true => exact ⟨['-'], .inr ⟨'-', rfl, by decide⟩, rfl⟩

theorem spells_intText (n : Int) : Lexeme.Spells (intText n).toList .integer (intText n) := by
  obtain ⟨sign, hsign, hs⟩ := signed_eq_append (n < 0) (natDigits n.natAbs)
  have h : Lexeme.IsNumber sign (natDigits n.natAbs) [] [] [] :=
    ⟨hsign, areDigits_natDigits, natDigits_ne_nil _, .inl rfl, .inl rfl, .inl rfl⟩
  have hspells := Lexeme.Spells.number h
  simp only [List.append_nil, List.map_nil, ← hs] at hspells
  rw [intText_eq, String.toList_ofList]
  exact hspells

/-- A number is written with a sign, digits and an exponent. -/
theorem exists_isNumber_boundText (x : Binary64) :
    ∃ sign digits exponent, Lexeme.IsNumber sign digits [] exponent [] ∧ exponent ≠ [] ∧
      x.boundText = String.ofList (sign ++ digits ++ exponent) := by
  obtain ⟨sign, hsign, hs⟩ := signed_eq_append x.isNegative x.decimal.exponential
  obtain ⟨sign', hsign', hs'⟩ :=
    signed_eq_append (x.decimal.exponent < 0) (natDigits x.decimal.exponent.natAbs)
  refine ⟨sign, natDigits x.decimal.digits, 'e' :: sign' ++ natDigits x.decimal.exponent.natAbs,
    ⟨hsign, areDigits_natDigits, natDigits_ne_nil _, .inl rfl,
      .inr ⟨'e', sign', _, rfl, by decide, hsign', areDigits_natDigits⟩, .inl rfl⟩, by simp, ?_⟩
  rw [Binary64.boundText, hs, Decimal.exponential, hs', List.append_assoc, List.cons_append]

theorem spells_boundText (x : Binary64) :
    Lexeme.Spells x.boundText.toList .float x.boundText := by
  obtain ⟨sign, digits, exponent, h, hne, hx⟩ := exists_isNumber_boundText x
  have hspells := Lexeme.Spells.number h
  have hkind : Lexeme.numberKind [] exponent [] = .float := by
    simp [Lexeme.numberKind, hne]
  rw [List.map_nil, List.append_nil, List.append_nil, hkind, ← hx] at hspells
  rwa [hx, String.toList_ofList, ← hx]

/-! ## What number lexemes stand for -/

/-- A floating-point number that a number lexeme without a suffix stands for. -/
def IsBound (x : Binary64) : Prop :=
  ∃ sign digits fraction exponent, Lexeme.IsNumber sign digits fraction exponent [] ∧
    readReal (String.ofList (sign ++ digits ++ fraction ++ exponent)) = .ok x

theorem mem_dropWhile_of_not {p : Char → Bool} (hc : p c = false)
    (h : c ∈ cs) : c ∈ cs.dropWhile p := by
  induction cs with
  | nil => cases h
  | cons d cs ih =>
    by_cases hd : p d = true
    · rw [List.dropWhile_cons_of_pos hd]
      rcases List.mem_cons.1 h with rfl | h
      · rw [hc] at hd
        cases hd
      · exact ih h
    · rwa [List.dropWhile_cons_of_neg hd]

theorem mem_trimMargins (hc : isMargin c = false) (h : c ∈ cs) :
    c ∈ trimMargins cs := by
  rw [trimMargins, List.mem_reverse]
  apply mem_dropWhile_of_not hc
  rw [List.mem_reverse]
  exact mem_dropWhile_of_not hc h

theorem mem_of_removeUnderscores {previous c : Char} {cs ds : List Char} (hc : c ≠ '_')
    (hds : removeUnderscores previous cs = some ds) (h : c ∈ cs) : c ∈ ds := by
  induction cs generalizing previous ds with
  | nil => cases h
  | cons d cs ih =>
    rw [removeUnderscores] at hds
    by_cases hd : d = '_'
    · rw [if_pos (by simp [hd])] at hds
      split at hds
      · rcases List.mem_cons.1 h with rfl | h
        · exact absurd hd hc
        · exact ih hds h
      · cases hds
    · rw [if_neg (by simp [hd])] at hds
      split at hds
      · cases hds
      · obtain ⟨es, hes, rfl⟩ := Option.map_eq_some_iff.1 hds
        rcases List.mem_cons.1 h with rfl | h
        · exact List.mem_cons_self
        · exact List.mem_cons_of_mem d (ih hes h)

theorem mem_takeSign (hm : c ≠ '-') (hp : c ≠ '+') (h : c ∈ cs) :
    c ∈ (takeSign cs).2 := by
  unfold takeSign
  split
  · exact (List.mem_cons.1 h).resolve_left hm
  · exact (List.mem_cons.1 h).resolve_left hp
  · exact h

theorem isDigit_plainDigit (h : isDigit c = true) : isDigit (plainDigit c) = true := by
  unfold plainDigit
  split
  · next v hv =>
    obtain ⟨start, -, rfl⟩ := Option.map_eq_some_iff.1 hv
    have hlt : (c.toNat - start) % 10 < 10 := Nat.mod_lt _ (by decide)
    exact isDigit_of_ascii (by simp [Nat.isDigit_digitChar, hlt])
  · exact h

/-- A text with a digit in it is no word, so that it is not read as no number. -/
theorem isNumber_of_readWord? {negative : Bool} {d : Char} {x : Binary64}
    (hd : isDigit d = true) (h : d ∈ cs) (hx : readWord? negative cs = some x) : x.IsNumber := by
  rw [readWord?] at hx
  split at hx
  · cases hx
    trivial
  split at hx
  · next hnan =>
    have hmem := List.mem_map_of_mem (f := Char.toLower) h
    rw [hnan, Text.toLower_of_isDigit hd] at hmem
    have hno : "nan".toList.any isDigit = false := by decide
    rw [Text.eq_false_of_any hno hmem] at hd
    cases hd
  · cases hx

theorem isNumber_of_readMagnitude? {negative : Bool} {x : Binary64}
    (hx : readMagnitude? negative cs = some x) : x.IsNumber := by
  rw [readMagnitude?] at hx
  dsimp only at hx
  -- With or without a fraction, there is a magnitude if there are digits and an exponent.
  split at hx
  all_goals
    split at hx
    · cases hx
    · obtain ⟨e, -, rfl⟩ := Option.map_eq_some_iff.1 hx
      exact Binary64.isNumber_ofDecimal _ _ _

/-- What is read from a text with a digit in it is infinite or in canonical form. -/
theorem isNumber_of_readReal {text : String} {d : Char} {x : Binary64} (hd : isDigit d = true)
    (hmem : d ∈ text.toList) (hx : readReal text = .ok x) : x.IsNumber := by
  have hne : ∀ c, isDigit c = false → plainDigit d ≠ c :=
    fun c => Text.ne_of_holds (isDigit_plainDigit hd)
  have hplain : plainDigit d ∈ (trimMargins text.toList).map plainDigit := by
    refine List.mem_map_of_mem (mem_trimMargins ?_ hmem)
    rw [isMargin, Text.isBlank_of_isDigit hd, Bool.false_and]
  have hread : readReal? text = some x := by
    rw [readReal] at hx
    split at hx
    · next hread =>
      cases hx
      exact hread
    · cases hx
  simp only [readReal?, Option.bind_eq_bind, Option.bind_eq_some_iff] at hread
  obtain ⟨cs, hcs, hread⟩ := hread
  have hcs := mem_of_removeUnderscores (hne '_' (by decide)) hcs hplain
  have hrest := mem_takeSign (hne '-' (by decide)) (hne '+' (by decide)) hcs
  rcases Option.or_eq_some_iff.1 hread with hword | ⟨-, hmagnitude⟩
  · exact isNumber_of_readWord? (isDigit_plainDigit hd) hrest hword
  · exact isNumber_of_readMagnitude? hmagnitude

/-- The numbers that number lexemes stand for are those that are infinite or in canonical form. -/
theorem isBound_iff {x : Binary64} : IsBound x ↔ x.IsNumber := by
  constructor
  · rintro ⟨sign, digits, fraction, exponent, hnumber, hx⟩
    obtain ⟨d, hd⟩ := List.exists_mem_of_ne_nil digits hnumber.digits_ne_nil
    exact isNumber_of_readReal (hnumber.areDigits d hd) (by simp [hd]) hx
  · intro h
    obtain ⟨sign, digits, exponent, hnumber, -, hx⟩ := exists_isNumber_boundText x
    refine ⟨sign, digits, [], exponent, hnumber, ?_⟩
    rw [List.append_nil, ← hx]
    exact Binary64.readReal_boundText h

/-! ## Values of integers -/

theorem digitsValue_lt (h : ∀ c ∈ cs, c.isDigit = true) :
    digitsValue cs < 10 ^ cs.length := by
  induction cs using List.reverseRecOn with
  | nil => decide
  | append_singleton cs c ih =>
    have hc : c.toNat - '0'.toNat < 10 := by
      have hall : asciiDigits.all (fun d => d.toNat - '0'.toNat < 10) = true := by decide
      simpa using List.all_eq_true.1 hall c (mem_asciiDigits_of_isDigit (h c (by simp)))
    have hcs := ih fun d hd => h d (List.mem_append_left _ hd)
    rw [digitsValue, List.foldl_append, List.length_append, List.length_singleton, Nat.pow_succ]
    change 10 * digitsValue cs + (c.toNat - '0'.toNat) < _
    omega

theorem of_mem_removeUnderscores {previous c : Char} {cs ds : List Char}
    (hds : removeUnderscores previous cs = some ds) (h : c ∈ ds) : c ∈ cs ∧ c ≠ '_' := by
  induction cs generalizing previous ds with
  | nil =>
    rw [removeUnderscores] at hds
    split at hds
    · cases hds
    · cases hds
      cases h
  | cons d cs ih =>
    rw [removeUnderscores] at hds
    by_cases hd : d = '_'
    · rw [if_pos (by simp [hd])] at hds
      split at hds
      · exact (ih hds h).imp_left (List.mem_cons_of_mem d)
      · cases hds
    · rw [if_neg (by simp [hd])] at hds
      split at hds
      · cases hds
      · obtain ⟨es, hes, rfl⟩ := Option.map_eq_some_iff.1 hds
        rcases List.mem_cons.1 h with rfl | h
        · exact ⟨List.mem_cons_self, hd⟩
        · exact (ih hes h).imp_left (List.mem_cons_of_mem d)

/-- An integer that was read has no more digits than are read. -/
theorem length_natDigits_of_readInteger {text : String} {n : Int}
    (h : readInteger text = .ok n) : (natDigits n.natAbs).length ≤ maxDigits := by
  rw [readInteger] at h
  dsimp only at h
  split at h
  · cases h
  · next ds hds =>
    split at h
    · cases h
    · next hlen =>
      split at h
      · cases h
      · have hdigits : ∀ c ∈ ds, c.isDigit = true := by
          intro c hc
          obtain ⟨hmem, hne⟩ := of_mem_removeUnderscores hds hc
          have hdigit := List.mem_takeWhile_imp hmem
          rw [Bool.or_eq_true, beq_iff_eq] at hdigit
          exact hdigit.resolve_right hne
        have hvalue : n.natAbs = digitsValue ds := by
          cases h
          split <;> simp
        rw [natDigits, Nat.length_toDigits_le_iff (by decide) (by decide), hvalue]
        exact (digitsValue_lt hdigits).trans_le (Nat.pow_le_pow_right (by decide) (not_lt.1 hlen))

end McdocSchema.Number
