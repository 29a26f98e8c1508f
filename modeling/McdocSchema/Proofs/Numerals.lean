import Mathlib.Tactic.Ring
import McdocSchema.Proofs.NumberText

/-!
# Numerals

A decimal number without a suffix, as it stands in a text, with a value that is said digit by digit. The
text of every numeral is read as the floating-point number nearest to its value (`Numeral.readReal_text`),
and the scanner finds it whole in front of the end of the text, of an angle or, unless it ends in a point
itself, of two points (`Numeral.next_append`).
-/

namespace McdocSchema

namespace Text

/-- Whether the character is a decimal digit of some script. -/
def isDecimal (c : Char) : Bool :=
  (decimalValue? c).isSome

theorem isDigit_of_isDecimal {c : Char} (h : isDecimal c = true) : isDigit c = true := by
  rw [isDecimal, decimalValue?, Option.isSome_map] at h
  rw [isDigit, Bool.or_eq_true]
  exact .inl h

end Text

namespace Number

open Text (isDecimal decimalValue? Stops stops_nil stops_cons)
open Lexeme (IsSign IsFraction IsExponent IsNumber AreDigits)

/-! ## Digits of any script -/

/-- The value of decimal digits of any script. -/
def decimalDigitsValue (cs : List Char) : Nat :=
  cs.foldl (fun n c => 10 * n + (decimalValue? c).getD 0) 0

theorem decimalValue?_lt {c : Char} {v : Nat} (h : decimalValue? c = some v) : v < 10 := by
  obtain ⟨start, -, rfl⟩ := Option.map_eq_some_iff.1 h
  exact Nat.mod_lt _ (by decide)

theorem exists_plainDigit {c : Char} (h : isDecimal c = true) :
    ∃ v : Fin 10, decimalValue? c = some v.val ∧ plainDigit c = Nat.digitChar v := by
  obtain ⟨v, hv⟩ := Option.isSome_iff_exists.1 h
  exact ⟨⟨v, decimalValue?_lt hv⟩, hv, by rw [plainDigit, hv]⟩

theorem isDigit_plainDigit_of_isDecimal {c : Char} (h : isDecimal c = true) :
    (plainDigit c).isDigit = true := by
  obtain ⟨v, -, hv⟩ := exists_plainDigit h
  rw [hv, Nat.isDigit_digitChar]
  exact decide_eq_true v.isLt

theorem toNat_plainDigit {c : Char} (h : isDecimal c = true) :
    (plainDigit c).toNat - '0'.toNat = (decimalValue? c).getD 0 := by
  have hall : ∀ v : Fin 10, (Nat.digitChar v).toNat - '0'.toNat = v := by decide
  obtain ⟨v, hv, hplain⟩ := exists_plainDigit h
  rw [hplain, hall v, hv]
  rfl

theorem digitsValue_map_plainDigit {cs : List Char} (h : ∀ c ∈ cs, isDecimal c = true) :
    digitsValue (cs.map plainDigit) = decimalDigitsValue cs := by
  rw [digitsValue, decimalDigitsValue, List.foldl_map]
  exact List.foldl_ext _ _ _ fun n c hc => by rw [toNat_plainDigit (h c hc)]

theorem isDecimal_of_ascii {c : Char} (h : c.isDigit = true) : isDecimal c = true := by
  have hall : asciiDigits.all isDecimal = true := by decide
  exact List.all_eq_true.1 hall c (mem_asciiDigits_of_isDigit h)

theorem decimalDigitsValue_natDigits (n : Nat) : decimalDigitsValue (natDigits n) = n := by
  have hplain : (natDigits n).map plainDigit = natDigits n :=
    (List.map_congr_left fun c hc =>
      (plainChars_spec c (mem_plainChars_of_mem_natDigits hc)).2.1).trans (List.map_id _)
  rw [← digitsValue_map_plainDigit fun c hc => isDecimal_of_ascii (isDigit_of_mem_natDigits hc),
    hplain, digitsValue_natDigits]

theorem decimalDigitsValue_append (cs ds : List Char) :
    decimalDigitsValue (cs ++ ds) =
      decimalDigitsValue cs * 10 ^ ds.length + decimalDigitsValue ds := by
  induction ds using List.reverseRecOn with
  | nil => simp [decimalDigitsValue]
  | append_singleton ds c ih =>
    have hlast : ∀ es : List Char, decimalDigitsValue (es ++ [c]) =
        10 * decimalDigitsValue es + (decimalValue? c).getD 0 := by
      intro es
      rw [decimalDigitsValue, List.foldl_append]
      rfl
    rw [← List.append_assoc, hlast, hlast, ih, List.length_append, List.length_singleton,
      Nat.pow_succ]
    ring

theorem decimalDigitsValue_replicate_zero (k : Nat) :
    decimalDigitsValue (List.replicate k '0') = 0 := by
  have hzero : decimalDigitsValue ['0'] = 0 := by decide
  induction k with
  | zero => rfl
  | succ k ih => rw [List.replicate_succ', decimalDigitsValue_append, ih, hzero, Nat.zero_mul]

/-! ## Well-formed numerals -/

/-- An exponent with its mark, perhaps a sign, and digits. -/
structure Exponent where
  mark : Char
  sign : List Char
  digits : List Char
  mark_eq : mark = 'e' ∨ mark = 'E'
  isSign : IsSign sign
  digits_ne_nil : digits ≠ []
  isDecimal : ∀ c ∈ digits, isDecimal c = true

/-- A decimal number without a suffix. The fraction is what stands behind the point, if there is one. -/
structure Numeral where
  sign : List Char
  whole : List Char
  fraction : Option (List Char)
  exponent : Option Exponent
  isSign : IsSign sign
  whole_ne_nil : whole ≠ []
  whole_isDecimal : ∀ c ∈ whole, isDecimal c = true
  fraction_isDecimal : ∀ c ∈ fraction.getD [], isDecimal c = true

theorem isDecimal_of_mem_none : ∀ c ∈ (none : Option (List Char)).getD [], isDecimal c = true := by
  intro c hc
  cases hc

def Exponent.chars (e : Exponent) : List Char :=
  e.mark :: (e.sign ++ e.digits)

def Exponent.value (e : Exponent) : Int :=
  if e.sign = ['-'] then -(decimalDigitsValue e.digits : Int) else decimalDigitsValue e.digits

namespace Numeral

/-- The fraction and its point. -/
def fractionChars (a : Numeral) : List Char :=
  a.fraction.elim [] ('.' :: ·)

def exponentChars (a : Numeral) : List Char :=
  a.exponent.elim [] Exponent.chars

def chars (a : Numeral) : List Char :=
  a.sign ++ a.whole ++ a.fractionChars ++ a.exponentChars

def text (a : Numeral) : String :=
  String.ofList a.chars

/-- The digits before and behind the point. -/
def digits (a : Numeral) : List Char :=
  a.whole ++ a.fraction.getD []

/-- The exponent of the last digit. -/
def lastExponent (a : Numeral) : Int :=
  a.exponent.elim 0 Exponent.value - (a.fraction.getD []).length

/-- Whether there is a minus sign. -/
def isNegative (a : Numeral) : Bool :=
  a.sign == ['-']

/-- The floating-point number that is nearest to what the numeral says. -/
def value (a : Numeral) : Binary64 :=
  .ofDecimal a.isNegative (decimalDigitsValue a.digits) a.lastExponent

/-- Whether the last character is the point. -/
def endsInPoint (a : Numeral) : Bool :=
  a.exponent.isNone && a.fraction == some []

/-- The kind of the token that a numeral is: an integer has neither a point nor an exponent. -/
def kind (a : Numeral) : Token.Kind :=
  if a.fraction.isNone && a.exponent.isNone then .integer else .float

variable {a : Numeral}

/-! ## Numerals as lexemes -/

theorem isFraction_fractionChars (a : Numeral) : IsFraction a.fractionChars := by
  cases hf : a.fraction with
  | none =>
    rw [fractionChars, hf]
    exact .inl rfl
  | some ds =>
    have hds := a.fraction_isDecimal
    rw [hf] at hds
    rw [fractionChars, hf]
    exact .inr ⟨ds, rfl, fun c hc => Text.isDigit_of_isDecimal (hds c hc)⟩

theorem isExponent_exponentChars (a : Numeral) : IsExponent a.exponentChars := by
  cases he : a.exponent with
  | none =>
    rw [exponentChars, he]
    exact .inl rfl
  | some e =>
    rw [exponentChars, he]
    refine .inr ⟨e.mark, e.sign, e.digits, rfl, ?_, e.isSign, fun c hc =>
      Text.isDigit_of_isDecimal (e.isDecimal c hc)⟩
    rcases e.mark_eq with h | h <;> rw [h] <;> rfl

theorem isNumber (a : Numeral) :
    IsNumber a.sign a.whole a.fractionChars a.exponentChars [] :=
  ⟨a.isSign, fun c hc => Text.isDigit_of_isDecimal (a.whole_isDecimal c hc), a.whole_ne_nil,
    a.isFraction_fractionChars, a.isExponent_exponentChars, .inl rfl⟩

theorem numberKind_eq (a : Numeral) :
    Lexeme.numberKind a.fractionChars a.exponentChars [] = a.kind := by
  rw [kind, fractionChars, exponentChars]
  cases a.fraction with
  | none =>
    cases a.exponent with
    | none => rfl
    | some e => rfl
  | some ds => rfl

theorem isNumber_kind (a : Numeral) : a.kind.isNumber = true := by
  rw [kind]
  split <;> rfl

/-! ## Numerals are read as their values -/

/-- The marks of a numeral: all its characters but the digits. -/
def marks : List Char :=
  ['.', 'e', 'E', '+', '-']

theorem mem_marks_of_isSign {cs : List Char} {c : Char} (h : IsSign cs) (hc : c ∈ cs) :
    c ∈ marks := by
  rcases h with rfl | ⟨d, rfl, hd⟩
  · cases hc
  · obtain rfl := List.mem_singleton.1 hc
    rw [Lexeme.isSign, Bool.or_eq_true, beq_iff_eq, beq_iff_eq] at hd
    rcases hd with rfl | rfl <;> decide

theorem isDecimal_or_mem_marks {c : Char} (h : c ∈ a.chars) : isDecimal c = true ∨ c ∈ marks := by
  simp only [chars, List.mem_append] at h
  rcases h with ((h | h) | h) | h
  · exact .inr (mem_marks_of_isSign a.isSign h)
  · exact .inl (a.whole_isDecimal c h)
  · rw [fractionChars] at h
    cases hf : a.fraction with
    | none =>
      rw [hf] at h
      cases h
    | some ds =>
      rw [hf] at h
      have hds := a.fraction_isDecimal
      rw [hf] at hds
      rcases List.mem_cons.1 h with rfl | h
      · exact .inr (by decide)
      · exact .inl (hds c h)
  · rw [exponentChars] at h
    cases he : a.exponent with
    | none =>
      rw [he] at h
      cases h
    | some e =>
      rw [he] at h
      rcases List.mem_cons.1 h with rfl | h
      · rcases e.mark_eq with hm | hm <;> rw [hm] <;> exact .inr (by decide)
      rcases List.mem_append.1 h with h | h
      · exact .inr (mem_marks_of_isSign e.isSign h)
      · exact .inl (e.isDecimal c h)

/-- Marks are not changed before a number is read. -/
theorem marks_spec :
    ∀ c ∈ marks, isMargin c = false ∧ plainDigit c = c ∧ (c == '_') = false := by
  have hall : marks.all (fun c => !isMargin c && (plainDigit c == c && !(c == '_'))) = true := by
    decide
  intro c hc
  simpa using List.all_eq_true.1 hall c hc

theorem map_plainDigit_of_isSign {cs : List Char} (h : IsSign cs) : cs.map plainDigit = cs :=
  (List.map_congr_left fun c hc => (marks_spec c (mem_marks_of_isSign h hc)).2.1).trans
    (List.map_id cs)

theorem isMargin_of_mem {c : Char} (h : c ∈ a.chars) : isMargin c = false := by
  rcases isDecimal_or_mem_marks h with hc | hc
  · rw [isMargin, Text.isBlank_of_isDigit (Text.isDigit_of_isDecimal hc), Bool.false_and]
  · exact (marks_spec c hc).1

theorem plainDigit_ne_underscore {c : Char} (h : c ∈ a.chars) : (plainDigit c == '_') = false := by
  rcases isDecimal_or_mem_marks h with hc | hc
  · exact beq_false_of_ne (Text.ne_of_holds (isDigit_plainDigit_of_isDecimal hc) (by decide))
  · obtain ⟨-, hplain, hne⟩ := marks_spec c hc
    rw [hplain, hne]

/-- The characters behind the sign, with plain digits. -/
def plainMagnitude (a : Numeral) : List Char :=
  a.whole.map plainDigit ++ (a.fractionChars ++ a.exponentChars).map plainDigit

theorem map_plainDigit_chars (a : Numeral) : a.chars.map plainDigit = a.sign ++ a.plainMagnitude := by
  simp only [chars, plainMagnitude, List.map_append, List.append_assoc,
    map_plainDigit_of_isSign a.isSign]

theorem exists_plainMagnitude_eq (a : Numeral) :
    ∃ d ds, a.plainMagnitude = d :: ds ∧ Text.isDigit d = true := by
  obtain ⟨c, cs, hc⟩ := List.exists_cons_of_ne_nil a.whole_ne_nil
  refine ⟨plainDigit c, cs.map plainDigit ++ (a.fractionChars ++ a.exponentChars).map plainDigit,
    by rw [plainMagnitude, hc, List.map_cons, List.cons_append], ?_⟩
  exact isDigit_of_ascii (isDigit_plainDigit_of_isDecimal (a.whole_isDecimal c (by simp [hc])))

theorem takeSign_append {cs more : List Char} {d : Char} (h : IsSign cs)
    (hd : Text.isDigit d = true) :
    takeSign (cs ++ d :: more) = (cs == ['-'], d :: more) := by
  rcases h with rfl | ⟨c, rfl, hc⟩
  · exact takeSign_of_isDigit hd
  · rw [Lexeme.isSign, Bool.or_eq_true, beq_iff_eq, beq_iff_eq] at hc
    rcases hc with rfl | rfl <;> rfl

theorem readExponent?_exponentChars (a : Numeral) :
    readExponent? (a.exponentChars.map plainDigit) = some (a.exponent.elim 0 Exponent.value) := by
  rw [exponentChars]
  cases a.exponent with
  | none => rfl
  | some e =>
    have hmark : (e.mark == 'e' || e.mark == 'E') = true := by
      rcases e.mark_eq with h | h <;> rw [h] <;> rfl
    have hplain : plainDigit e.mark = e.mark := by
      rcases e.mark_eq with h | h <;> rw [h] <;> rfl
    have hdigits : ∀ c ∈ e.digits.map plainDigit, c.isDigit = true := by
      intro c hc
      obtain ⟨d, hd, rfl⟩ := List.mem_map.1 hc
      exact isDigit_plainDigit_of_isDecimal (e.isDecimal d hd)
    obtain ⟨d, ds, hds⟩ := List.exists_cons_of_ne_nil
      (by simpa using e.digits_ne_nil : e.digits.map plainDigit ≠ [])
    have hsign : takeSign (e.sign ++ e.digits.map plainDigit) =
        (e.sign == ['-'], e.digits.map plainDigit) := by
      rw [hds]
      exact takeSign_append e.isSign (isDigit_of_ascii (hdigits d (by simp [hds])))
    have hne : ¬ ((e.digits.map plainDigit).isEmpty ||
        !(e.digits.map plainDigit).all Char.isDigit) = true := by
      rw [List.all_eq_true.2 hdigits]
      simp [e.digits_ne_nil]
    show readExponent? ((e.mark :: (e.sign ++ e.digits)).map plainDigit) = some e.value
    rw [List.map_cons, List.map_append, map_plainDigit_of_isSign e.isSign, hplain, readExponent?,
      if_pos hmark, hsign]
    simp only
    rw [if_neg hne, digitsValue_map_plainDigit e.isDecimal, Exponent.value]
    simp only [beq_iff_eq]

theorem stops_isDigit_exponentChars (a : Numeral) :
    Stops Char.isDigit (a.exponentChars.map plainDigit) := by
  rw [exponentChars]
  cases a.exponent with
  | none => exact stops_nil
  | some e =>
    refine stops_cons.2 ?_
    rcases e.mark_eq with h | h <;> rw [h] <;> decide

theorem readMagnitude?_whole {negative : Bool} {whole rest : List Char} {e : Int}
    (hne : whole ≠ []) (hw : ∀ c ∈ whole, c.isDigit = true) (hd : Stops Char.isDigit rest)
    (hp : Stops (· == '.') rest) (he : readExponent? rest = some e) :
    readMagnitude? negative (whole ++ rest) =
      some (.ofDecimal negative (digitsValue whole) e) := by
  rw [readMagnitude?, Text.takeWhile_append_of_stops hw hd, Text.dropWhile_append_of_stops hw hd]
  dsimp only
  split
  · exact absurd (stops_cons.1 hp) (by decide)
  · simp [hne, he]

theorem readMagnitude?_point {negative : Bool} {whole ds rest : List Char} {e : Int}
    (hne : whole ≠ []) (hw : ∀ c ∈ whole, c.isDigit = true) (hds : ∀ c ∈ ds, c.isDigit = true)
    (hd : Stops Char.isDigit rest) (he : readExponent? rest = some e) :
    readMagnitude? negative (whole ++ '.' :: (ds ++ rest)) =
      some (.ofDecimal negative (digitsValue (whole ++ ds)) (e - ds.length)) := by
  have hpoint : Stops Char.isDigit ('.' :: (ds ++ rest)) := stops_cons.2 (by decide)
  rw [readMagnitude?, Text.takeWhile_append_of_stops hw hpoint,
    Text.dropWhile_append_of_stops hw hpoint]
  simp [Text.takeWhile_append_of_stops hds hd, Text.dropWhile_append_of_stops hds hd, hne, he]

theorem readMagnitude?_plainMagnitude (negative : Bool) (a : Numeral) :
    readMagnitude? negative a.plainMagnitude =
      some (.ofDecimal negative (decimalDigitsValue a.digits) a.lastExponent) := by
  have hplain : ∀ cs : List Char, (∀ c ∈ cs, isDecimal c = true) →
      ∀ c ∈ cs.map plainDigit, c.isDigit = true := by
    intro cs hcs c hc
    obtain ⟨d, hd, rfl⟩ := List.mem_map.1 hc
    exact isDigit_plainDigit_of_isDecimal (hcs d hd)
  have hwhole := hplain _ a.whole_isDecimal
  have hne : a.whole.map plainDigit ≠ [] := by simpa using a.whole_ne_nil
  have hexponent := a.readExponent?_exponentChars
  have hfraction := a.fraction_isDecimal
  rw [plainMagnitude, lastExponent, digits, fractionChars]
  revert hfraction
  -- Without a fraction the reader must see that no point follows the whole digits.
  cases a.fraction with
  | none =>
    intro _
    have hpoint : Stops (· == '.') (a.exponentChars.map plainDigit) := by
      rw [exponentChars]
      cases a.exponent with
      | none => exact stops_nil
      | some e =>
        refine stops_cons.2 ?_
        rcases e.mark_eq with h | h <;> rw [h] <;> decide
    rw [Option.elim_none, List.nil_append,
      readMagnitude?_whole hne hwhole a.stops_isDigit_exponentChars hpoint hexponent,
      digitsValue_map_plainDigit a.whole_isDecimal]
    simp
  | some ds =>
    intro hfraction
    have hvalue : digitsValue (a.whole.map plainDigit ++ ds.map plainDigit) =
        decimalDigitsValue (a.whole ++ ds) := by
      rw [← List.map_append]
      exact digitsValue_map_plainDigit fun c hc =>
        (List.mem_append.1 hc).elim (a.whole_isDecimal c) (hfraction c)
    have hpoint : plainDigit '.' = '.' := by decide
    rw [Option.elim_some, List.cons_append, List.map_cons, List.map_append, hpoint,
      readMagnitude?_point hne hwhole (hplain ds hfraction) a.stops_isDigit_exponentChars hexponent,
      hvalue, List.length_map]
    rfl

theorem readWord?_of_isDigit {negative : Bool} {d : Char} {ds : List Char}
    (hd : Text.isDigit d = true) : readWord? negative (d :: ds) = none := by
  have hi : d ≠ 'i' := Text.ne_of_holds hd (by decide)
  have hn : d ≠ 'n' := Text.ne_of_holds hd (by decide)
  simp [readWord?, Text.toLower_of_isDigit hd, hi, hn]

/-- A numeral is read as its value. -/
theorem readReal_text (a : Numeral) : readReal a.text = .ok a.value := by
  have hunder : removeUnderscores ' ' (a.chars.map plainDigit) = some (a.chars.map plainDigit) := by
    refine removeUnderscores_of_ne (by decide) fun c hc => ?_
    obtain ⟨d, hd, rfl⟩ := List.mem_map.1 hc
    exact plainDigit_ne_underscore hd
  obtain ⟨d, ds, hds, hd⟩ := a.exists_plainMagnitude_eq
  -- Nothing is trimmed, no underscore is removed, and the rest is a magnitude and not a word.
  have hread : readReal? a.text = some a.value := by
    rw [readReal?, text, String.toList_ofList,
      trimMargins_of_not_isMargin fun c hc => isMargin_of_mem hc, hunder, map_plainDigit_chars, hds]
    simp only [Option.bind_eq_bind, Option.bind_some, takeSign_append a.isSign hd,
      readWord?_of_isDigit hd, Option.none_or]
    rw [← hds, readMagnitude?_plainMagnitude]
    rfl
  rw [readReal, hread]

/-! ## Numerals in a text -/

variable {rest : List Char}

/-- What may follow a numeral: nothing, an angle or, unless it ends in a point, two points. -/
def EndsBefore (a : Numeral) (rest : List Char) : Prop :=
  rest = [] ∨ (∃ cs, rest = '<' :: cs) ∨ a.endsInPoint = false ∧ ∃ cs, rest = '.' :: '.' :: cs

theorem EndsBefore.stops {p : Char → Bool} (h : a.EndsBefore rest)
    (ha : p '<' = false) (hp : p '.' = false) : Stops p rest := by
  rcases h with rfl | ⟨cs, rfl⟩ | ⟨-, cs, rfl⟩
  · exact stops_nil
  · exact stops_cons.2 ha
  · exact stops_cons.2 hp

theorem stops_exponentChars (a : Numeral) {p : Char → Bool} (he : p 'e' = false)
    (he' : p 'E' = false) (h : Stops p rest) : Stops p (a.exponentChars ++ rest) := by
  refine Stops.append ?_ h
  rw [exponentChars]
  cases a.exponent with
  | none => exact stops_nil
  | some e =>
    refine stops_cons.2 ?_
    rcases e.mark_eq with hm | hm <;> rw [hm]
    · exact he
    · exact he'

theorem stops_fractionChars (a : Numeral) {p : Char → Bool} (hp : p '.' = false)
    (h : Stops p (a.exponentChars ++ rest)) : Stops p (a.fractionChars ++ (a.exponentChars ++ rest)) := by
  refine Stops.append ?_ h
  rw [fractionChars]
  cases a.fraction with
  | none => exact stops_nil
  | some ds => exact stops_cons.2 hp

/-- The fraction is taken whole, also in front of two points. -/
theorem takeFraction_append (h : a.EndsBefore rest) :
    Lexeme.takeFraction (a.fractionChars ++ (a.exponentChars ++ rest)) =
      (a.fractionChars, a.exponentChars ++ rest) := by
  have hdigit : Stops Text.isDigit (a.exponentChars ++ rest) :=
    a.stops_exponentChars (by decide) (by decide) (h.stops (by decide) (by decide))
  by_cases hpoint : Stops (· == '.') (a.exponentChars ++ rest)
  · exact Lexeme.takeFraction_append_of_stops a.isFraction_fractionChars hdigit hpoint
  -- Otherwise there is no exponent, and two points follow.
  have hexponent : a.exponent = none := by
    cases he : a.exponent with
    | none => rfl
    | some e =>
      refine absurd ?_ hpoint
      rw [exponentChars, he]
      refine stops_cons.2 ?_
      rcases e.mark_eq with hm | hm <;> rw [hm] <;> decide
  have hchars : a.exponentChars = [] := by
    rw [exponentChars, hexponent]
    rfl
  rw [hchars, List.nil_append] at hpoint hdigit ⊢
  rcases h with rfl | ⟨cs, rfl⟩ | ⟨hends, cs, rfl⟩
  · exact absurd stops_nil hpoint
  · exact absurd (stops_cons.2 (by decide)) hpoint
  cases hf : a.fraction with
  | none =>
    rw [fractionChars, hf]
    rfl
  | some ds =>
    have hds := a.fraction_isDecimal
    rw [hf, Option.getD_some] at hds
    have hdigits : ∀ c ∈ ds, Text.isDigit c = true := fun c hc => Text.isDigit_of_isDecimal (hds c hc)
    cases ds with
    | nil =>
      rw [endsInPoint, hexponent, hf] at hends
      cases hends
    | cons d ds =>
      have hd : d ≠ '.' := Text.ne_of_holds (hdigits d List.mem_cons_self) (by decide)
      have hsecond : ∀ more, d :: ds ++ '.' :: '.' :: cs ≠ '.' :: more := by
        intro more hmore
        exact hd (List.head_eq_of_cons_eq hmore)
      rw [fractionChars, hf, Option.elim_some, List.cons_append, Lexeme.takeFraction.eq_2 _ hsecond,
        Text.takeWhile_append_of_stops hdigits hdigit, Text.dropWhile_append_of_stops hdigits hdigit]

theorem number_append (h : a.EndsBefore rest) :
    Lexeme.number (a.chars ++ rest) = ⟨(a.chars, a.kind), a.chars, rest⟩ := by
  obtain ⟨hsign, hwhole, -, -, hexponent, hsuffix⟩ := a.isNumber
  have hbehind : ∀ {p : Char → Bool}, p '<' = false → p '.' = false → p 'e' = false →
      p 'E' = false → Stops p (a.fractionChars ++ (a.exponentChars ++ rest)) :=
    fun ha hp he he' => a.stops_fractionChars hp (a.stops_exponentChars he he' (h.stops ha hp))
  have hstop : Stops Text.isDigit (a.fractionChars ++ (a.exponentChars ++ rest)) :=
    hbehind (by decide) (by decide) (by decide) (by decide)
  have hnosign : Stops Lexeme.isSign (a.whole ++ (a.fractionChars ++ (a.exponentChars ++ rest))) :=
    (Lexeme.stops_digits hwhole fun _ => Lexeme.isDigit_of_isSign).append
      (hbehind (by decide) (by decide) (by decide) (by decide))
  have htakeExponent := Lexeme.takeExponent_append_of_stops hexponent
    (h.stops (by decide) (by decide)) (h.stops (by decide) (by decide))
    (h.stops (by decide) (by decide))
  have htakeSuffix := Lexeme.takeSuffix_append_of_stops hsuffix (h.stops (by decide) (by decide))
  rw [List.nil_append] at htakeSuffix
  simp only [Lexeme.number, chars, List.append_assoc, Lexeme.takeSign_append_of_stops hsign hnosign,
    Text.dropWhile_append_of_stops hwhole hstop, Text.takeWhile_append_of_stops hwhole hstop,
    takeFraction_append h, htakeExponent, htakeSuffix, List.map_nil, List.append_nil,
    numberKind_eq]

theorem next_append (h : a.EndsBefore rest) :
    Lexeme.next (a.chars ++ rest) = ⟨.token a.kind a.text, a.chars, rest⟩ := by
  have hfound : Lexeme.next (a.chars ++ rest) = Lexeme.foundNumber (a.chars ++ rest) := by
    obtain ⟨d, ds, hds⟩ := List.exists_cons_of_ne_nil a.whole_ne_nil
    have hd : Text.isDigit d = true :=
      Text.isDigit_of_isDecimal (a.whole_isDecimal d (by simp [hds]))
    rw [chars, hds]
    rcases a.isSign with hs | ⟨c, hs, hc⟩ <;> rw [hs]
    · exact Lexeme.next_of_isDigit hd
    · exact Lexeme.next_of_isSign hc hd
  rw [hfound, Lexeme.foundNumber, number_append h]
  rfl

theorem exists_chars_eq (a : Numeral) :
    ∃ c cs, a.chars = c :: cs ∧ (Lexeme.isSign c = true ∨ Text.isDigit c = true) := by
  obtain ⟨d, ds, hds⟩ := List.exists_cons_of_ne_nil a.whole_ne_nil
  have hd : Text.isDigit d = true :=
    Text.isDigit_of_isDecimal (a.whole_isDecimal d (by simp [hds]))
  rw [chars, hds]
  rcases a.isSign with hs | ⟨c, hs, hc⟩ <;> rw [hs]
  · exact ⟨d, _, rfl, .inr hd⟩
  · exact ⟨c, _, rfl, .inl hc⟩

end Numeral

end Number

end McdocSchema
