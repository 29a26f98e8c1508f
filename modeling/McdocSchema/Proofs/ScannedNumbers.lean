import McdocSchema.Proofs.NumberLiterals

/-!
# Scanned numbers

The scanner takes more for a number than can be read as one. A scanned number may have digits without a
value in positional notation, an exponent without digits, and the letter of a type behind it
(`ScannedNumber`). It is read as a real number unless it has one of these (`HasRealFault`), and as an
integer, if its token is one, unless it has such a digit, a letter or too many digits
(`HasIntegerFault`).
-/

namespace McdocSchema

namespace Number

open Text (isDecimal isDigit Stops stops_nil stops_cons)
open Lexeme (IsSign IsNumber AreDigits)
open Numeral (marks marks_spec)

/-! ## Scanned numbers -/

/-- An exponent as it is scanned: its mark, perhaps a sign, and perhaps digits. -/
structure ScannedExponent where
  mark : Char
  sign : List Char
  digits : List Char
  mark_eq : mark = 'e' ∨ mark = 'E'
  isSign : IsSign sign
  areDigits : AreDigits digits

/-- The letters of the types. -/
def typeLetters : List Char :=
  integerLetters ++ realLetters

/-- A number as it is scanned: perhaps a sign, digits, perhaps a point with or without digits behind it,
perhaps an exponent, and perhaps the letter of a type in lower case. -/
structure ScannedNumber where
  sign : List Char
  whole : List Char
  fraction : Option (List Char)
  exponent : Option ScannedExponent
  suffix : Option Char
  isSign : IsSign sign
  whole_ne_nil : whole ≠ []
  whole_areDigits : AreDigits whole
  fraction_areDigits : AreDigits (fraction.getD [])
  suffix_mem : ∀ c ∈ suffix, c ∈ typeLetters

def ScannedExponent.chars (e : ScannedExponent) : List Char :=
  e.mark :: (e.sign ++ e.digits)

namespace ScannedNumber

/-- The fraction and its point. -/
def fractionChars (x : ScannedNumber) : List Char :=
  x.fraction.elim [] ('.' :: ·)

def exponentChars (x : ScannedNumber) : List Char :=
  x.exponent.elim [] ScannedExponent.chars

/-- The characters behind the sign. -/
def magnitude (x : ScannedNumber) : List Char :=
  x.whole ++ x.fractionChars ++ x.exponentChars ++ x.suffix.toList

def chars (x : ScannedNumber) : List Char :=
  x.sign ++ x.magnitude

def text (x : ScannedNumber) : String :=
  String.ofList x.chars

/-- All digits of a number, those of the exponent included. -/
def digits (x : ScannedNumber) : List Char :=
  x.whole ++ x.fraction.getD [] ++ x.exponent.elim [] ScannedExponent.digits

/-- The kind of the token that a number is: its letter decides, and without one the point and the
exponent. -/
def kind (x : ScannedNumber) : Token.Kind :=
  match x.suffix with
  | some c => if realLetters.contains c then .float else .integer
  | none => if x.fraction.isNone && x.exponent.isNone then .integer else .float

/-- What keeps a number from being read as a real number: the letter of a type, an exponent without
digits, or a digit that is not decimal. -/
def HasRealFault (x : ScannedNumber) : Prop :=
  x.suffix.isSome = true ∨ (∃ e ∈ x.exponent, e.digits = []) ∨ ∃ c ∈ x.digits, isDecimal c = false

/-- What keeps an integer token from being read as an integer: the letter of a type, a digit that is not
decimal, or too many digits. -/
def HasIntegerFault (x : ScannedNumber) : Prop :=
  x.suffix.isSome = true ∨ (∃ c ∈ x.digits, isDecimal c = false) ∨ maxDigits < x.digits.length

variable {x : ScannedNumber} {c : Char}

theorem mem_fractionChars :
    c ∈ x.fractionChars ↔ x.fraction.isSome = true ∧ c = '.' ∨ c ∈ x.fraction.getD [] := by
  rw [fractionChars]
  cases x.fraction <;> simp

theorem mem_exponentChars :
    c ∈ x.exponentChars ↔ ∃ e ∈ x.exponent, c = e.mark ∨ c ∈ e.sign ∨ c ∈ e.digits := by
  rw [exponentChars]
  cases x.exponent <;> simp [ScannedExponent.chars]

theorem mem_digits : c ∈ x.digits ↔
    c ∈ x.whole ∨ c ∈ x.fraction.getD [] ∨ ∃ e ∈ x.exponent, c ∈ e.digits := by
  rw [digits]
  cases x.exponent <;> simp

theorem isDigit_of_mem_digits (h : c ∈ x.digits) : isDigit c = true := by
  rcases mem_digits.1 h with h | h | ⟨e, -, h⟩
  · exact x.whole_areDigits c h
  · exact x.fraction_areDigits c h
  · exact e.areDigits c h

theorem mem_magnitude_of_mem_digits (h : c ∈ x.digits) : c ∈ x.magnitude := by
  simp only [magnitude, List.mem_append, mem_fractionChars, mem_exponentChars]
  rcases mem_digits.1 h with h | h | ⟨e, he, h⟩
  · exact .inl (.inl (.inl h))
  · exact .inl (.inl (.inr (.inr h)))
  · exact .inl (.inr ⟨e, he, .inr (.inr h)⟩)

theorem mem_magnitude (h : c ∈ x.magnitude) : c ∈ x.digits ∨ c ∈ marks ∨ c ∈ typeLetters := by
  simp only [magnitude, List.mem_append, mem_fractionChars, mem_exponentChars] at h
  rw [mem_digits]
  rcases h with ((h | ⟨-, rfl⟩ | h) | ⟨e, he, rfl | h | h⟩) | h
  · exact .inl (.inl h)
  · exact .inr (.inl (by decide))
  · exact .inl (.inr (.inl h))
  · rcases e.mark_eq with hm | hm <;> rw [hm] <;> exact .inr (.inl (by decide))
  · exact .inr (.inl (Numeral.mem_marks_of_isSign e.isSign h))
  · exact .inl (.inr (.inr ⟨e, he, h⟩))
  · exact .inr (.inr (x.suffix_mem c (Option.mem_toList.1 h)))

/-! ## What is made of a number before it is read -/

theorem plainDigit_of_not_isDecimal (h : isDecimal c = false) : plainDigit c = c := by
  have hnone : Text.decimalValue? c = none := by simpa [isDecimal] using h
  rw [plainDigit, hnone]

theorem typeLetters_spec : ∀ c ∈ typeLetters, isMargin c = false ∧ plainDigit c = c ∧
    (c.isDigit || c == '_') = false ∧ (c == '.') = false := by
  have hall : typeLetters.all (fun c => !isMargin c && (plainDigit c == c &&
      (!(c.isDigit || c == '_') && !(c == '.')))) = true := by
    decide
  intro c hc
  simpa using List.all_eq_true.1 hall c hc

theorem isMargin_of_mem (h : c ∈ x.chars) : isMargin c = false := by
  rcases List.mem_append.1 h with h | h
  · exact (marks_spec c (Numeral.mem_marks_of_isSign x.isSign h)).1
  rcases mem_magnitude h with h | h | h
  · rw [isMargin, Text.isBlank_of_isDigit (isDigit_of_mem_digits h), Bool.false_and]
  · exact (marks_spec c h).1
  · exact (typeLetters_spec c h).1

theorem plainDigit_ne_underscore (h : c ∈ x.magnitude) : plainDigit c ≠ '_' := by
  rcases mem_magnitude h with h | h | h
  · exact Text.ne_of_holds (isDigit_plainDigit (isDigit_of_mem_digits h)) (by decide)
  · obtain ⟨-, hplain, hne⟩ := marks_spec c h
    rw [hplain]
    simpa using hne
  · obtain ⟨-, hplain, hne, -⟩ := typeLetters_spec c h
    rw [Bool.or_eq_false_iff] at hne
    rw [hplain]
    simpa using hne.2

/-- The characters behind the sign, with plain digits. -/
def plain (x : ScannedNumber) : List Char :=
  x.magnitude.map plainDigit

theorem exists_plain_eq (x : ScannedNumber) : ∃ d ds, x.plain = d :: ds ∧ isDigit d = true := by
  obtain ⟨c, cs, hcs⟩ := List.exists_cons_of_ne_nil x.whole_ne_nil
  rw [plain, magnitude, hcs]
  exact ⟨plainDigit c, _, rfl, isDigit_plainDigit (x.whole_areDigits c (by simp [hcs]))⟩

theorem trimmed_chars (x : ScannedNumber) :
    (trimMargins x.chars).map plainDigit = x.sign ++ x.plain := by
  rw [trimMargins_of_not_isMargin fun c hc => isMargin_of_mem hc, chars, List.map_append,
    Numeral.map_plainDigit_of_isSign x.isSign]
  rfl

theorem takeSign_chars (x : ScannedNumber) :
    takeSign (x.sign ++ x.plain) = (x.sign == ['-'], x.plain) := by
  obtain ⟨d, ds, hds, hd⟩ := x.exists_plain_eq
  rw [hds]
  exact Numeral.takeSign_append x.isSign hd

theorem readReal?_text (x : ScannedNumber) :
    readReal? x.text = readMagnitude? (x.sign == ['-']) x.plain := by
  have hunder : removeUnderscores ' ' (x.sign ++ x.plain) = some (x.sign ++ x.plain) := by
    refine removeUnderscores_of_ne (by decide) fun c hc => ?_
    rcases List.mem_append.1 hc with hc | hc
    · exact (marks_spec c (Numeral.mem_marks_of_isSign x.isSign hc)).2.2
    · obtain ⟨d, hd, rfl⟩ := List.mem_map.1 hc
      exact beq_false_of_ne (plainDigit_ne_underscore hd)
  obtain ⟨d, ds, hds, hd⟩ := x.exists_plain_eq
  rw [readReal?, text, String.toList_ofList, trimmed_chars, hunder]
  simp only [Option.bind_eq_bind, Option.bind_some, takeSign_chars]
  rw [hds, Numeral.readWord?_of_isDigit hd, Option.none_or]

end ScannedNumber

/-! ## What is read as a real number -/

/-- Plain digits and marks, with a digit or a point at the end. -/
structure IsTidy (cs : List Char) : Prop where
  mem : ∀ c ∈ cs, c.isDigit = true ∨ c ∈ marks
  last : ∀ c ∈ cs.getLast?, c.isDigit = true ∨ c = '.'

variable {cs ds : List Char}

theorem isTidy_of_isDigit (h : ∀ c ∈ cs, c.isDigit = true) : IsTidy cs :=
  ⟨fun c hc => .inl (h c hc), fun c hc => .inl (h c (List.mem_of_getLast? hc))⟩

theorem IsTidy.append (h : IsTidy cs) (h' : IsTidy ds) : IsTidy (cs ++ ds) := by
  refine ⟨fun c hc => (List.mem_append.1 hc).elim (h.mem c) (h'.mem c), fun c hc => ?_⟩
  rw [List.getLast?_append, Option.mem_def, Option.or_eq_some_iff] at hc
  rcases hc with hc | ⟨-, hc⟩
  · exact h'.last c hc
  · exact h.last c hc

/-- What stands in front of the last digit may be any marks. -/
theorem IsTidy.append_left (h : IsTidy ds) (hne : ds ≠ []) (hc : ∀ c ∈ cs, c ∈ marks) :
    IsTidy (cs ++ ds) := by
  refine ⟨fun c hmem => (List.mem_append.1 hmem).elim (fun hm => .inr (hc c hm)) (h.mem c), ?_⟩
  rw [List.getLast?_append_of_ne_nil _ hne]
  exact h.last

theorem exists_sign_append (cs : List Char) : ∃ s, IsSign s ∧ cs = s ++ (takeSign cs).2 := by
  unfold takeSign
  split
  · exact ⟨['-'], .inr ⟨'-', rfl, by decide⟩, rfl⟩
  · exact ⟨['+'], .inr ⟨'+', rfl, by decide⟩, rfl⟩
  · exact ⟨[], .inl rfl, rfl⟩

theorem isTidy_of_readExponent? {e : Int} (h : readExponent? cs = some e) : IsTidy cs := by
  cases cs with
  | nil => exact isTidy_of_isDigit (by simp)
  | cons c cs =>
    rw [readExponent?] at h
    split at h
    · next hc =>
      obtain ⟨s, hs, hcs⟩ := exists_sign_append cs
      split at h
      next negative ds hsign =>
      rw [hsign] at hcs
      have hds : ds ≠ [] ∧ ∀ d ∈ ds, d.isDigit = true := by
        by_contra hno
        rw [if_pos (by simpa [or_iff_not_imp_left] using hno)] at h
        cases h
      have hmark : c ∈ marks := by
        rw [Bool.or_eq_true, beq_iff_eq, beq_iff_eq] at hc
        rcases hc with rfl | rfl <;> decide
      rw [hcs, ← List.cons_append]
      refine (isTidy_of_isDigit hds.2).append_left hds.1 ?_
      exact List.forall_mem_cons.2 ⟨hmark, fun d hd => Numeral.mem_marks_of_isSign hs hd⟩
    · cases h

/-- Only tidy texts are read as magnitudes. -/
theorem isTidy_of_readMagnitude? {negative : Bool} {v : Binary64}
    (h : readMagnitude? negative cs = some v) : IsTidy cs := by
  have hdigits : ∀ ds : List Char, IsTidy (ds.takeWhile Char.isDigit) := fun ds =>
    isTidy_of_isDigit fun _ => List.mem_takeWhile_imp
  have hpoint : IsTidy ['.'] := by
    refine ⟨fun c hc => .inr ?_, ?_⟩
    · rw [List.mem_singleton.1 hc]
      decide
    · rintro c ⟨⟩
      exact .inr rfl
  rw [readMagnitude?] at h
  rw [← List.takeWhile_append_dropWhile (p := Char.isDigit) (l := cs)]
  refine (hdigits cs).append ?_
  split at h
  next fraction rest hrest =>
  split at h
  · cases h
  obtain ⟨e, he, -⟩ := Option.map_eq_some_iff.1 h
  have hexponent := isTidy_of_readExponent? he
  split at hrest
  · next more hmore =>
    obtain ⟨rfl, rfl⟩ := Prod.mk.inj hrest
    rw [hmore, ← List.singleton_append, ← List.takeWhile_append_dropWhile (p := Char.isDigit) (l := more)]
    exact hpoint.append ((hdigits more).append hexponent)
  · obtain ⟨-, rfl⟩ := Prod.mk.inj hrest
    exact hexponent

namespace ScannedNumber

variable {x : ScannedNumber} {c : Char}

theorem not_isTidy_of_not_isDecimal (hc : c ∈ x.digits) (hd : isDecimal c = false) :
    ¬ IsTidy x.plain := by
  intro htidy
  have hmem : c ∈ x.plain :=
    List.mem_map.2 ⟨c, mem_magnitude_of_mem_digits hc, plainDigit_of_not_isDecimal hd⟩
  rcases htidy.mem c hmem with hdigit | hmark
  · rw [isDecimal_of_ascii hdigit] at hd
    cases hd
  · have hmarks : marks.any isDigit = false := by decide
    exact Text.ne_of_holds (isDigit_of_mem_digits hc) (Text.eq_false_of_any hmarks hmark) rfl

theorem not_isTidy_of_getLast? (hc : x.magnitude.getLast? = some c)
    (hno : (plainDigit c).isDigit = false ∧ plainDigit c ≠ '.') : ¬ IsTidy x.plain := by
  intro htidy
  have hlast : plainDigit c ∈ x.plain.getLast? := by
    rw [plain, List.getLast?_map, hc]
    rfl
  rcases htidy.last _ hlast with hdigit | hpoint
  · rw [hdigit] at hno
    cases hno.1
  · exact hno.2 hpoint

theorem exists_getLast?_of_digits_eq {e : ScannedExponent} (h : e.digits = []) :
    ∃ c ∈ ['e', 'E', '+', '-'], e.chars.getLast? = some c := by
  rw [ScannedExponent.chars, h, List.append_nil]
  rcases e.isSign with hs | ⟨c, hs, hc⟩
  · rw [hs]
    refine ⟨e.mark, ?_, rfl⟩
    rcases e.mark_eq with hm | hm <;> rw [hm] <;> decide
  · rw [hs]
    refine ⟨c, ?_, rfl⟩
    rw [Lexeme.isSign, Bool.or_eq_true, beq_iff_eq, beq_iff_eq] at hc
    rcases hc with rfl | rfl <;> decide

/-- A number with a fault is not tidy. -/
theorem HasRealFault.not_isTidy (h : x.HasRealFault) : ¬ IsTidy x.plain := by
  -- The suffix is looked at first, because without one the exponent is at the end.
  cases hs : x.suffix with
  | some c =>
    obtain ⟨-, hplain, hne, hpoint⟩ := typeLetters_spec c (x.suffix_mem c hs)
    have hlast : x.magnitude.getLast? = some c := by
      rw [magnitude, hs, Option.toList_some, List.getLast?_concat]
    rw [Bool.or_eq_false_iff] at hne
    refine not_isTidy_of_getLast? hlast ?_
    rw [hplain]
    exact ⟨hne.1, by simpa using hpoint⟩
  | none =>
    rcases h with h | ⟨e, he, hdigits⟩ | ⟨c, hc, hd⟩
    · rw [hs] at h
      cases h
    · obtain ⟨c, hmem, hc⟩ := exists_getLast?_of_digits_eq hdigits
      have hlast : x.magnitude.getLast? = some c := by
        rw [magnitude, hs, Option.toList_none, List.append_nil, exponentChars, he, Option.elim_some,
          List.getLast?_append, hc]
        rfl
      have hmarks : ['e', 'E', '+', '-'].any (fun c => (plainDigit c).isDigit || plainDigit c == '.') =
          false := by decide
      refine not_isTidy_of_getLast? hlast ?_
      simpa using Text.eq_false_of_any hmarks hmem
    · exact not_isTidy_of_not_isDecimal hc hd

/-- A number without a fault is a numeral. -/
theorem exists_numeral (h : ¬ x.HasRealFault) : ∃ a : Numeral, a.text = x.text := by
  simp only [HasRealFault, not_or, not_exists, not_and, Bool.not_eq_true, Bool.not_eq_false] at h
  obtain ⟨hsuffix, hexponent, hdigits⟩ := h
  have hsuffix : x.suffix = none := by simpa using hsuffix
  have hwhole : ∀ c ∈ x.whole, isDecimal c = true := fun c hc => hdigits c (mem_digits.2 (.inl hc))
  have hfraction : ∀ c ∈ x.fraction.getD [], isDecimal c = true := fun c hc =>
    hdigits c (mem_digits.2 (.inr (.inl hc)))
  have hchars : ∀ a : Numeral, a.sign = x.sign → a.whole = x.whole → a.fraction = x.fraction →
      a.exponentChars = x.exponentChars → a.text = x.text := by
    intro a hsign hwhole hfraction hexponent
    rw [Numeral.text, text, Numeral.chars, chars, magnitude, Numeral.fractionChars, fractionChars, hsign,
      hwhole, hfraction, hexponent, hsuffix]
    simp
  cases he : x.exponent with
  | none =>
    refine ⟨⟨x.sign, x.whole, x.fraction, none, x.isSign, x.whole_ne_nil, hwhole, hfraction⟩, ?_⟩
    exact hchars _ rfl rfl rfl (by rw [exponentChars, he]; rfl)
  | some e =>
    have hall : ∀ c ∈ e.digits, isDecimal c = true := fun c hc =>
      hdigits c (mem_digits.2 (.inr (.inr ⟨e, he, hc⟩)))
    refine ⟨⟨x.sign, x.whole, x.fraction,
      some ⟨e.mark, e.sign, e.digits, e.mark_eq, e.isSign, hexponent e he, hall⟩, x.isSign,
      x.whole_ne_nil, hwhole, hfraction⟩, ?_⟩
    exact hchars _ rfl rfl rfl (by rw [exponentChars, he]; rfl)

/-- **A scanned number is read as a real number unless it has a fault.** -/
theorem readReal_fails_iff (x : ScannedNumber) :
    (∃ fault, readReal x.text = .error fault) ↔ x.HasRealFault := by
  constructor
  · rintro ⟨fault, hread⟩
    by_contra hno
    obtain ⟨a, ha⟩ := exists_numeral hno
    rw [← ha, a.readReal_text] at hread
    cases hread
  · intro h
    have hnone : readReal? x.text = none := by
      rw [readReal?_text]
      by_contra hsome
      obtain ⟨v, hv⟩ := Option.ne_none_iff_exists'.1 hsome
      exact h.not_isTidy (isTidy_of_readMagnitude? hv)
    exact ⟨.notReal x.text, by rw [readReal, hnone]⟩

/-! ## What is read as an integer -/

/-- Only digits, and underscores between them, are read as an integer behind its sign. -/
theorem isDigit_of_readInteger {text : String} {n : Int} (h : readInteger text = .ok n) :
    ∀ c ∈ (takeSign ((trimMargins text.toList).map plainDigit)).2, (c.isDigit || c == '_') = true := by
  rw [readInteger] at h
  split at h
  next negative cs hsign =>
  rw [hsign]
  split at h
  · cases h
  split at h
  · cases h
  split at h
  · cases h
  next hrest =>
  rw [Bool.or_eq_true, not_or, Bool.not_eq_true, Bool.not_eq_true, Bool.not_eq_false'] at hrest
  exact List.dropWhile_eq_nil_iff.1 (List.isEmpty_iff.1 hrest.2)

theorem fraction_eq_of_kind (h : x.kind = .integer) (hs : x.suffix = none) :
    x.fraction = none ∧ x.exponent = none := by
  rw [kind, hs] at h
  dsimp only at h
  split at h
  · next hnone => simpa using hnone
  · cases h

/-- **An integer token is read as an integer unless it has a fault.** -/
theorem readInteger_fails_iff (h : x.kind = .integer) :
    (∃ fault, readInteger x.text = .error fault) ↔ x.HasIntegerFault := by
  by_cases hclean : x.suffix = none ∧ ∀ c ∈ x.digits, isDecimal c = true
  · -- An integer numeral, of which only the length matters.
    obtain ⟨hsuffix, hdecimal⟩ := hclean
    obtain ⟨hfraction, hexponent⟩ := fraction_eq_of_kind h hsuffix
    have hdigits : x.digits = x.whole := by simp [digits, hfraction, hexponent]
    rw [hdigits] at hdecimal
    let a : IntegerNumeral := ⟨⟨x.sign, x.whole, none, none, x.isSign, x.whole_ne_nil, hdecimal,
      isDecimal_of_mem_none⟩, rfl, rfl⟩
    have htext : x.text = String.ofList (a.chars ++ (⟨[], .inl rfl⟩ : Suffix integerLetters).lowered) := by
      rw [text, chars, magnitude, fractionChars, exponentChars, hfraction, hexponent, hsuffix, a.chars_eq]
      simp [a, Suffix.lowered]
    rw [htext, a.readInteger_lowered, HasIntegerFault, hdigits, hsuffix]
    have hnone : ¬ ∃ c ∈ x.whole, isDecimal c = false := by
      rintro ⟨c, hc, hd⟩
      rw [hdecimal c hc] at hd
      cases hd
    show (∃ fault, (if maxDigits < x.whole.length then _ else _) = _) ↔ _
    by_cases hlong : maxDigits < x.whole.length
    · simp [hlong]
    · simp [hlong, hnone]
  · have hfault : x.HasIntegerFault := by
      by_contra hno
      simp only [HasIntegerFault, not_or, not_exists, not_and, Bool.not_eq_true, Bool.not_eq_false] at hno
      exact hclean ⟨by simpa using hno.1, hno.2.1⟩
    refine iff_of_true ?_ hfault
    -- The letter, or the digit, is still there when only digits may be left.
    cases hread : readInteger x.text with
    | error fault => exact ⟨fault, rfl⟩
    | ok n =>
      refine absurd ?_ hclean
      have hall := isDigit_of_readInteger hread
      rw [text, String.toList_ofList, trimmed_chars, takeSign_chars] at hall
      refine ⟨Option.eq_none_iff_forall_not_mem.2 fun c hc => ?_, fun c hc => ?_⟩
      · obtain ⟨-, hplain, hne, -⟩ := typeLetters_spec c (x.suffix_mem c hc)
        have hmem : c ∈ x.magnitude := List.mem_append_right _ (Option.mem_toList.2 hc)
        have hdigit := hall _ (List.mem_map_of_mem hmem)
        rw [hplain, hne] at hdigit
        cases hdigit
      · by_contra hd
        have hd : isDecimal c = false := by simpa using hd
        have hdigit := hall _ (List.mem_map_of_mem (mem_magnitude_of_mem_digits hc))
        rw [plainDigit_of_not_isDecimal hd, Bool.or_eq_true] at hdigit
        rcases hdigit with hdigit | hunder
        · rw [isDecimal_of_ascii hdigit] at hd
          cases hd
        · exact Text.ne_of_holds (isDigit_of_mem_digits hc) (by decide) (eq_of_beq hunder)

end ScannedNumber

end Number

end McdocSchema
