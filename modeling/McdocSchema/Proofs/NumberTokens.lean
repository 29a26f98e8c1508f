import McdocSchema.Proofs.ScannedNumbers
import McdocSchema.Proofs.ScannedParts

/-!
# Number tokens

Every number token of a text is a scanned number, and its kind is the one that follows from its parts.
A range reads one or two number tokens as its bounds (`Parse.boundTokens`). It fails just if one of them
has one of the faults of scanned numbers (`Token.numbers_read_iff`).
-/

namespace McdocSchema

/-! ## Numbers in a text -/

namespace Lexeme

open Number (ScannedNumber ScannedExponent typeLetters realLetters)
open Text

variable {cs rest sign digits fraction exponent suffix : List Char} {kind : Token.Kind} {value : String}

theorem mem_typeLetters_of_isSuffix {c : Char} (h : isSuffix c = true) : c ∈ typeLetters := by
  simp only [isSuffix, Bool.or_eq_true, beq_iff_eq] at h
  rcases h with (((rfl | rfl) | rfl) | rfl) | rfl <;> decide

/-- The parts that the scanner takes make up a number, with its suffix in lower case. -/
theorem IsNumber.exists_scannedNumber (h : IsNumber sign digits fraction exponent suffix) :
    ∃ x : ScannedNumber,
      x.chars = sign ++ digits ++ fraction ++ exponent ++ suffix.map Char.toLower ∧
      x.kind = numberKind fraction exponent (suffix.map Char.toLower) := by
  obtain ⟨hsign, hdigits, hne, hfraction, hexponent, hsuffix⟩ := h
  obtain ⟨f, hf, hfd⟩ : ∃ f : Option (List Char),
      f.elim [] ('.' :: ·) = fraction ∧ AreDigits (f.getD []) := by
    rcases hfraction with rfl | ⟨ds, rfl, hds⟩
    · exact ⟨none, rfl, by simp [AreDigits]⟩
    · exact ⟨some ds, rfl, hds⟩
  obtain ⟨e, he⟩ : ∃ e : Option ScannedExponent, e.elim [] ScannedExponent.chars = exponent := by
    rcases hexponent with rfl | ⟨c, s, ds, rfl, hc, hs, hds⟩
    · exact ⟨none, rfl⟩
    · exact ⟨some ⟨c, s, ds, by simpa [startsExponent] using hc, hs, hds⟩, rfl⟩
  obtain ⟨l, hl, hmem⟩ : ∃ l : Option Char,
      l.toList = suffix.map Char.toLower ∧ ∀ c ∈ l, c ∈ typeLetters := by
    rcases hsuffix with rfl | ⟨c, rfl, hc⟩
    · exact ⟨none, rfl, by simp⟩
    · exact ⟨some c.toLower, rfl, by rintro d ⟨⟩; exact mem_typeLetters_of_isSuffix hc⟩
  refine ⟨⟨sign, digits, f, e, l, hsign, hne, hdigits, hfd, hmem⟩, ?_, ?_⟩
  · rw [← hf, ← he, ← hl]
    simp [ScannedNumber.chars, ScannedNumber.magnitude, ScannedNumber.fractionChars,
      ScannedNumber.exponentChars]
  · rw [← hf, ← he, ← hl]
    cases l with
    | some c => simp [ScannedNumber.kind, numberKind, realLetters]
    | none => cases f <;> cases e <;> rfl

theorem Spells.exists_isNumber {l : List Char} (h : Spells l kind value) (hk : kind.isNumber = true) :
    ∃ sign digits fraction exponent suffix, IsNumber sign digits fraction exponent suffix ∧
      l = sign ++ digits ++ fraction ++ exponent ++ suffix ∧
      kind = numberKind fraction exponent (suffix.map Char.toLower) ∧
      value = String.ofList (sign ++ digits ++ fraction ++ exponent ++ suffix.map Char.toLower) := by
  have hword : ∀ {table : List (String × Token.Kind)} {w : String},
      (∀ entry ∈ table, entry.2.isNumber = false) → (kindIn table w).isNumber ≠ true := by
    intro table w htable hnumber
    rcases kindIn_eq_or_mem table w with heq | hmem
    · rw [heq] at hnumber
      cases hnumber
    · cases hnumber.symm.trans (htable _ hmem)
  cases h with
  | newline => cases hk
  | symbol h =>
    have hall : ∀ entry ∈ symbols, entry.2.isNumber = false := by decide
    cases hk.symm.trans (hall _ h)
  | word hc hcs => exact absurd hk (hword (by decide))
  | key hcs => exact absurd hk (hword (by decide))
  | number h => exact ⟨_, _, _, _, _, h, rfl, rfl, rfl⟩
  | string hq h => cases hk
  | doc h => cases hk

/-- A number token is what the reader of numbers takes. -/
theorem next_of_isNumber_kind (h : (next cs).value = .token kind value) (hk : kind.isNumber = true) :
    next cs = foundNumber cs ∧ ∃ x : ScannedNumber, value = x.text ∧ kind = x.kind := by
  obtain ⟨sign, digits, fraction, exponent, suffix, hnumber, htaken, rfl, rfl⟩ :=
    (next_spells h).exists_isNumber hk
  have hnext := next_of_isNumber hnumber (next cs).rest
  rw [← htaken, next_append] at hnext
  obtain ⟨x, hchars, hkind⟩ := hnumber.exists_scannedNumber
  exact ⟨hnext, x, by rw [ScannedNumber.text, hchars], hkind.symm⟩

/-! ## Points behind a number -/

theorem point_not_mem_of_isSign (h : IsSign sign) : '.' ∉ sign := by
  rcases h with rfl | ⟨c, rfl, hc⟩
  · simp
  · exact fun hmem => Text.ne_of_holds hc (by decide) (List.mem_singleton.1 hmem).symm

theorem point_not_mem_of_areDigits (h : AreDigits digits) : '.' ∉ digits :=
  fun hmem => Text.ne_of_holds (h '.' hmem) (by decide) rfl

theorem point_not_mem_of_isExponent (h : IsExponent exponent) : '.' ∉ exponent := by
  rcases h with rfl | ⟨c, s, ds, rfl, hc, hs, hds⟩
  · simp
  · intro hmem
    rcases List.mem_append.1 hmem with hmem | hmem
    · rcases List.mem_cons.1 hmem with heq | hmem
      · exact Text.ne_of_holds hc (by decide) heq.symm
      · exact point_not_mem_of_isSign hs hmem
    · exact point_not_mem_of_areDigits hds hmem

theorem point_not_mem_of_isSuffix (h : IsSuffix suffix) : '.' ∉ suffix.map Char.toLower := by
  rcases h with rfl | ⟨c, rfl, hc⟩
  · simp
  · exact fun hmem => Text.ne_of_holds hc (by decide) (List.mem_singleton.1 hmem).symm

theorem eq_nil_of_getLast?_append {front part : List Char} {c : Char} (hno : c ∉ part)
    (h : (front ++ part).getLast? = some c) : part = [] := by
  by_contra hne
  rw [List.getLast?_append_of_ne_nil _ hne] at h
  exact hno (List.mem_of_getLast? h)

/-- Only the fraction has a point, so a number that ends in one has no digits in it and nothing behind
it. -/
theorem eq_point_of_getLast? (hsign : IsSign sign) (hdigits : AreDigits digits)
    (hfraction : IsFraction fraction) (hexponent : IsExponent exponent) (hsuffix : IsSuffix suffix)
    (h : (sign ++ digits ++ fraction ++ exponent ++ suffix.map Char.toLower).getLast? = some '.') :
    fraction = ['.'] ∧ exponent = [] ∧ suffix = [] := by
  have hlower := eq_nil_of_getLast?_append (point_not_mem_of_isSuffix hsuffix) h
  rw [hlower, List.append_nil] at h
  obtain rfl := eq_nil_of_getLast?_append (point_not_mem_of_isExponent hexponent) h
  rw [List.append_nil] at h
  refine ⟨?_, rfl, List.map_eq_nil_iff.1 hlower⟩
  rcases hfraction with rfl | ⟨ds, rfl, hds⟩
  · rw [List.append_nil] at h
    rcases List.mem_append.1 (List.mem_of_getLast? h) with hmem | hmem
    · exact absurd hmem (point_not_mem_of_isSign hsign)
    · exact absurd hmem (point_not_mem_of_areDigits hdigits)
  · rw [← List.singleton_append, ← List.append_assoc] at h
    rw [eq_nil_of_getLast?_append (point_not_mem_of_areDigits hds) h]

theorem takeFraction_point (h : takeFraction cs = (['.'], rest)) : rest.head? ≠ some '.' := by
  unfold takeFraction at h
  split at h
  · cases h
  · next more hno =>
    obtain ⟨htake, rfl⟩ := Prod.mk.inj h
    have hmore := List.takeWhile_append_dropWhile (p := isDigit) (l := more)
    rw [(List.cons.inj htake).2, List.nil_append] at hmore
    rw [hmore]
    intro hpoint
    exact hno _ (List.cons_head?_tail hpoint).symm
  · cases h

/-- A number whose last character is its point does not stand in front of another point. -/
theorem number_rest_of_point (h : (number cs).value.1.getLast? = some '.') :
    (number cs).rest.head? ≠ some '.' := by
  obtain ⟨sign, r₁, hsign⟩ : ∃ s z, takeSign cs = (s, z) := ⟨_, _, rfl⟩
  obtain ⟨digits, r₂, hdigits⟩ : ∃ s z, (r₁.takeWhile isDigit, r₁.dropWhile isDigit) = (s, z) :=
    ⟨_, _, rfl⟩
  obtain ⟨fraction, r₃, hfraction⟩ : ∃ s z, takeFraction r₂ = (s, z) := ⟨_, _, rfl⟩
  obtain ⟨exponent, r₄, hexponent⟩ : ∃ s z, takeExponent r₃ = (s, z) := ⟨_, _, rfl⟩
  obtain ⟨suffix, r₅, hsuffix⟩ : ∃ s z, takeSuffix r₄ = (s, z) := ⟨_, _, rfl⟩
  rw [number_eq hsign hdigits hfraction hexponent hsuffix] at h ⊢
  have hisSign := isSign_takeSign cs
  have hareDigits := areDigits_takeWhile r₁
  have hisFraction := isFraction_takeFraction r₂
  have hisExponent := isExponent_takeExponent r₃
  have hisSuffix := isSuffix_takeSuffix r₄
  rw [hsign] at hisSign
  rw [(Prod.mk.inj hdigits).1] at hareDigits
  rw [hfraction] at hisFraction
  rw [hexponent] at hisExponent
  rw [hsuffix] at hisSuffix
  obtain ⟨rfl, rfl, rfl⟩ := eq_point_of_getLast? hisSign hareDigits hisFraction hisExponent hisSuffix h
  -- Nothing is taken behind the point.
  have hbehind : r₃ = r₅ := by
    have hfourth := takeExponent_append r₃
    have hfifth := takeSuffix_append r₄
    rw [hexponent] at hfourth
    rw [hsuffix] at hfifth
    exact hfourth.symm.trans hfifth.symm
  rw [hbehind] at hfraction
  exact takeFraction_point hfraction

end Lexeme

namespace Scanner

open Lexeme Text
open Number (ScannedNumber)

/-- Every number token is a scanned number, and stands in the text at its position. -/
theorem exists_scannedNumber {text : String} {t : Token} (ht : t ∈ (ofString text).tokens.tokens)
    (hk : t.kind.isNumber = true) :
    ∃ x : ScannedNumber, t.value = x.text ∧ t.kind = x.kind ∧ ∃ i lexeme rest,
      t.pos = .ofOffset text.toList i ∧ text.toList.drop i = lexeme ++ rest ∧
      Spells lexeme t.kind t.value ∧ (x.chars.getLast? = some '.' → rest.head? ≠ some '.') := by
  have hne : t.kind ≠ .eof := by
    intro heof
    rw [heof] at hk
    cases hk
  obtain ⟨us, vs, htokens⟩ := List.append_of_mem ht
  obtain ⟨s, hreaches, hpos, hnext⟩ := exists_reaches (ofString text) [] us htokens
  have hstands := hreaches.standsIn (standsIn_ofString text)
  obtain ⟨hfound, x, hvalue, hkind⟩ := next_of_isNumber_kind (hnext hne) hk
  refine ⟨x, hvalue, hkind, s.offset, (next s.rest).taken, (next s.rest).rest, ?_, ?_,
    next_spells (hnext hne), ?_⟩
  · rw [← hpos, hstands.pos_eq]
  · rw [next_append, ← hstands.text_eq, Scanner.text, offset, ← List.length_reverse, List.drop_left]
  · have hsame : (Lexeme.number s.rest).value.1 = x.chars := by
      have htoken := hnext hne
      rw [hfound, foundNumber] at htoken
      injection htoken with _ htext
      rw [hvalue, ScannedNumber.text, String.ofList_inj] at htext
      exact htext
    rw [← hsame, hfound]
    exact number_rest_of_point

end Scanner

/-! ## Ranges of scanned tokens -/

namespace Parse

open TokenStream
open Number (readReal ScannedNumber)

variable {ts : TokenStream} {t : Token}

def numberAt (ts : TokenStream) : List Token :=
  [ts.current].filter fun t => t.kind.isNumber

/-- The tokens that are read as the bounds of a range. -/
def boundTokens (ts : TokenStream) : List Token :=
  if ts.current.kind.isNumber then
    ts.current :: if ts.behind.current.kind ∈ [.range, .rangeExclusive] then numberAt ts.behind.behind
      else []
  else if ts.current.kind ∈ [.exclusiveRange, .exclusiveRangeExclusive] then numberAt ts.behind
  else []

def FailsOn {α : Type} (p : Parse α) (ts : TokenStream) : Prop :=
  ∃ fault rest, p ts = .failed fault rest

theorem bound_of_ok {x : Number.Binary64} (h : readReal ts.current.value = .ok x) :
    bound ts = .done x ts.behind := by
  rw [bound, current_bind, h]
  rfl

theorem bound_of_error {fault : Number.ReadFault} (h : readReal ts.current.value = .error fault) :
    bound ts = .failed (.number fault) ts := by
  rw [bound, current_bind, h]
  rfl

/-- Behind a delimiter, a bound is read if there is one. -/
theorem failsOn_bound?_iff {f : Option Number.Binary64 → NumberRange} :
    FailsOn (bound? >>= fun max => pure (f max)) ts ↔
      ∃ t ∈ numberAt ts, ∃ fault, readReal t.value = .error fault := by
  by_cases hk : ts.current.kind.isNumber = true
  · have hbound? : bound? ts = (some <$> bound) ts := by rw [bound?, current_bind, if_pos hk]
    have hmem : ∀ t, t ∈ numberAt ts ↔ t = ts.current := by simp [numberAt, hk]
    cases hread : readReal ts.current.value with
    | ok x =>
      have hdone : bound? ts = .done (some x) ts.behind := by
        rw [hbound?]
        exact map_of_done (bound_of_ok hread)
      refine iff_of_false ?_ ?_
      · rintro ⟨fault, rest, hfailed⟩
        rw [bind_of_done hdone] at hfailed
        cases hfailed
      · rintro ⟨t, ht, fault, herror⟩
        rw [(hmem t).1 ht, hread] at herror
        cases herror
    | error fault =>
      have hfailed : bound? ts = .failed (.number fault) ts := by
        rw [hbound?]
        exact map_of_failed (bound_of_error hread)
      exact iff_of_true ⟨_, _, bind_of_failed hfailed⟩ ⟨_, (hmem _).2 rfl, fault, hread⟩
  · have hk : ts.current.kind.isNumber = false := by simpa using hk
    refine iff_of_false ?_ (by simp [numberAt, hk])
    rintro ⟨fault, rest, hfailed⟩
    rw [bind_of_done (bound?_of_not_isNumber hk)] at hfailed
    cases hfailed

/-- A parser that goes on with `f` behind one of two tokens, and otherwise ends. -/
theorem failsOn_delimiter_iff {k k' : Token.Kind} {f f' : Option Number.Binary64 → NumberRange}
    {r : NumberRange} :
    FailsOn (do
      if ← eat k then bound? >>= fun max => pure (f max)
      else if ← eat k' then bound? >>= fun max => pure (f' max)
      else pure r) ts ↔
      ∃ t ∈ (if ts.current.kind ∈ [k, k'] then numberAt ts.behind else []),
        ∃ fault, readReal t.value = .error fault := by
  by_cases hk : ts.current.kind = k
  · rw [FailsOn, eat_bind_of_eq hk, if_pos rfl, if_pos (by simp [hk])]
    exact failsOn_bound?_iff
  rw [FailsOn, eat_bind_of_ne hk, if_neg (by simp)]
  by_cases hk' : ts.current.kind = k'
  · rw [eat_bind_of_eq hk', if_pos rfl, if_pos (by simp [hk'])]
    exact failsOn_bound?_iff
  · rw [eat_bind_of_ne hk', if_neg (by simp), if_neg (by simp [hk, hk'])]
    refine iff_of_false ?_ (by simp)
    rintro ⟨fault, rest, hfailed⟩
    cases hfailed

/-- A range fails just if one of its bounds cannot be read. -/
theorem failsOn_numberRange_iff :
    FailsOn numberRange ts ↔ ∃ t ∈ boundTokens ts, ∃ fault, readReal t.value = .error fault := by
  by_cases hk : ts.current.kind.isNumber = true
  · rw [FailsOn, numberRange, current_bind, if_pos hk, boundTokens, if_pos hk, List.exists_mem_cons_iff]
    cases hread : readReal ts.current.value with
    | error fault => exact iff_of_true ⟨_, _, bind_of_failed (bound_of_error hread)⟩ (.inl ⟨fault, rfl⟩)
    | ok x =>
      rw [bind_of_done (bound_of_ok hread)]
      simp only [reduceCtorEq, exists_false, false_or]
      exact failsOn_delimiter_iff
  · rw [FailsOn, numberRange, current_bind, if_neg hk, boundTokens, if_neg hk]
    exact failsOn_delimiter_iff

theorem mem_of_mem_numberAt (h : t ∈ numberAt ts) : t ∈ ts ∧ t.kind.isNumber = true := by
  obtain ⟨hmem, hk⟩ := List.mem_filter.1 h
  obtain rfl := List.mem_singleton.1 hmem
  cases ts with
  | nil => cases hk
  | cons u us => exact ⟨List.mem_cons_self, hk⟩

theorem mem_of_mem_behind (h : t ∈ ts.behind) : t ∈ ts := by
  unfold TokenStream.behind at h
  split at h
  · exact List.mem_cons_of_mem _ h
  · exact h

theorem mem_of_mem_boundTokens (h : t ∈ boundTokens ts) : t ∈ ts ∧ t.kind.isNumber = true := by
  rw [boundTokens] at h
  split at h
  · next hk =>
    rcases List.mem_cons.1 h with rfl | h
    · exact mem_of_mem_numberAt (List.mem_filter.2 ⟨List.mem_cons_self, hk⟩)
    · split at h
      · obtain ⟨hmem, hnumber⟩ := mem_of_mem_numberAt h
        exact ⟨mem_of_mem_behind (mem_of_mem_behind hmem), hnumber⟩
      · cases h
  · split at h
    · obtain ⟨hmem, hnumber⟩ := mem_of_mem_numberAt h
      exact ⟨mem_of_mem_behind hmem, hnumber⟩
    · cases h

end Parse

namespace Token

open Lexeme Number Scanner Parse

/-- **Number tokens, and when they can be read.** Every number token of a text has the text of a scanned
number, and its kind follows from the letter, the point and the exponent; where it ends in its point, no
other point follows in the text. It is read as a real number unless it has the letter of a type, an
exponent without digits or a digit that is not decimal, and an integer is read as one unless it has such
a letter, such a digit or too many digits. So a range of scanned tokens fails just if one of the bounds
that it reads has a fault. -/
theorem numbers_read_iff (text : String) :
    (∀ t ∈ (ofString text).tokens.tokens, t.kind.isNumber = true → ∃ x : ScannedNumber,
      t.value = x.text ∧ t.kind = x.kind ∧
      (∃ i lexeme rest, t.pos = .ofOffset text.toList i ∧ text.toList.drop i = lexeme ++ rest ∧
        Spells lexeme t.kind t.value ∧ (x.chars.getLast? = some '.' → rest.head? ≠ some '.')) ∧
      ((∃ fault, readReal t.value = .error fault) ↔ x.HasRealFault) ∧
      (t.kind = .integer → ((∃ fault, readInteger t.value = .error fault) ↔ x.HasIntegerFault))) ∧
    ∀ ts us, scan text = .ok ts → us <:+ ts →
      (FailsOn numberRange us ↔
        ∃ t ∈ boundTokens us, ∃ x : ScannedNumber, t.value = x.text ∧ x.HasRealFault) := by
  constructor
  · intro t ht hk
    obtain ⟨x, hvalue, hkind, hplace⟩ := exists_scannedNumber ht hk
    refine ⟨x, hvalue, hkind, hplace, ?_, fun hinteger => ?_⟩
    · rw [hvalue]
      exact x.readReal_fails_iff
    · rw [hvalue]
      exact x.readInteger_fails_iff (hkind.symm.trans hinteger)
  · intro ts us hscan hsuffix
    obtain ⟨-, rfl⟩ := scan_eq_ok_iff.1 hscan
    rw [failsOn_numberRange_iff]
    refine exists_congr fun t => and_congr_right fun ht => ?_
    obtain ⟨hmem, hk⟩ := mem_of_mem_boundTokens ht
    obtain ⟨x, hvalue, -⟩ := exists_scannedNumber (hsuffix.subset hmem) hk
    rw [hvalue, x.readReal_fails_iff]
    -- Whether there is a fault depends on the text only, however it is taken apart.
    constructor
    · exact fun hfault => ⟨x, rfl, hfault⟩
    · rintro ⟨y, hy, hfault⟩
      rwa [← x.readReal_fails_iff, hy, y.readReal_fails_iff]

end Token

end McdocSchema
