import Mathlib.Tactic.FinCases
import McdocSchema.Token.Lexeme

/-!
# How tokens are spelled

The lexemes of the language: `Spells lexeme kind value` says that the characters are the lexeme of a token
with that kind and value. A lexeme spells one token only, and the scanner reads it wherever it stands in
front of a space or a line feed, or at the end of the text (`Spells.next_append`).
-/

namespace McdocSchema

namespace Text

/-! ## Classes of characters -/

variable {p : Char → Bool} {c : Char}

namespace RangeTable

/-- Whether no range of the one table meets a range of the other. Both are walked through once. -/
def apart : RangeTable → RangeTable → Bool
  | [], _ => true
  | (lo, hi) :: table, table' =>
    match table'.dropWhile (·.2 < lo) with
    | [] => true
    | s :: rest => hi < s.1 && apart table (s :: rest)

/-- Ranges that end before the number can be left out. -/
theorem startAt?_of_dropWhile {table : RangeTable} {n lo : Nat} (hlo : lo ≤ n)
    (h : startAt? n (table.dropWhile (·.2 < lo)) = none) : startAt? n table = none := by
  induction table with
  | nil => rfl
  | cons r table ih =>
    by_cases hr : r.2 < lo
    · rw [List.dropWhile_cons_of_pos (by simpa using hr)] at h
      rw [startAt?, ih h, if_neg (by omega : ¬ n ≤ r.2), ite_self]
    · rwa [List.dropWhile_cons_of_neg (by simpa using hr)] at h

theorem startAt?_of_apart {table table' : RangeTable} {n : Nat} (ha : apart table table' = true)
    (h : (startAt? n table).isSome = true) : startAt? n table' = none := by
  induction table generalizing table' with
  | nil => cases h
  | cons r table ih =>
    rw [startAt?] at h
    by_cases hlo : n < r.1
    · rw [if_pos hlo] at h
      cases h
    · rw [if_neg hlo] at h
      refine startAt?_of_dropWhile (Nat.le_of_not_lt hlo) ?_
      rw [apart] at ha
      cases hrest : table'.dropWhile (·.2 < r.1) with
      | nil => rfl
      | cons s rest =>
        rw [hrest, Bool.and_eq_true, decide_eq_true_eq] at ha
        by_cases hhi : n ≤ r.2
        · rw [startAt?, if_pos (Nat.lt_of_le_of_lt hhi ha.1)]
        · rw [if_neg hhi] at h
          exact ih ha.2 h

theorem not_holds_of_apart {table table' : RangeTable} {c : Char} (ha : apart table table' = true)
    (h : table.holds c = true) : table'.holds c = false := by
  rw [holds, start?, startAt?_of_apart ha h]
  rfl

end RangeTable

theorem eq_false_of_any {cs : List Char} (h : cs.any p = false)
    (hc : c ∈ cs) : p c = false :=
  Bool.eq_false_iff.2 (List.any_eq_false.1 h c hc)

theorem ne_of_holds {α : Type} {p : α → Bool} {c d : α} (hc : p c = true) (hd : p d = false) :
    c ≠ d := by
  rintro rfl
  rw [hc] at hd
  cases hd

theorem isBlank_of_isDigit (h : isDigit c = true) : isBlank c = false := by
  rw [isDigit, Bool.or_eq_true] at h
  rcases h with h | h
  · exact RangeTable.not_holds_of_apart (by decide +kernel) h
  · exact RangeTable.not_holds_of_apart (by decide +kernel) h

theorem isBlank_of_isNameStart (h : isNameStart c = true) : isBlank c = false := by
  rw [isNameStart, Bool.or_eq_true] at h
  rcases h with h | h
  · exact RangeTable.not_holds_of_apart (by decide +kernel) h
  · rw [eq_of_beq h]
    decide

theorem isDigit_of_isNameStart (h : isNameStart c = true) : isDigit c = false := by
  rw [isNameStart, Bool.or_eq_true] at h
  rcases h with h | h
  · rw [isDigit, Bool.or_eq_false_iff]
    exact ⟨RangeTable.not_holds_of_apart (by decide +kernel) h,
      RangeTable.not_holds_of_apart (by decide +kernel) h⟩
  · rw [eq_of_beq h]
    decide

/-- Only the capital letters from `A` to `Z` are changed when they are put in lower case. -/
theorem toLower_eq_or_exists (c : Char) :
    c.toLower = c ∨ ∃ n : Fin 26, c = Char.ofNat (65 + n) := by
  by_cases hu : c.val ≥ 'A'.val ∧ c.val ≤ 'Z'.val
  · right
    have hlo : 65 ≤ c.toNat := hu.1
    have hhi : c.toNat ≤ 90 := hu.2
    refine ⟨⟨c.toNat - 65, by omega⟩, ?_⟩
    rw [Nat.add_sub_cancel' hlo, Char.ofNat_toNat]
  · left
    exact dif_neg hu

theorem toLower_of_isDigit (h : isDigit c = true) : c.toLower = c := by
  rcases toLower_eq_or_exists c with hc | ⟨n, rfl⟩
  · exact hc
  · revert n
    decide

/-- The text does not go on with a character that has the property. -/
def Stops (p : Char → Bool) (rest : List Char) : Prop :=
  ∀ c ∈ rest.head?, p c = false

theorem Stops.append {cs rest : List Char} (hc : Stops p cs) (hr : Stops p rest) :
    Stops p (cs ++ rest) := by
  cases cs with
  | nil => exact hr
  | cons c cs => exact hc

theorem stops_nil : Stops p [] := by
  intro c hc
  cases hc

theorem stops_cons {cs : List Char} :
    Stops p (c :: cs) ↔ p c = false := by
  simp [Stops]

theorem takeWhile_append_of_stops {cs rest : List Char}
    (hc : ∀ c ∈ cs, p c = true) (hr : Stops p rest) : (cs ++ rest).takeWhile p = cs := by
  rw [List.takeWhile_append_of_pos hc]
  cases rest with
  | nil => simp
  | cons d rest => rw [List.takeWhile_cons_of_neg (by simp [stops_cons.1 hr]), List.append_nil]

theorem dropWhile_append_of_stops {cs rest : List Char}
    (hc : ∀ c ∈ cs, p c = true) (hr : Stops p rest) : (cs ++ rest).dropWhile p = rest := by
  rw [List.dropWhile_append_of_pos hc]
  cases rest with
  | nil => rfl
  | cons d rest => rw [List.dropWhile_cons_of_neg (by simp [stops_cons.1 hr])]

end Text

namespace Lexeme

open Text

/-! ## Lexemes -/

/-- A sign, or nothing. -/
def IsSign (cs : List Char) : Prop :=
  cs = [] ∨ ∃ c, cs = [c] ∧ isSign c = true

/-- Digits, perhaps none. -/
def AreDigits (cs : List Char) : Prop :=
  ∀ c ∈ cs, isDigit c = true

def startsExponent (c : Char) : Bool :=
  c == 'e' || c == 'E'

/-- A point and perhaps digits, or nothing. -/
def IsFraction (cs : List Char) : Prop :=
  cs = [] ∨ ∃ ds, cs = '.' :: ds ∧ AreDigits ds

/-- An exponent, which may lack its sign and its digits, or nothing. -/
def IsExponent (cs : List Char) : Prop :=
  cs = [] ∨ ∃ c s ds, cs = c :: s ++ ds ∧ startsExponent c = true ∧ IsSign s ∧ AreDigits ds

/-- A suffix in either case, or nothing. -/
def IsSuffix (cs : List Char) : Prop :=
  cs = [] ∨ ∃ c, cs = [c] ∧ isSuffix c.toLower = true

/-- The parts of a number, of which only the digits cannot be missing. -/
structure IsNumber (sign digits fraction exponent suffix : List Char) : Prop where
  isSign : IsSign sign
  areDigits : AreDigits digits
  digits_ne_nil : digits ≠ []
  isFraction : IsFraction fraction
  isExponent : IsExponent exponent
  isSuffix : IsSuffix suffix

/-- The characters between the quotes of a string and the content that they stand for: a backslash and
the character behind it stand for one character, and all others but the quote and the character zero
for themselves. -/
inductive Unescapes (quote : Char) : List Char → List Char → Prop
  | nil : Unescapes quote [] []
  | escaped {e : Char} {cs content : List Char} (h : Unescapes quote cs content) :
      Unescapes quote ('\\' :: e :: cs) (unescape e :: content)
  | plain {c : Char} {cs content : List Char} (hq : c ≠ quote) (hb : c ≠ '\\') (hz : c ≠ '\x00')
      (h : Unescapes quote cs content) : Unescapes quote (c :: cs) (c :: content)

/-- The characters are the lexeme of a token with the kind and the value. -/
inductive Spells : List Char → Token.Kind → String → Prop
  | newline : Spells ['\n'] .newline "\\n"
  | symbol {cs : List Char} {kind : Token.Kind} (h : (cs, kind) ∈ symbols) :
      Spells cs kind (String.ofList cs)
  | word {c : Char} {cs : List Char} (hc : isNameStart c = true)
      (hcs : ∀ d ∈ cs, isNameChar d = true) :
      Spells (c :: cs) (kindIn keywords (String.ofList (c :: cs))) (String.ofList (c :: cs))
  | key {cs : List Char} (hcs : ∀ d ∈ cs, isNameChar d = true) :
      Spells ('%' :: cs) (kindIn specialKeys (String.ofList ('%' :: cs))) (String.ofList ('%' :: cs))
  | number {sign digits fraction exponent suffix : List Char}
      (h : IsNumber sign digits fraction exponent suffix) :
      Spells (sign ++ digits ++ fraction ++ exponent ++ suffix)
        (numberKind fraction exponent (suffix.map Char.toLower))
        (String.ofList (sign ++ digits ++ fraction ++ exponent ++ suffix.map Char.toLower))
  | string {quote : Char} {cs content : List Char} (hq : quote = '"' ∨ quote = '\'')
      (h : Unescapes quote cs content) :
      Spells (quote :: cs ++ [quote]) .string (String.ofList content)
  | doc {cs : List Char} (h : ∀ c ∈ cs, isCommentChar c = true) :
      Spells ('/' :: '/' :: '/' :: cs) .docComment (String.ofList (strip cs))

theorem isNumber_numberKind (fraction exponent suffix : List Char) :
    (numberKind fraction exponent suffix).isNumber = true := by
  unfold numberKind
  split <;> split <;> rfl

/-- What may follow a lexeme of a token of the kind: nothing, a line feed, or a space unless the token
is a documentation comment. -/
def Follows (kind : Token.Kind) (rest : List Char) : Prop :=
  ∀ c ∈ rest.head?, c = '\n' ∨ c = ' ' ∧ kind ≠ .docComment

theorem Follows.stops {kind : Token.Kind} {rest : List Char} {p : Char → Bool}
    (h : Follows kind rest) (hn : p '\n' = false) (hs : p ' ' = false) : Stops p rest := by
  intro c hc
  rcases h c hc with rfl | ⟨rfl, -⟩
  · exact hn
  · exact hs

variable {rest : List Char} {kind : Token.Kind}

/-! ## Words and symbols -/

variable {cs : List Char}

theorem next_of_isNameStart {c : Char} (hc : isNameStart c = true) :
    next (c :: cs) = word keywords c cs := by
  have hne : ∀ d, isNameStart d = false → (c == d) = false :=
    fun d hd => beq_false_of_ne (ne_of_holds hc hd)
  simp only [next, isSign, hc, isBlank_of_isNameStart hc, isDigit_of_isNameStart hc,
    hne '\x00' (by decide), hne '\n' (by decide), hne '/' (by decide), hne '"' (by decide),
    hne '\'' (by decide), hne '+' (by decide), hne '-' (by decide)]
  rfl

/-- A word is read up to its end, whichever the table of its kind. -/
theorem word_append_of_stops {table : List (String × Token.Kind)} {c : Char}
    (hcs : ∀ d ∈ cs, isNameChar d = true) (hr : Stops isNameChar rest) :
    word table c (cs ++ rest) =
      ⟨.token (kindIn table (String.ofList (c :: cs))) (String.ofList (c :: cs)), c :: cs, rest⟩ := by
  rw [word, takeWhile_append_of_stops hcs hr, dropWhile_append_of_stops hcs hr]

theorem word_append {table : List (String × Token.Kind)} {c : Char}
    (hcs : ∀ d ∈ cs, isNameChar d = true) (hr : Follows kind rest) :
    word table c (cs ++ rest) =
      ⟨.token (kindIn table (String.ofList (c :: cs))) (String.ofList (c :: cs)), c :: cs, rest⟩ :=
  word_append_of_stops hcs (hr.stops (by decide) (by decide))

/-- Whether the character starts neither a gap nor a line nor a comment nor a string nor a number nor
a word. -/
def startsOther (c : Char) : Bool :=
  c != '\x00' && c != '\n' && !isBlank c && c != '/' && c != '"' && c != '\'' && !isDigit c
    && !isSign c && !isNameStart c

theorem next_of_startsOther {c : Char} (hc : startsOther c = true) :
    next (c :: cs) = if c == '%' then word specialKeys c cs else foundSymbol c cs := by
  simp only [startsOther, Bool.and_eq_true, bne_iff_ne, Bool.not_eq_true'] at hc
  obtain ⟨⟨⟨⟨⟨⟨⟨⟨hz, hn⟩, hblank⟩, hslash⟩, hq⟩, hq'⟩, hd⟩, hs⟩, hname⟩ := hc
  simp only [next, beq_false_of_ne hz, beq_false_of_ne hn, hblank, beq_false_of_ne hslash,
    beq_false_of_ne hq, beq_false_of_ne hq', hd, hs, hname]
  rfl

theorem symbol?_append_of_follows (hr : Follows kind rest) :
    ∀ entry ∈ symbols, symbol? (entry.1 ++ rest) = some entry := by
  intro entry h
  cases rest with
  | nil => fin_cases h <;> rfl
  | cons d rest =>
    rcases hr d rfl with rfl | ⟨rfl, -⟩
    · fin_cases h <;> rfl
    · fin_cases h <;> rfl

theorem next_of_mem_symbols {entry : List Char × Token.Kind} (h : entry ∈ symbols) :
    ∃ c cs, entry.1 = c :: cs ∧ ∀ more, next (entry.1 ++ more) = foundSymbol c (cs ++ more) := by
  have hstarts : ∀ entry ∈ symbols, ∃ c ds, entry.1 = c :: ds ∧ startsOther c = true ∧ c ≠ '%' := by
    intro entry he
    fin_cases he <;> exact ⟨_, _, rfl, by decide, by decide⟩
  obtain ⟨c, cs, heq, hc, hne⟩ := hstarts _ h
  refine ⟨c, cs, heq, fun more => ?_⟩
  rw [heq, List.cons_append, next_of_startsOther hc, if_neg (by simpa using hne)]

theorem next_symbol {k : Token.Kind} (h : (cs, k) ∈ symbols)
    (hr : Follows kind rest) : next (cs ++ rest) = ⟨.token k (String.ofList cs), cs, rest⟩ := by
  obtain ⟨c, ds, rfl, hnext⟩ := next_of_mem_symbols h
  have hsymbol := symbol?_append_of_follows hr _ h
  rw [List.cons_append] at hsymbol
  rw [hnext, foundSymbol, hsymbol]
  simp

/-! ## Numbers -/

theorem mem_of_isSuffix {c : Char} (h : isSuffix c.toLower = true) :
    c ∈ ['b', 's', 'l', 'f', 'd', 'B', 'S', 'L', 'F', 'D'] := by
  rcases toLower_eq_or_exists c with hc | ⟨n, rfl⟩
  · rw [hc] at h
    simp only [isSuffix, Bool.or_eq_true, beq_iff_eq] at h
    rcases h with (((rfl | rfl) | rfl) | rfl) | rfl <;> decide
  · revert n
    decide

section Parts

variable {sign digits fraction exponent suffix more : List Char} {p : Char → Bool}

/-- The characters that may follow the exponent of a number. -/
def behindExponent : List Char :=
  ['\n', ' ', 'b', 's', 'l', 'f', 'd', 'B', 'S', 'L', 'F', 'D']

theorem stops_behind_exponent (hs : IsSuffix suffix) (hr : Follows kind rest)
    (hp : behindExponent.any p = false) : Stops p (suffix ++ rest) := by
  have hp : ∀ c ∈ behindExponent, p c = false := fun _ => eq_false_of_any hp
  have hrest : Stops p rest := hr.stops (hp _ (by decide)) (hp _ (by decide))
  rcases hs with rfl | ⟨c, rfl, hc⟩
  · exact hrest
  · exact stops_cons.2 (hp c (List.mem_cons_of_mem _ (List.mem_cons_of_mem _ (mem_of_isSuffix hc))))

theorem stops_behind_fraction (he : IsExponent exponent) (hs : IsSuffix suffix)
    (hr : Follows kind rest) (hp : ('e' :: 'E' :: behindExponent).any p = false) :
    Stops p (exponent ++ (suffix ++ rest)) := by
  rw [List.any_cons, List.any_cons, Bool.or_eq_false_iff, Bool.or_eq_false_iff] at hp
  obtain ⟨hlower, hupper, hp⟩ := hp
  rcases he with rfl | ⟨c, s, ds, rfl, hc, -, -⟩
  · rw [List.nil_append]
    exact stops_behind_exponent hs hr hp
  · rw [startsExponent, Bool.or_eq_true, beq_iff_eq, beq_iff_eq] at hc
    rcases hc with rfl | rfl
    · exact stops_cons.2 hlower
    · exact stops_cons.2 hupper

theorem stops_behind_digits (hf : IsFraction fraction) (he : IsExponent exponent)
    (hs : IsSuffix suffix) (hr : Follows kind rest)
    (hp : ('.' :: 'e' :: 'E' :: behindExponent).any p = false) :
    Stops p (fraction ++ (exponent ++ (suffix ++ rest))) := by
  rw [List.any_cons, Bool.or_eq_false_iff] at hp
  rcases hf with rfl | ⟨ds, rfl, -⟩
  · rw [List.nil_append]
    exact stops_behind_fraction he hs hr hp.2
  · exact stops_cons.2 hp.1

theorem stops_digits (h : AreDigits digits) (hp : ∀ c, p c = true → isDigit c = false) :
    Stops p digits := by
  intro c hc
  have hd : isDigit c = true := h c (List.mem_of_mem_head? hc)
  rw [← Bool.not_eq_true]
  intro hpc
  rw [hp c hpc] at hd
  cases hd

theorem isDigit_of_isSign {c : Char} (h : isSign c = true) : isDigit c = false := by
  rw [isSign, Bool.or_eq_true, beq_iff_eq, beq_iff_eq] at h
  rcases h with rfl | rfl <;> decide

theorem takeSign_append_of_stops (h : IsSign sign) (hm : Stops isSign more) :
    takeSign (sign ++ more) = (sign, more) := by
  rcases h with rfl | ⟨c, rfl, hc⟩
  · cases more with
    | nil => rfl
    | cons c more => simp [takeSign, stops_cons.1 hm]
  · simp [takeSign, hc]

theorem takeFraction_append_of_stops
    (h : IsFraction fraction)
    (hd : Stops isDigit more) (hm : Stops (· == '.') more) :
    takeFraction (fraction ++ more) = (fraction, more) := by
  rcases h with rfl | ⟨ds, rfl, hds⟩
  · cases more with
    | nil => rfl
    | cons c more =>
      have hc : c ≠ '.' := by simpa using stops_cons.1 hm
      simp [takeFraction, hc]
  · have hdot : Stops (· == '.') (ds ++ more) := by
      refine (stops_digits hds ?_).append hm
      intro c hc
      rw [eq_of_beq hc]
      decide
    have hsecond : ∀ cs, ds ++ more ≠ '.' :: cs := by
      intro cs hcs
      rw [hcs] at hdot
      exact absurd (stops_cons.1 hdot) (by decide)
    rw [List.cons_append, takeFraction.eq_2 _ hsecond, takeWhile_append_of_stops hds hd,
      dropWhile_append_of_stops hds hd]

theorem takeExponent_append_of_stops (h : IsExponent exponent)
    (hs : Stops isSign more) (hd : Stops isDigit more) (he : Stops startsExponent more) :
    takeExponent (exponent ++ more) = (exponent, more) := by
  rcases h with rfl | ⟨c, s, ds, rfl, hc, hsign, hds⟩
  · cases more with
    | nil => rfl
    | cons c more =>
      have hc := stops_cons.1 he
      rw [startsExponent] at hc
      simp [takeExponent, hc]
  · have hsigns : Stops isSign (ds ++ more) :=
      (stops_digits hds fun _ => isDigit_of_isSign).append hs
    rw [startsExponent] at hc
    simp only [List.cons_append, List.append_assoc, takeExponent, hc, if_true,
      takeSign_append_of_stops hsign hsigns, takeWhile_append_of_stops hds hd,
      dropWhile_append_of_stops hds hd]

theorem takeSuffix_append_of_stops
    (h : IsSuffix suffix)
    (hm : Stops (fun c => isSuffix c.toLower) more) :
    takeSuffix (suffix ++ more) = (suffix, more) := by
  rcases h with rfl | ⟨c, rfl, hc⟩
  · cases more with
    | nil => rfl
    | cons c more =>
      have hc := stops_cons.1 hm
      simp [takeSuffix, hc]
  · simp [takeSuffix, hc]

theorem number_append_of_follows (h : IsNumber sign digits fraction exponent suffix)
    (hr : Follows kind rest) :
    number (sign ++ digits ++ fraction ++ exponent ++ suffix ++ rest) =
      ⟨(sign ++ digits ++ fraction ++ exponent ++ suffix.map Char.toLower,
        numberKind fraction exponent (suffix.map Char.toLower)),
        sign ++ digits ++ fraction ++ exponent ++ suffix, rest⟩ := by
  obtain ⟨hsign, hdigits, -, hfraction, hexponent, hsuffix⟩ := h
  -- Each part ends where the next one starts.
  have hstop : Stops isDigit (fraction ++ (exponent ++ (suffix ++ rest))) :=
    stops_behind_digits hfraction hexponent hsuffix hr (by decide)
  have hnosign : Stops isSign (digits ++ (fraction ++ (exponent ++ (suffix ++ rest)))) :=
    (stops_digits hdigits fun _ => isDigit_of_isSign).append
      (stops_behind_digits hfraction hexponent hsuffix hr (by decide))
  have htakeFraction := takeFraction_append_of_stops hfraction
    (stops_behind_fraction hexponent hsuffix hr (by decide))
    (stops_behind_fraction hexponent hsuffix hr (by decide))
  have htakeExponent := takeExponent_append_of_stops hexponent
    (stops_behind_exponent hsuffix hr (by decide)) (stops_behind_exponent hsuffix hr (by decide))
    (stops_behind_exponent hsuffix hr (by decide))
  have htakeSuffix := takeSuffix_append_of_stops hsuffix (hr.stops (by decide) (by decide))
  simp only [number, List.append_assoc, takeSign_append_of_stops hsign hnosign,
    dropWhile_append_of_stops hdigits hstop, takeWhile_append_of_stops hdigits hstop,
    htakeFraction, htakeExponent, htakeSuffix]

theorem next_of_isDigit {c : Char} {cs : List Char} (hc : isDigit c = true) :
    next (c :: cs) = foundNumber (c :: cs) := by
  have hne : ∀ d, isDigit d = false → (c == d) = false :=
    fun d hd => beq_false_of_ne (ne_of_holds hc hd)
  simp only [next, hc, isBlank_of_isDigit hc, hne '\x00' (by decide), hne '\n' (by decide),
    hne '/' (by decide), hne '"' (by decide), hne '\'' (by decide)]
  rfl

theorem next_of_isSign {c d : Char} {cs : List Char} (hc : isSign c = true)
    (hd : isDigit d = true) : next (c :: d :: cs) = foundNumber (c :: d :: cs) := by
  have hsign : isSign c = true := hc
  rw [isSign, Bool.or_eq_true, beq_iff_eq, beq_iff_eq] at hc
  have hrest : (isDigit c || (isSign c && startsWithDigit (d :: cs))) = true := by
    rw [hsign, startsWithDigit, hd]
    simp
  rcases hc with rfl | rfl
  · simp only [next, hrest]
    rfl
  · simp only [next, hrest]
    rfl

theorem next_of_isNumber (h : IsNumber sign digits fraction exponent suffix) (more : List Char) :
    next (sign ++ digits ++ fraction ++ exponent ++ suffix ++ more) =
      foundNumber (sign ++ digits ++ fraction ++ exponent ++ suffix ++ more) := by
  obtain ⟨d, ds, rfl⟩ := List.exists_cons_of_ne_nil h.digits_ne_nil
  have hd : isDigit d = true := h.areDigits d List.mem_cons_self
  rcases h.isSign with rfl | ⟨c, rfl, hc⟩
  · exact next_of_isDigit hd
  · exact next_of_isSign hc hd

theorem next_number (h : IsNumber sign digits fraction exponent suffix) (hr : Follows kind rest) :
    next (sign ++ digits ++ fraction ++ exponent ++ suffix ++ rest) =
      ⟨.token (numberKind fraction exponent (suffix.map Char.toLower))
        (String.ofList (sign ++ digits ++ fraction ++ exponent ++ suffix.map Char.toLower)),
        sign ++ digits ++ fraction ++ exponent ++ suffix, rest⟩ := by
  rw [next_of_isNumber h, foundNumber, number_append_of_follows h hr]

end Parts

/-! ## Strings and comments -/

theorem stringBody_append_of_unescapes {quote : Char} {cs content : List Char}
    (hz : quote ≠ '\x00') (hb : quote ≠ '\\') (h : Unescapes quote cs content)
    (rest : List Char) :
    stringBody quote (cs ++ quote :: rest) = ⟨some content, cs ++ [quote], rest⟩ := by
  induction h with
  | nil =>
    unfold stringBody
    simp [hz]
  | escaped h ih =>
    unfold stringBody
    simp [ih, Ne.symm hb]
  | plain hq hb' hz' h ih =>
    unfold stringBody
    simp [hq, hb', hz', ih]

theorem next_string {quote : Char} {cs content : List Char} (hq : quote = '"' ∨ quote = '\'')
    (h : Unescapes quote cs content) :
    next (quote :: cs ++ [quote] ++ rest) =
      ⟨.token .string (String.ofList content), quote :: cs ++ [quote], rest⟩ := by
  have hfound : ∀ more, next (quote :: more) = foundString (quote :: more) := by
    intro more
    rcases hq with rfl | rfl <;> rfl
  have hne : quote ≠ '\x00' ∧ quote ≠ '\\' := by
    rcases hq with rfl | rfl <;> decide
  have hbody := stringBody_append_of_unescapes hne.1 hne.2 h rest
  rw [List.append_assoc, List.cons_append, List.singleton_append, hfound, foundString, Lexeme.string,
    hbody]
  rfl

theorem next_doc_of_stops (h : ∀ c ∈ cs, isCommentChar c = true)
    (hr : Stops isCommentChar rest) :
    next ('/' :: '/' :: '/' :: cs ++ rest) =
      ⟨.token .docComment (String.ofList (strip cs)), '/' :: '/' :: '/' :: cs, rest⟩ := by
  have hfound : ∀ more, next ('/' :: '/' :: '/' :: more) = foundComment ('/' :: '/' :: '/' :: more) :=
    fun _ => rfl
  rw [List.cons_append, List.cons_append, List.cons_append, hfound, foundComment, comment,
    commentBody, takeWhile_append_of_stops h hr, dropWhile_append_of_stops h hr]

theorem next_doc (h : ∀ c ∈ cs, isCommentChar c = true)
    (hr : Follows .docComment rest) :
    next ('/' :: '/' :: '/' :: cs ++ rest) =
      ⟨.token .docComment (String.ofList (strip cs)), '/' :: '/' :: '/' :: cs, rest⟩ := by
  apply next_doc_of_stops h
  intro c hc
  rcases hr c hc with rfl | ⟨-, hk⟩
  · decide
  · exact absurd rfl hk

/-! ## All lexemes -/

/-- A lexeme is read wherever it is followed by a line feed or a space, or by nothing. -/
theorem Spells.next_append {lexeme : List Char} {value : String} (h : Spells lexeme kind value)
    (hr : Follows kind rest) : next (lexeme ++ rest) = ⟨.token kind value, lexeme, rest⟩ := by
  cases h with
  | newline => rfl
  | symbol h => exact next_symbol h hr
  | word hc hcs =>
    rw [List.cons_append, next_of_isNameStart hc]
    exact word_append hcs hr
  | key hcs =>
    rw [List.cons_append, next_of_startsOther (by decide), if_pos (beq_self_eq_true _)]
    exact word_append hcs hr
  | number h => exact next_number h hr
  | string hq h => exact next_string hq h
  | doc h => exact next_doc h hr

/-- A lexeme spells one token only. -/
theorem Spells.unique {lexeme : List Char} {k k' : Token.Kind} {value value' : String}
    (h : Spells lexeme k value) (h' : Spells lexeme k' value') : k = k' ∧ value = value' := by
  have hnil : ∀ kind, Follows kind [] := by
    intro kind c hc
    cases hc
  have hnext := h.next_append (hnil k)
  rw [h'.next_append (hnil k')] at hnext
  cases hnext
  exact ⟨rfl, rfl⟩

end Lexeme

end McdocSchema
