import McdocSchema.Proofs.DecimalValue
import McdocSchema.Proofs.IntegerBounds

/-!
# Number literals

A typed number is a number with a letter behind it for its type, in either case, or without one. Wherever a
number is a type, only its token is kept, with the letter in lower case. So the schema has a constant text
for it and never a number, and a number that starts with a sign and a point has no token at all. The value
of a variant is read as an integer, which takes no letter.
-/

namespace McdocSchema

open Lexeme (Reads)

namespace Number

/-! ## Typed numbers -/

/-- One of the letters in either case, or nothing. -/
structure Suffix (letters : List Char) where
  chars : List Char
  isOf : chars = [] ∨ ∃ c, chars = [c] ∧ c.toLower ∈ letters

/-- The letters of the integer types. -/
def integerLetters : List Char :=
  ['b', 's', 'l']

/-- The letters of the types with fractions. -/
def realLetters : List Char :=
  ['f', 'd']

/-- The suffix in lower case. -/
def Suffix.lowered {letters : List Char} (s : Suffix letters) : List Char :=
  s.chars.map Char.toLower

/-- A numeral that has a sign and no digits in front of its point. -/
structure PointedNumeral where
  sign : Char
  digits : List Char
  exponent : Option Exponent
  isSign : Lexeme.isSign sign = true
  digits_ne_nil : digits ≠ []
  digits_isDecimal : ∀ c ∈ digits, Text.isDecimal c = true

def PointedNumeral.chars (a : PointedNumeral) : List Char :=
  a.sign :: '.' :: (a.digits ++ a.exponent.elim [] Exponent.chars)

theorem isDecimal_of_mem_zero : ∀ c ∈ ['0'], Text.isDecimal c = true := by
  intro c hc
  rw [List.mem_singleton.1 hc]
  decide

/-- The numeral with a zero in front of its point. -/
def PointedNumeral.completed (a : PointedNumeral) : Numeral where
  sign := [a.sign]
  whole := ['0']
  fraction := some a.digits
  exponent := a.exponent
  isSign := .inr ⟨a.sign, rfl, a.isSign⟩
  whole_ne_nil := List.cons_ne_nil '0' []
  whole_isDecimal := isDecimal_of_mem_zero
  fraction_isDecimal := a.digits_isDecimal

/-- The exact value of a numeral. -/
def Numeral.rat (a : Numeral) : ℚ :=
  Binary64.signedValue a.isNegative (Decimal.value ⟨decimalDigitsValue a.digits, a.lastExponent⟩)

/-- A number with the suffix of its type. -/
inductive TypedNumber
  | integer (a : IntegerNumeral) (suffix : Suffix integerLetters)
  | real (a : Numeral) (suffix : Suffix realLetters)
  | pointed (a : PointedNumeral) (suffix : Suffix realLetters)

namespace TypedNumber

/-- The characters of the number, and those of its suffix. -/
def parts : TypedNumber → List Char × List Char
  | integer a suffix => (a.chars, suffix.chars)
  | real a suffix => (a.chars, suffix.chars)
  | pointed a suffix => (a.chars, suffix.chars)

def text (x : TypedNumber) : String :=
  String.ofList (x.parts.1 ++ x.parts.2)

/-- The text with the suffix in lower case. -/
def lowered (x : TypedNumber) : String :=
  String.ofList (x.parts.1 ++ x.parts.2.map Char.toLower)

/-- The exact value of a number. -/
def value : TypedNumber → ℚ
  | integer a _ => a.int
  | real a _ => a.rat
  | pointed a _ => a.completed.rat

/-- What becomes of a number as the type of an alias. -/
def compiled : TypedNumber → Except CompileFault Json
  | pointed a _ => .error (.document (.scan ⟨.unexpected a.sign, ⟨1, 10⟩⟩))
  | x => .ok (Generator.rootSchema [("X", .object [("const", .string x.lowered)])])

end TypedNumber

/-! ## Numbers as tokens -/

variable {letters : List Char}

theorem Suffix.isSuffix (s : Suffix letters) (h : ∀ c ∈ letters, Lexeme.isSuffix c = true) :
    Lexeme.IsSuffix s.chars := by
  rcases s.isOf with hs | ⟨c, hs, hc⟩
  · exact .inl hs
  · exact .inr ⟨c, hs, h _ hc⟩

theorem isSuffix_of_integerLetters : ∀ c ∈ integerLetters, Lexeme.isSuffix c = true := by
  simp [integerLetters, Lexeme.isSuffix]

theorem isSuffix_of_realLetters : ∀ c ∈ realLetters, Lexeme.isSuffix c = true := by
  simp [realLetters, Lexeme.isSuffix]

/-- A numeral and a suffix are found whole at the end of a text and in front of a space. -/
theorem Numeral.next_suffix (a : Numeral) {suffix rest : List Char} (hs : Lexeme.IsSuffix suffix)
    (hr : rest = [] ∨ ∃ cs, rest = ' ' :: cs) :
    Lexeme.next (a.chars ++ suffix ++ rest) =
      ⟨.token (Lexeme.numberKind a.fractionChars a.exponentChars (suffix.map Char.toLower))
        (String.ofList (a.chars ++ suffix.map Char.toLower)), a.chars ++ suffix, rest⟩ := by
  have hnumber : Lexeme.IsNumber a.sign a.whole a.fractionChars a.exponentChars suffix :=
    { a.isNumber with isSuffix := hs }
  have hfollows : Lexeme.Follows .integer rest := by
    rcases hr with rfl | ⟨cs, rfl⟩
    · intro c hc
      cases hc
    · rintro c ⟨⟩
      exact .inr ⟨rfl, by decide⟩
  exact Lexeme.next_number hnumber hfollows

theorem IntegerNumeral.numberKind_eq (a : IntegerNumeral) (s : Suffix integerLetters) :
    Lexeme.numberKind a.fractionChars a.exponentChars s.lowered = .integer := by
  rw [Numeral.fractionChars, Numeral.exponentChars, a.fraction_eq, a.exponent_eq, Suffix.lowered]
  rcases s.isOf with hs | ⟨c, hs, hc⟩
  · rw [hs]
    rfl
  · rw [hs]
    have hletter : c.toLower ≠ 'f' ∧ c.toLower ≠ 'd' := by
      constructor <;> intro hf <;> rw [hf] at hc <;> exact absurd hc (by decide)
    simp [Lexeme.numberKind, hletter.1, hletter.2]

/-! ## Integers with a suffix -/

theorem IntegerNumeral.chars_eq (a : IntegerNumeral) : a.chars = a.sign ++ a.whole := by
  simp [Numeral.chars, Numeral.fractionChars, Numeral.exponentChars, a.fraction_eq, a.exponent_eq]

/-- A letter is left alone when a number is read, and it is no digit. -/
theorem integerLetters_spec : ∀ c ∈ integerLetters,
    isMargin c = false ∧ plainDigit c = c ∧ (c.isDigit || c == '_') = false := by
  have hall : integerLetters.all
      (fun c => !isMargin c && (plainDigit c == c && !(c.isDigit || c == '_'))) = true := by
    decide
  intro c hc
  simpa using List.all_eq_true.1 hall c hc

theorem Suffix.mem_of_mem_lowered (s : Suffix letters) {c : Char} (h : c ∈ s.lowered) :
    c ∈ letters := by
  rw [Suffix.lowered] at h
  rcases s.isOf with hs | ⟨d, hs, hd⟩
  · rw [hs] at h
    cases h
  · rw [hs] at h
    rwa [List.mem_singleton.1 h]

theorem Suffix.lowered_eq_nil_iff (s : Suffix letters) : s.lowered = [] ↔ s.chars = [] :=
  List.map_eq_nil_iff

theorem Suffix.stops_lowered (s : Suffix integerLetters) :
    Text.Stops (fun c => c.isDigit || c == '_') s.lowered := by
  intro c hc
  exact (integerLetters_spec c (s.mem_of_mem_lowered (List.mem_of_mem_head? hc))).2.2

/-- An integer with a suffix is read if it is not too long and the suffix is missing. -/
theorem IntegerNumeral.readInteger_lowered (a : IntegerNumeral) (s : Suffix integerLetters) :
    readInteger (String.ofList (a.chars ++ s.lowered)) =
      if maxDigits < a.whole.length then .error (.tooLong a.whole.length)
      else if s.chars = [] then .ok a.int
      else .error (.notInteger (String.ofList (a.chars ++ s.lowered))) := by
  have hmargin : ∀ c ∈ a.chars ++ s.lowered, isMargin c = false := by
    intro c hc
    rcases List.mem_append.1 hc with hc | hc
    · exact Numeral.isMargin_of_mem hc
    · exact (integerLetters_spec c (s.mem_of_mem_lowered hc)).1
  have hletters : s.lowered.map plainDigit = s.lowered :=
    (List.map_congr_left fun c hc =>
      (integerLetters_spec c (s.mem_of_mem_lowered hc)).2.1).trans (List.map_id _)
  have hdigits : ∀ c ∈ a.whole.map plainDigit, c.isDigit = true := by
    intro c hc
    obtain ⟨d, hd, rfl⟩ := List.mem_map.1 hc
    exact isDigit_plainDigit_of_isDecimal (a.whole_isDecimal d hd)
  have hrun : ∀ c ∈ a.whole.map plainDigit, (c.isDigit || c == '_') = true := fun c hc => by
    rw [hdigits c hc, Bool.true_or]
  have hsign : Number.takeSign (a.sign ++ (a.whole.map plainDigit ++ s.lowered)) =
      (a.isNegative, a.whole.map plainDigit ++ s.lowered) := by
    obtain ⟨d, ds, hds⟩ := List.exists_cons_of_ne_nil
      (by simpa using a.whole_ne_nil : a.whole.map plainDigit ≠ [])
    rw [hds, List.cons_append]
    exact Numeral.takeSign_append a.isSign (isDigit_of_ascii (hdigits d (by simp [hds])))
  have hunder : integerDigits? (a.whole.map plainDigit ++ s.lowered) =
      some (a.whole.map plainDigit) := by
    rw [integerDigits?, Text.takeWhile_append_of_stops hrun s.stops_lowered]
    refine removeUnderscores_of_ne (by decide) fun c hc => ?_
    exact beq_false_of_ne (Text.ne_of_holds (hdigits c hc) (by decide))
  -- The length is looked at before the letter behind the digits is.
  rw [readInteger, String.toList_ofList, trimMargins_of_not_isMargin hmargin, List.map_append,
    a.chars_eq, List.map_append, Numeral.map_plainDigit_of_isSign a.isSign, hletters,
    List.append_assoc, hsign]
  dsimp only
  rw [hunder]
  dsimp only
  rw [Text.dropWhile_append_of_stops hrun s.stops_lowered, List.length_map,
    digitsValue_map_plainDigit a.whole_isDecimal, IntegerNumeral.int]
  have hne : (a.whole.map plainDigit).isEmpty = false := by simpa using a.whole_ne_nil
  rw [hne, Bool.false_or]
  by_cases hs : s.chars = []
  · rw [if_pos hs, s.lowered_eq_nil_iff.2 hs]
    rfl
  · have hlowered : s.lowered ≠ [] := fun h => hs (s.lowered_eq_nil_iff.1 h)
    rw [if_neg hs]
    simp [hlowered]

end Number

open Number (Numeral IntegerNumeral TypedNumber Suffix integerLetters)

/-! ## Texts that break off -/

/-- The text is a sequence of lexemes and gaps up to a stretch that makes no token. -/
inductive Lexeme.Breaks : List Char → List Char → ScanCause → Prop
  | fault {cs taken rest : List Char} {cause : ScanCause} (h : next cs = ⟨.fault cause, taken, rest⟩) :
      Breaks cs taken cause
  | gap {cs taken rest front : List Char} {cause : ScanCause} (h : next cs = ⟨.gap, taken, rest⟩)
      (hrest : Breaks rest front cause) : Breaks cs (taken ++ front) cause
  | token {cs taken rest front : List Char} {cause : ScanCause} {kind : Token.Kind} {value : String}
      (h : next cs = ⟨.token kind value, taken, rest⟩) (hrest : Breaks rest front cause) :
      Breaks cs (taken ++ front) cause

theorem Scanner.run_of_breaks {s : Scanner} {done : List Token} {cs front : List Char}
    {cause : ScanCause} (h : Lexeme.Breaks cs front cause) (hs : s.rest = cs) :
    (run s done).fault = some ⟨cause, s.pos.advance front⟩ := by
  induction h generalizing s done with
  | fault hnext =>
    rw [← hs] at hnext
    rw [run_eq, hnext]
    rfl
  | gap hnext _ ih =>
    rw [← hs] at hnext
    rw [run_of_gap (by rw [hnext]), hnext, Position.advance_append]
    exact ih rfl
  | token hnext _ ih =>
    rw [← hs] at hnext
    rw [run_of_token (by rw [hnext]), hnext, Position.advance_append]
    exact ih rfl

theorem Token.scan_of_breaks {cs front : List Char} {cause : ScanCause}
    (h : Lexeme.Breaks cs front cause) :
    Token.scan (String.ofList cs) = .error ⟨cause, Position.start.advance front⟩ := by
  have hs : (Scanner.ofString (String.ofList cs)).rest = cs := String.toList_ofList
  rw [Token.scan, Scanner.tokens, Scanner.run_of_breaks h hs]
  rfl

/-! ## Parsing numbers -/

namespace Parse

open TokenStream

variable {α β : Type} {p : Parse α} {t u v w b last : Token} {fault : ParseFault}
  {ts rest : TokenStream} {rounds : Nat}

/-- A number is a type of its own, of which the text is kept. -/
theorem typeExpr_number (ht : t.kind.isNumber = true) (hlast : last.kind = .eof) :
    typeExpr (rounds + 1) [t, last] = .done (.literal t.pos (.text t.value) none) [last] := by
  rw [typeExpr]
  refine unionType_single ?_ (by rw [current_cons, hlast]; decide)
  rw [primaryType, current_bind, current_cons]
  have hkind : t.kind = .integer ∨ t.kind = .float := by
    revert ht
    cases t.kind <;> simp [Token.Kind.isNumber]
  -- Both kinds of numbers take the same branch as a text between quotes.
  rcases hkind with hk | hk <;> rw [hk] <;> exact Grammar.literal_cons (by simp)

theorem bind_of_failed {f : α → Parse β} (h : p ts = .failed fault rest) :
    (p >>= f) ts = .failed fault rest := by
  rw [bind_apply, h]

theorem map_of_failed {f : α → β} (h : p ts = .failed fault rest) :
    (f <$> p) ts = .failed fault rest :=
  bind_of_failed h

theorem repeatWhile_of_failed {goesOn : Token.Kind → Bool} (hgoes : goesOn ts.current.kind = true)
    (h : p ts = .failed fault rest) :
    repeatWhile (rounds + 1) goesOn p ts = .failed fault rest := by
  rw [repeatWhile, repeatFrom]
  simp only [hgoes, if_true, h]

theorem variant_failed {doc : Option String} {fault : Number.ReadFault} (ht : t.kind = .identifier)
    (hu : u.kind = .equals) (hv : v.kind = .integer)
    (h : Number.readInteger v.value = .error fault) :
    variant doc (t :: u :: v :: rest) = .failed (.number fault) (v :: rest) := by
  have hvalue : variantValue (u :: v :: rest) = .failed (.number fault) (v :: rest) := by
    rw [variantValue, eat_bind_of_eq (by rw [current_cons, hu]), if_pos rfl,
      behind_cons (by simp), current_bind, current_cons, hv, if_pos (by decide), h]
    rfl
  rw [variant, bind_of_done (consume_cons ht (by simp)), bind_of_failed hvalue]

theorem member_failed {item : Option String → Parse α} {doc : Option String} {mid behindDoc : TokenStream}
    (h : skipNewlines ts = .done () mid) (hk : mid.current.kind ≠ .rightBrace)
    (hd : memberDoc mid = .done doc behindDoc) (hi : item doc behindDoc = .failed fault rest) :
    member item ts = .failed fault rest := by
  rw [member, bind_of_done h, sees_bind, if_neg (by simpa using hk), bind_of_done hd,
    bind_of_failed hi]

theorem ofTokens_of_failed (ht : t.kind = .type ∨ t.kind = .enum)
    (h : declaration (roundsFor (t :: ts)) none (t :: ts) = .failed fault rest) :
    Document.ofTokens (t :: ts) = .error fault := by
  have hfirst : t.kind ≠ .newline ∧ t.kind ≠ .eof ∧ t.kind ≠ .docComment := by
    rcases ht with ht | ht <;> rw [ht] <;> decide
  have hlines : skipNewlines (t :: ts) = .done () (t :: ts) := skipNewlines_of_ne hfirst.1
  have hdoc : declarationDoc (t :: ts) = .done none (t :: ts) := declarationDoc_of_ne hfirst.2.2
  have hdeclaration : declaration? (roundsFor (t :: ts)) (t :: ts) = .failed fault rest := by
    rw [declaration?, bind_of_done hlines, sees_bind, if_neg (by simpa using hfirst.2.1),
      bind_of_done hdoc, bind_of_failed h]
  have hdocument : document (roundsFor (t :: ts)) (t :: ts) = .failed fault rest := by
    rw [document, bind_of_failed]
    exact repeatWhile_of_failed (by simpa using hfirst.2.1) hdeclaration
  rw [Document.ofTokens, bounded, hdocument]
  rfl

/-- An enumeration of one variant has the integer that is read as its value, or it fails as the reading
does. -/
theorem ofTokens_enum {c : Token} (ht : t.kind = .enum) (hb : b.kind = .leftBrace)
    (hu : u.kind = .identifier) (hv : v.kind = .equals) (hw : w.kind = .integer)
    (hc : c.kind = .rightBrace) (hlast : last.kind = .eof) :
    Document.ofTokens [t, b, u, v, w, c, last] = match Number.readInteger w.value with
      | .ok n => .ok { declarations := [.anonymous (.enum t.pos [⟨u.value, some n, none⟩])] }
      | .error fault => .error (.number fault) := by
  have hlines : skipNewlines [u, v, w, c, last] = .done () [u, v, w, c, last] :=
    skipNewlines_of_ne (by rw [current_cons, hu]; decide)
  have hdoc : memberDoc [u, v, w, c, last] = .done none [u, v, w, c, last] :=
    memberDoc_of_ne (by rw [current_cons, hu]; decide)
  have hbrace : u.kind ≠ .rightBrace := by
    rw [hu]
    decide
  cases hread : Number.readInteger w.value with
  | ok n =>
    have hmember : member variant [u, v, w, c, last] =
        .done (some ⟨u.value, some n, none⟩) [c, last] :=
      member_some hlines hbrace hdoc (variant_value hu hv hw hread (by simp))
        (eat_of_ne (by rw [current_cons, hc]; decide))
        (skipNewlines_of_ne (by rw [current_cons, hc]; decide))
    have hchain : Chain (· != .rightBrace) (member variant) [u, v, w, c, last]
        [some ⟨u.value, some n, none⟩] [c, last] :=
      .cons (by simpa using hbrace) hmember (.nil (by rw [current_cons, hc]; decide))
    have hbody : body 8 variant [b, u, v, w, c, last] = .done [⟨u.value, some n, none⟩] [last] :=
      body_cons hb (by simp) hchain (by simp) hc (by simp)
    exact ofTokens_declaration (.inr ht) hlast
      (declaration_enum (by rw [current_cons, ht]) (enumType_cons ht (by simp) hbody))
  | error fault =>
    have hmember : member variant [u, v, w, c, last] = .failed (.number fault) [w, c, last] :=
      member_failed hlines hbrace hdoc (variant_failed hu hv hw hread)
    have hbody : body 8 variant [b, u, v, w, c, last] = .failed (.number fault) [w, c, last] := by
      rw [body, discard_bind_of_done (consume_cons hb (by simp)), bind_of_failed]
      exact repeatWhile_of_failed (by simpa using hbrace) hmember
    have henum : enumType 8 [t, b, u, v, w, c, last] = .failed (.number fault) [w, c, last] := by
      rw [enumType, current_bind, discard_bind_of_done (consume_cons ht (by simp)),
        bind_of_failed hbody]
    have hdeclaration : declaration 8 none [t, b, u, v, w, c, last] =
        .failed (.number fault) [w, c, last] := by
      rw [declaration, current_bind, current_cons, ht]
      exact map_of_failed henum
    exact ofTokens_of_failed (.inr ht) hdeclaration

end Parse

/-! ## Compiling numbers -/

namespace Generator

open Number (maxDigits)
open TokenStream (kind_of_form value_of_form)

/-- An alias for a number token is compiled to the constant text of the token. -/
theorem compile_numberAlias (g : Generator) {text value : String} {kind : Token.Kind}
    (hstops : Text.Stops Text.isInlineBlank text.toList) (hreads : Reads text.toList [⟨kind, value⟩])
    (hkind : kind.isNumber = true) :
    (g.compile ("type X = " ++ text)).1 =
      .ok (rootSchema [("X", .object [("const", .string value)])]) := by
  obtain ⟨ts, hscan, hts⟩ := Token.scan_of_reads (BoundedType.reads_alias hstops hreads)
  rw [String.ofList_toList] at hscan
  obtain ⟨a, _, rfl, ha, hts⟩ := List.map_eq_cons_iff.1 hts
  obtain ⟨x, _, rfl, hx, hts⟩ := List.map_eq_cons_iff.1 hts
  obtain ⟨e, _, rfl, he, hts⟩ := List.map_eq_cons_iff.1 hts
  obtain ⟨t, _, rfl, ht, hts⟩ := List.map_eq_cons_iff.1 hts
  obtain ⟨last, rfl, hlast⟩ := List.map_eq_singleton_iff.1 hts
  have htype : Parse.typeExpr ([t, last].length + 4) [t, last] =
      .done (.literal t.pos (.text t.value) none) [last] :=
    Parse.typeExpr_number (by rw [kind_of_form ht, hkind])
      (kind_of_form hlast)
  have hdoc := Parse.ofTokens_typeAlias (kind_of_form ha) (kind_of_form hx)
    (kind_of_form he) (by simp) (kind_of_form hlast) htype
  have hstring : Document.ofString ("type X = " ++ text) = .ok
      { declarations := [.alias ⟨a.pos, "X", [], .literal t.pos (.text value) none, none⟩] } := by
    rw [Document.ofString, hscan]
    dsimp only
    rw [hdoc, value_of_form hx, value_of_form ht]
  rw [compile, hstring]
  rfl

/-- A sign in front of a point starts no token. -/
theorem scan_pointed (a : Number.PointedNumeral) (suffix : List Char) :
    Token.scan ("type X = " ++ String.ofList (a.chars ++ suffix)) =
      .error ⟨.unexpected a.sign, ⟨1, 10⟩⟩ := by
  have hchars : ("type X = " ++ String.ofList (a.chars ++ suffix)).toList =
      't' :: 'y' :: 'p' :: 'e' :: ' ' :: 'X' :: ' ' :: '=' :: ' ' :: (a.chars ++ suffix) := by
    simp
  have hsign : a.sign = '+' ∨ a.sign = '-' := by
    simpa [Lexeme.isSign] using a.isSign
  have hnext : Lexeme.next (a.chars ++ suffix) =
      ⟨.fault (.unexpected a.sign), [], a.chars ++ suffix⟩ := by
    rw [Number.PointedNumeral.chars]
    rcases hsign with h | h <;> rw [h] <;> rfl
  have hstops : Text.Stops Text.isInlineBlank (a.chars ++ suffix) := by
    refine Text.stops_cons.2 ?_
    rcases hsign with h | h <;> rw [h] <;> decide
  have hbreaks : Lexeme.Breaks ("type X = " ++ String.ofList (a.chars ++ suffix)).toList
      (['t', 'y', 'p', 'e'] ++ ([' '] ++ (['X'] ++ ([' '] ++ (['='] ++ ([' '] ++ []))))))
      (.unexpected a.sign) := by
    rw [hchars]
    refine .token rfl (.gap (BoundedType.next_space (Text.stops_cons.2 (by decide))) ?_)
    refine .token rfl (.gap (BoundedType.next_space (Text.stops_cons.2 (by decide))) ?_)
    exact .token rfl (.gap (BoundedType.next_space hstops) (.fault hnext))
  have hscan := Token.scan_of_breaks hbreaks
  rw [String.ofList_toList] at hscan
  exact hscan

theorem compile_numeral (g : Generator) (a : Numeral) {suffix : List Char}
    (hs : Lexeme.IsSuffix suffix) :
    (g.compile ("type X = " ++ String.ofList (a.chars ++ suffix))).1 = .ok (rootSchema
      [("X", .object [("const", .string (String.ofList (a.chars ++ suffix.map Char.toLower)))])]) := by
  have hnext := a.next_suffix hs (.inl rfl)
  rw [List.append_nil] at hnext
  refine compile_numberAlias g ?_ ?_ (Lexeme.isNumber_numberKind a.fractionChars a.exponentChars
    (suffix.map Char.toLower))
  · rw [String.toList_ofList]
    exact BoundedType.stops_isInlineBlank_numeral a suffix
  · rw [String.toList_ofList]
    exact .token hnext .nil

/-- What becomes of a typed number as the type of an alias. -/
theorem compile_typedNumber (g : Generator) (x : TypedNumber) :
    (g.compile ("type X = " ++ x.text)).1 = x.compiled := by
  cases x with
  | integer a s => exact compile_numeral g a.toNumeral (s.isSuffix Number.isSuffix_of_integerLetters)
  | real a s => exact compile_numeral g a (s.isSuffix Number.isSuffix_of_realLetters)
  | pointed a s =>
    have hstring : Document.ofString ("type X = " ++ (TypedNumber.pointed a s).text) =
        .error (.scan ⟨.unexpected a.sign, ⟨1, 10⟩⟩) := by
      rw [Document.ofString, TypedNumber.text, TypedNumber.parts, scan_pointed]
    rw [compile, hstring]
    rfl

/-- The tokens of an enumeration whose variant has an integer with a suffix. -/
theorem reads_enumText (a : IntegerNumeral) (s : Suffix integerLetters) :
    Reads ("enum \x7b A = " ++ (TypedNumber.integer a s).text ++ " \x7d").toList
      [⟨.enum, "enum"⟩, ⟨.leftBrace, "\x7b"⟩, ⟨.identifier, "A"⟩, ⟨.equals, "="⟩,
        ⟨.integer, (TypedNumber.integer a s).lowered⟩, ⟨.rightBrace, "\x7d"⟩] := by
  have hchars : ("enum \x7b A = " ++ (TypedNumber.integer a s).text ++ " \x7d").toList =
      'e' :: 'n' :: 'u' :: 'm' :: ' ' :: '\x7b' :: ' ' :: 'A' :: ' ' :: '=' :: ' ' ::
        (a.chars ++ s.chars ++ [' ', '\x7d']) := by
    simp [TypedNumber.text, TypedNumber.parts]
  have hnext := a.next_suffix (s.isSuffix Number.isSuffix_of_integerLetters) (.inr ⟨['\x7d'], rfl⟩)
  have hkind := a.numberKind_eq s
  rw [Suffix.lowered] at hkind
  rw [hkind] at hnext
  have hstops : Text.Stops Text.isInlineBlank (a.chars ++ s.chars ++ [' ', '\x7d']) := by
    rw [List.append_assoc]
    exact BoundedType.stops_isInlineBlank_numeral a.toNumeral _
  have hclose : Reads [' ', '\x7d'] [⟨.rightBrace, "\x7d"⟩] :=
    .gap (BoundedType.next_space (Text.stops_cons.2 (by decide))) (.token rfl .nil)
  rw [hchars]
  refine .token rfl (.gap (BoundedType.next_space (Text.stops_cons.2 (by decide))) ?_)
  refine .token rfl (.gap (BoundedType.next_space (Text.stops_cons.2 (by decide))) ?_)
  refine .token rfl (.gap (BoundedType.next_space (Text.stops_cons.2 (by decide))) ?_)
  exact .token rfl (.gap (BoundedType.next_space hstops) (.token hnext hclose))

/-- The value of a variant is the integer that its text is read as. -/
theorem ofString_enumText (a : IntegerNumeral) (s : Suffix integerLetters) :
    ∃ pos, Document.ofString ("enum \x7b A = " ++ (TypedNumber.integer a s).text ++ " \x7d") =
      match Number.readInteger (TypedNumber.integer a s).lowered with
      | .ok n => .ok { declarations := [.anonymous (.enum pos [⟨"A", some n, none⟩])] }
      | .error fault => .error (.parse (.number fault)) := by
  obtain ⟨ts, hscan, hts⟩ := Token.scan_of_reads (reads_enumText a s)
  rw [String.ofList_toList] at hscan
  obtain ⟨t, _, rfl, ht, hts⟩ := List.map_eq_cons_iff.1 hts
  obtain ⟨b, _, rfl, hb, hts⟩ := List.map_eq_cons_iff.1 hts
  obtain ⟨u, _, rfl, hu, hts⟩ := List.map_eq_cons_iff.1 hts
  obtain ⟨v, _, rfl, hv, hts⟩ := List.map_eq_cons_iff.1 hts
  obtain ⟨w, _, rfl, hw, hts⟩ := List.map_eq_cons_iff.1 hts
  obtain ⟨c, _, rfl, hc, hts⟩ := List.map_eq_cons_iff.1 hts
  obtain ⟨last, rfl, hlast⟩ := List.map_eq_singleton_iff.1 hts
  have hdoc := Parse.ofTokens_enum (kind_of_form ht) (kind_of_form hb) (kind_of_form hu)
    (kind_of_form hv) (kind_of_form hw) (kind_of_form hc) (kind_of_form hlast)
  rw [value_of_form hu, value_of_form hw] at hdoc
  refine ⟨t.pos, ?_⟩
  rw [Document.ofString, hscan]
  dsimp only
  rw [hdoc]
  cases Number.readInteger (TypedNumber.integer a s).lowered <;> rfl

/-- **Number literals stay texts.** An alias for a typed number is compiled to the constant text of the
number, with its suffix in lower case, or it fails if the number starts with a sign and a point. So the
constant is never the number. As the value of a variant, an integer is read if it has no more digits than
are read and no suffix, and otherwise the document fails. -/
theorem number_literals_stay_texts (g : Generator) :
    (∀ x : TypedNumber, (g.compile ("type X = " ++ x.text)).1 = x.compiled ∧
      ¬ ∃ c : Json, c.toRat? = some x.value ∧
        (g.compile ("type X = " ++ x.text)).1 = .ok (rootSchema [("X", .object [("const", c)])])) ∧
    ∀ (a : IntegerNumeral) (s : Suffix integerLetters), ∃ pos,
      Document.ofString ("enum \x7b A = " ++ (TypedNumber.integer a s).text ++ " \x7d") =
        if maxDigits < a.whole.length then .error (.parse (.number (.tooLong a.whole.length)))
        else if s.chars = [] then
          .ok { declarations := [.anonymous (.enum pos [⟨"A", some a.int, none⟩])] }
        else .error (.parse (.number (.notInteger (TypedNumber.integer a s).lowered))) := by
  refine ⟨fun x => ⟨g.compile_typedNumber x, ?_⟩, ?_⟩
  · rintro ⟨c, hc, hcompile⟩
    rw [compile_typedNumber] at hcompile
    cases x with
    | integer a s =>
      cases hcompile
      cases hc
    | real a s =>
      cases hcompile
      cases hc
    | pointed a s => cases hcompile
  · intro a s
    obtain ⟨pos, hdoc⟩ := ofString_enumText a s
    have hread : Number.readInteger (TypedNumber.integer a s).lowered = _ := a.readInteger_lowered s
    refine ⟨pos, ?_⟩
    rw [hdoc, hread]
    by_cases hlong : maxDigits < a.whole.length
    · rw [if_pos hlong, if_pos hlong]
    · rw [if_neg hlong, if_neg hlong]
      by_cases hs : s.chars = []
      · rw [if_pos hs, if_pos hs]
      · rw [if_neg hs, if_neg hs]
        rfl

def digitInteger (c : Char) (h : Text.isDecimal c = true) : IntegerNumeral :=
  { Parse.digitNumeral c h with fraction_eq := rfl, exponent_eq := rfl }

/-- Five as a type is the text of five, and the byte one is no value of a variant. -/
theorem number_literals_not_kept :
    (∃ x : TypedNumber, x.text = "5" ∧ x.value = 5 ∧
      (compile {} "type X = 5").1 = .ok (rootSchema [("X", .object [("const", .string "5")])])) ∧
    (∃ x : TypedNumber, x.text = "1b" ∧ x.value = 1 ∧
      Document.ofString "enum \x7b A = 1b \x7d" = .error (.parse (.number (.notInteger "1b")))) ∧
    ∃ x : TypedNumber, x.text = "-.5" ∧
      (compile {} "type X = -.5").1 = .error (.document (.scan ⟨.unexpected '-', ⟨1, 10⟩⟩)) := by
  let five : IntegerNumeral := digitInteger '5' (by decide)
  refine ⟨?_, ?_, ?_⟩
  · let x : TypedNumber := .integer five ⟨[], .inl rfl⟩
    exact ⟨x, rfl, by decide, compile_typedNumber {} x⟩
  · let one : IntegerNumeral := digitInteger '1' (by decide)
    let byte : Suffix integerLetters := ⟨['b'], .inr ⟨'b', rfl, by decide⟩⟩
    obtain ⟨pos, hdoc⟩ := ofString_enumText one byte
    have hread : Number.readInteger (TypedNumber.integer one byte).lowered = .error (.notInteger "1b") :=
      one.readInteger_lowered byte
    rw [hread] at hdoc
    exact ⟨.integer one byte, rfl, by decide, hdoc⟩
  · let half : Number.PointedNumeral :=
      ⟨'-', ['5'], none, rfl, five.whole_ne_nil, five.whole_isDecimal⟩
    let x : TypedNumber := .pointed half ⟨[], .inl rfl⟩
    exact ⟨x, rfl, compile_typedNumber {} x⟩

end Generator

end McdocSchema
