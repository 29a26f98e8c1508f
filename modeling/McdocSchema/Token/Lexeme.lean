import McdocSchema.Text.Blank
import McdocSchema.Text.Name
import McdocSchema.Token

/-!
# Lexemes

A lexeme is the stretch of text that makes a token. Every reader below takes a stretch from the
front of the text and leaves the rest: nothing is lost (`taken ++ rest` is the text again), and
`Lexeme.next`, which chooses the reader by the first character, takes at least one character unless
it stops or fails.
-/

namespace McdocSchema

namespace Text

/-- What a reader took from the front of a text, what it left, and what it made of it. -/
structure Reading (α : Type) where
  value : α
  taken : List Char
  rest : List Char

end Text

/-- Why no token can be made. -/
inductive ScanCause
  /-- A character that starts no lexeme. -/
  | unexpected (c : Char)
  /-- A string without its closing quote. -/
  | unterminated
  /-- A message given by the caller. -/
  | reported (message : String)
  deriving DecidableEq, Repr

/-- What stands at the front of a text. -/
inductive Found
  /-- The end of the text, or the character zero. -/
  | stop
  /-- Blanks within a line, or a plain comment. -/
  | gap
  | token (kind : Token.Kind) (value : String)
  | fault (cause : ScanCause)
  deriving DecidableEq, Repr

/-- Whether the scanner goes on behind what was found. -/
def Found.goesOn : Found → Bool
  | .gap | .token .. => true
  | .stop | .fault _ => false

namespace Lexeme

open Text

/-! ## Words -/

/-- The words that are no identifiers. -/
def keywords : List (String × Token.Kind) :=
  [("struct", .struct), ("enum", .enum), ("type", .type), ("use", .use),
  ("dispatch", .dispatch), ("super", .super), ("any", .any), ("boolean", .booleanType),
  ("string", .stringType), ("byte", .byte), ("short", .short), ("int", .int), ("long", .long),
  ("float", .floatType), ("double", .double), ("true", .boolean), ("false", .boolean), ("to", .to)]

/-- The keys written with a percent sign. -/
def specialKeys : List (String × Token.Kind) :=
  [("%fallback", .fallbackKey), ("%none", .noneKey), ("%unknown", .unknownKey),
  ("%key", .keyKey), ("%parent", .parentKey)]

/-- The kind of a word: that of the table, or an identifier. -/
def kindIn (table : List (String × Token.Kind)) (word : String) : Token.Kind :=
  (table.lookup word).getD .identifier

/-- Takes the longest stretch of characters with the property `p`. -/
def takeRun (p : Char → Bool) (cs : List Char) : Reading (List Char) :=
  ⟨cs.takeWhile p, cs.takeWhile p, cs.dropWhile p⟩

/-! ## Symbols -/

/-- The symbols, a longer one before its beginnings. -/
def symbols : List (List Char × Token.Kind) :=
  [(['<', '.', '.', '<'], .exclusiveRangeExclusive), (['<', '.', '.'], .exclusiveRange),
  (['<'], .leftAngle), (['.', '.', '.'], .ellipsis), (['.', '.', '<'], .rangeExclusive),
  (['.', '.'], .range), (['.'], .dot), ([':', ':'], .doubleColon), ([':'], .colon),
  (['\x7b'], .leftBrace), (['\x7d'], .rightBrace), (['['], .leftBracket), ([']'], .rightBracket),
  (['('], .leftParen), ([')'], .rightParen), (['>'], .rightAngle), ([';'], .semicolon),
  ([','], .comma), (['?'], .question), (['|'], .pipe), (['&'], .ampersand), (['='], .equals),
  (['#'], .hash), (['@'], .atSign)]

/-- The longest symbol at the front of the text. -/
def symbol? (cs : List Char) : Option (List Char × Token.Kind) :=
  symbols.find? fun entry => entry.1.isPrefixOf cs

/-! ## Numbers -/

def isSign (c : Char) : Bool :=
  c == '+' || c == '-'

/-- Takes a sign if there is one. -/
def takeSign : List Char → List Char × List Char
  | [] => ([], [])
  | c :: cs => if isSign c then ([c], cs) else ([], c :: cs)

/-- Takes a point and the digits behind it, unless a second point follows the first. -/
def takeFraction : List Char → List Char × List Char
  | '.' :: '.' :: cs => ([], '.' :: '.' :: cs)
  | '.' :: cs => ('.' :: cs.takeWhile isDigit, cs.dropWhile isDigit)
  | cs => ([], cs)

/-- Takes an exponent, which may lack its digits. -/
def takeExponent : List Char → List Char × List Char
  | [] => ([], [])
  | c :: cs =>
    if c == 'e' || c == 'E' then
      let (sign, rest) := takeSign cs
      (c :: sign ++ rest.takeWhile isDigit, rest.dropWhile isDigit)
    else ([], c :: cs)

/-- Whether `c` is a suffix of a number in lower case. -/
def isSuffix (c : Char) : Bool :=
  c == 'b' || c == 's' || c == 'l' || c == 'f' || c == 'd'

/-- Takes a suffix in either case. -/
def takeSuffix : List Char → List Char × List Char
  | [] => ([], [])
  | c :: cs => if isSuffix c.toLower then ([c], cs) else ([], c :: cs)

/-- The kind of a number with the given fraction, exponent and suffix, each perhaps empty. A suffix
decides alone. -/
def numberKind (fraction exponent suffix : List Char) : Token.Kind :=
  match suffix with
  | [] => if fraction.isEmpty && exponent.isEmpty then .integer else .float
  | c :: _ => if c == 'f' || c == 'd' then .float else .integer

/-- A number: sign, digits, fraction, exponent and suffix, of which the suffix is put in lower
case. The value is the text together with the kind. -/
def number (cs : List Char) : Reading (List Char × Token.Kind) :=
  let (sign, r₁) := takeSign cs
  let (fraction, r₂) := takeFraction (r₁.dropWhile isDigit)
  let (exponent, r₃) := takeExponent r₂
  let (suffix, r₄) := takeSuffix r₃
  let front := sign ++ r₁.takeWhile isDigit ++ fraction ++ exponent
  let lowered := suffix.map Char.toLower
  ⟨(front ++ lowered, numberKind fraction exponent lowered), front ++ suffix, r₄⟩

/-! ## Strings -/

/-- The character that a backslash and `c` stand for. -/
def unescape (c : Char) : Char :=
  if c == 'n' then '\n'
  else if c == 't' then '\t'
  else if c == 'r' then '\r'
  else if c == 'b' then '\x08'
  else if c == 'f' then '\x0c'
  else c

/-- The rest of a string behind its opening `quote`: its content, if a closing quote comes before
the end of the text and before any character zero that is not escaped. -/
def stringBody (quote : Char) : List Char → Reading (Option (List Char))
  | [] => ⟨none, [], []⟩
  | c :: cs =>
    if c == '\x00' then ⟨none, [], c :: cs⟩
    else if c == quote then ⟨some [], [c], cs⟩
    else if c == '\\' then
      match cs with
      | [] => ⟨none, [c], []⟩
      | e :: cs =>
        let r := stringBody quote cs
        ⟨r.value.map (unescape e :: ·), c :: e :: r.taken, r.rest⟩
    else
      let r := stringBody quote cs
      ⟨r.value.map (c :: ·), c :: r.taken, r.rest⟩

/-- A string whose first character, whatever it is, is its quote. -/
def string : List Char → Reading (Option (List Char))
  | [] => ⟨none, [], []⟩
  | quote :: cs =>
    let r := stringBody quote cs
    ⟨r.value, quote :: r.taken, r.rest⟩

/-! ## Comments -/

/-- Whether `c` goes on with a comment: anything but a line feed and the character zero. -/
def isCommentChar (c : Char) : Bool :=
  c != '\n' && c != '\x00'

/-- A comment behind its two slashes: a third one makes it a documentation comment. -/
def commentBody : List Char → Reading (List Char × Token.Kind)
  | '/' :: cs =>
    ⟨(strip (cs.takeWhile isCommentChar), .docComment), '/' :: cs.takeWhile isCommentChar,
      cs.dropWhile isCommentChar⟩
  | cs =>
    ⟨(strip (cs.takeWhile isCommentChar), .comment), cs.takeWhile isCommentChar,
      cs.dropWhile isCommentChar⟩

/-- A comment; without two slashes at the front nothing is taken. -/
def comment : List Char → Reading (List Char × Token.Kind)
  | '/' :: '/' :: cs =>
    let r := commentBody cs
    ⟨r.value, '/' :: '/' :: r.taken, r.rest⟩
  | cs => ⟨([], .comment), [], cs⟩

/-! ## Choosing the reader -/

/-- A token read as a run of name characters behind `c`. -/
def word (table : List (String × Token.Kind)) (c : Char) (cs : List Char) : Reading Found :=
  let text := String.ofList (c :: cs.takeWhile isNameChar)
  ⟨.token (kindIn table text) text, c :: cs.takeWhile isNameChar, cs.dropWhile isNameChar⟩

/-- Whether the text starts with a digit. -/
def startsWithDigit : List Char → Bool
  | [] => false
  | c :: _ => isDigit c

/-- Whether the text starts with `c`. -/
def startsWith (c : Char) : List Char → Bool
  | [] => false
  | d :: _ => d == c

/-- What a comment is found as: only documentation makes a token. -/
def foundComment (cs : List Char) : Reading Found :=
  let r := comment cs
  let found := match r.value with
    | (text, .docComment) => .token .docComment (String.ofList text)
    | _ => .gap
  ⟨found, r.taken, r.rest⟩

def foundString (cs : List Char) : Reading Found :=
  let r := string cs
  let found := match r.value with
    | some text => .token .string (String.ofList text)
    | none => .fault .unterminated
  ⟨found, r.taken, r.rest⟩

def foundNumber (cs : List Char) : Reading Found :=
  let r := number cs
  ⟨.token r.value.2 (String.ofList r.value.1), r.taken, r.rest⟩

/-- What a symbol is found as; any other character is unexpected and not taken. -/
def foundSymbol (c : Char) (cs : List Char) : Reading Found :=
  match symbol? (c :: cs) with
  | some (text, kind) => ⟨.token kind (String.ofList text), text, (c :: cs).drop text.length⟩
  | none => ⟨.fault (.unexpected c), [], c :: cs⟩

/-- What stands at the front of the text. -/
def next : List Char → Reading Found
  | [] => ⟨.stop, [], []⟩
  | c :: cs =>
    if c == '\x00' then ⟨.stop, [], c :: cs⟩
    else if c == '\n' then ⟨.token .newline "\\n", [c], cs⟩
    else if isBlank c then ⟨.gap, c :: cs.takeWhile isInlineBlank, cs.dropWhile isInlineBlank⟩
    else if c == '/' && startsWith '/' cs then foundComment (c :: cs)
    else if c == '"' || c == '\'' then foundString (c :: cs)
    else if isDigit c || (isSign c && startsWithDigit cs) then foundNumber (c :: cs)
    else if isNameStart c then word keywords c cs
    else if c == '%' then word specialKeys c cs
    else foundSymbol c cs

/-! ## Nothing is lost -/

theorem takeSign_append (cs : List Char) : (takeSign cs).1 ++ (takeSign cs).2 = cs := by
  cases cs with
  | nil => rfl
  | cons c cs => simp only [takeSign]; split <;> simp

theorem takeFraction_append (cs : List Char) :
    (takeFraction cs).1 ++ (takeFraction cs).2 = cs := by
  unfold takeFraction
  split <;> simp

theorem takeExponent_append (cs : List Char) :
    (takeExponent cs).1 ++ (takeExponent cs).2 = cs := by
  cases cs with
  | nil => rfl
  | cons c cs =>
    simp only [takeExponent]
    split
    · simp [takeSign_append]
    · simp

theorem takeSuffix_append (cs : List Char) : (takeSuffix cs).1 ++ (takeSuffix cs).2 = cs := by
  cases cs with
  | nil => rfl
  | cons c cs => simp only [takeSuffix]; split <;> simp

theorem number_append (cs : List Char) : (number cs).taken ++ (number cs).rest = cs := by
  simp only [number, List.append_assoc, takeSuffix_append, takeExponent_append,
    takeFraction_append, List.takeWhile_append_dropWhile, takeSign_append]

theorem stringBody_append (quote : Char) (cs : List Char) :
    (stringBody quote cs).taken ++ (stringBody quote cs).rest = cs := by
  fun_induction stringBody quote cs with
  | case1 | case2 | case3 | case4 => simp
  | case5 _ _ _ _ _ _ _ ih => simpa using ih
  | case6 _ _ _ _ _ _ ih => simpa using ih

theorem string_append (cs : List Char) : (string cs).taken ++ (string cs).rest = cs := by
  cases cs with
  | nil => rfl
  | cons c cs => simp [string, stringBody_append]

theorem commentBody_append (cs : List Char) :
    (commentBody cs).taken ++ (commentBody cs).rest = cs := by
  unfold commentBody
  split <;> simp

theorem comment_append (cs : List Char) : (comment cs).taken ++ (comment cs).rest = cs := by
  unfold comment
  split
  · simp [commentBody_append]
  · simp

theorem symbol?_append {cs text : List Char} {kind : Token.Kind}
    (h : symbol? cs = some (text, kind)) : text ++ cs.drop text.length = cs := by
  have hp : text.isPrefixOf cs = true := by
    unfold symbol? at h
    simpa using List.find?_some h
  obtain ⟨rest, rfl⟩ := List.isPrefixOf_iff_prefix.1 hp
  simp

theorem symbol?_ne_nil {cs text : List Char} {kind : Token.Kind}
    (h : symbol? cs = some (text, kind)) : text ≠ [] := by
  have hall : ∀ entry ∈ symbols, entry.1 ≠ [] := by simp [symbols]
  exact hall _ (List.mem_of_find?_eq_some h)

theorem foundSymbol_append (c : Char) (cs : List Char) :
    (foundSymbol c cs).taken ++ (foundSymbol c cs).rest = c :: cs := by
  unfold foundSymbol
  split
  · next h => exact symbol?_append h
  · rfl

/-- What is taken and what is left make up the text. -/
theorem next_append (cs : List Char) : (next cs).taken ++ (next cs).rest = cs := by
  fun_cases next cs with
  | case1 | case2 | case3 => rfl
  | case4 | case8 | case9 => simp [word]
  | case5 c cs => exact comment_append (c :: cs)
  | case6 c cs => exact string_append (c :: cs)
  | case7 c cs => simpa [foundNumber] using number_append (c :: cs)
  | case10 c cs => exact foundSymbol_append c cs

/-! ## Progress -/

theorem foundComment_taken_ne_nil {c : Char} {cs : List Char}
    (h : (c == '/' && startsWith '/' cs) = true) : (foundComment (c :: cs)).taken ≠ [] := by
  cases cs with
  | nil => simp [startsWith] at h
  | cons d cs =>
    obtain ⟨rfl, rfl⟩ : c = '/' ∧ d = '/' := by simpa [startsWith] using h
    simp [foundComment, comment]

theorem number_taken_ne_nil {c : Char} {cs : List Char}
    (h : (isDigit c || (isSign c && startsWithDigit cs)) = true) :
    (number (c :: cs)).taken ≠ [] := by
  by_cases hs : isSign c = true
  · simp [number, takeSign, hs]
  · have hd : isDigit c = true := by simpa [hs] using h
    simp [number, takeSign, hs, hd]

theorem foundSymbol_taken_ne_nil {c : Char} {cs : List Char}
    (h : (foundSymbol c cs).value.goesOn = true) : (foundSymbol c cs).taken ≠ [] := by
  unfold foundSymbol at h ⊢
  split
  · next hs => exact symbol?_ne_nil hs
  · next hs => simp [hs, Found.goesOn] at h

/-- What the scanner goes on behind has at least one character. -/
theorem next_taken_ne_nil {cs : List Char} (h : (next cs).value.goesOn = true) :
    (next cs).taken ≠ [] := by
  fun_cases next cs with
  | case1 => simp [next, Found.goesOn] at h
  | case2 c cs hc => simp [next, hc, Found.goesOn] at h
  | case3 | case4 | case8 | case9 => simp [word]
  | case5 c cs _ _ _ hc => exact foundComment_taken_ne_nil hc
  | case6 c cs => simp [foundString, string]
  | case7 c cs _ _ _ _ _ hc => exact number_taken_ne_nil hc
  | case10 c cs h₁ h₂ h₃ h₄ h₅ h₆ h₇ h₈ =>
    have he : next (c :: cs) = foundSymbol c cs := by
      simp only [next, h₁, h₂, h₃, h₄, h₅, h₆, h₇, h₈, if_false, Bool.false_eq_true]
    exact foundSymbol_taken_ne_nil (he ▸ h)

/-- Behind a token or a gap the text is shorter. -/
theorem next_rest_lt {cs : List Char} (h : (next cs).value.goesOn = true) :
    (next cs).rest.length < cs.length := by
  have ha := congrArg List.length (next_append cs)
  have hn := List.length_pos_iff.2 (next_taken_ne_nil h)
  rw [List.length_append] at ha
  omega

end Lexeme

end McdocSchema
