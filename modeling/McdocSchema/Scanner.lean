import McdocSchema.Token.Lexeme

/-!
# The scanner

A scanner stands in a text: some characters are read, the rest is not. Its position is that of the
first unread character. Each operation takes a stretch of the rest, and the scanner moves behind it;
a failure leaves the scanner behind what was read up to it.

`Scanner.tokens` reads tokens up to the end of the text or the first character zero. It ends because
every token and every gap has at least one character.
-/

namespace McdocSchema

/-- A place in a text: the characters read, the latest first, the characters to come, and the
position between them. -/
structure Scanner where
  past : List Char
  rest : List Char
  pos : Position
  deriving Repr

/-- A failure of the scanner at a position. -/
structure ScanFault where
  cause : ScanCause
  pos : Position
  deriving DecidableEq, Repr

def ScanCause.message : ScanCause → String
  | .unexpected c => "Unexpected character: " ++ String.singleton c
  | .unterminated => "Unterminated string"
  | .reported message => message

/-- The message of a failure, with its position. -/
def ScanFault.message (fault : ScanFault) : String :=
  fault.pos.describe fault.cause.message

namespace Scanner

/-- A scanner at the start of a text. -/
def ofChars (cs : List Char) : Scanner := ⟨[], cs, .start⟩

/-- A scanner at the start of a text. -/
def ofString (text : String) : Scanner := ofChars text.toList

/-- The number of characters read. -/
def offset (s : Scanner) : Nat := s.past.length

/-- The whole text. -/
def text (s : Scanner) : List Char := s.past.reverse ++ s.rest

/-- The scanner behind a stretch that was taken from its rest. -/
def moveBehind (s : Scanner) {α : Type} (r : Text.Reading α) : Scanner :=
  ⟨r.taken.reverseAux s.past, r.rest, s.pos.advance r.taken⟩

/-- A failure at the present position. -/
def fault (s : Scanner) (cause : ScanCause) : ScanFault := ⟨cause, s.pos⟩

/-! ## Single operations -/

/-- The character at a distance from the scanner. Behind the end of the text there are zeros, and
before its start the characters are counted from its end, as far as there are any. -/
def peek? (s : Scanner) (distance : Int) : Option Char :=
  let i := (s.offset : Int) + distance
  let n := s.text.length
  if (n : Int) ≤ i then some '\x00'
  else if 0 ≤ i then s.text[i.toNat]?
  else if 0 ≤ (n : Int) + i then s.text[((n : Int) + i).toNat]?
  else none

/-- Takes one character; at the end of the text a zero is seen and nothing is taken. -/
def advance (s : Scanner) : Char × Scanner :=
  match s.rest with
  | [] => ('\x00', s)
  | c :: cs => (c, s.moveBehind ⟨c, [c], cs⟩)

/-- Takes the blanks that come before the next line feed. -/
def skipBlanks (s : Scanner) : Scanner :=
  s.moveBehind (Lexeme.takeRun Text.isInlineBlank s.rest)

/-- Takes a run of name characters. -/
def word (s : Scanner) : List Char × Scanner :=
  let r := Lexeme.takeRun Text.isNameChar s.rest
  (r.value, s.moveBehind r)

/-- Takes a number. -/
def number (s : Scanner) : (List Char × Token.Kind) × Scanner :=
  let r := Lexeme.number s.rest
  (r.value, s.moveBehind r)

/-- Takes a comment. -/
def comment (s : Scanner) : (List Char × Token.Kind) × Scanner :=
  let r := Lexeme.comment s.rest
  (r.value, s.moveBehind r)

/-- Takes a string. -/
def string (s : Scanner) : Except ScanFault (List Char) × Scanner :=
  let r := Lexeme.string s.rest
  let s := s.moveBehind r
  match r.value with
  | some text => (.ok text, s)
  | none => (.error (s.fault .unterminated), s)

/-! ## Tokens -/

/-- The outcome of reading tokens: those read, the scanner behind them and what went wrong. -/
structure Run where
  tokens : List Token
  scanner : Scanner
  fault : Option ScanFault
  deriving Repr

/-- Reads tokens, the latest of those already read being first in `done`. -/
def run (s : Scanner) (done : List Token) : Run :=
  let r := Lexeme.next s.rest
  match _h : r.value with
  | .stop => ⟨(Token.eofAt s.pos :: done).reverse, s, none⟩
  | .gap => run (s.moveBehind r) done
  | .token kind value => run (s.moveBehind r) (⟨kind, value, s.pos⟩ :: done)
  | .fault cause =>
    let s := s.moveBehind r
    ⟨done.reverse, s, some (s.fault cause)⟩
termination_by s.rest.length
decreasing_by
  all_goals
    exact Lexeme.next_rest_lt (by simp +zetaDelta only at _h; simp [_h, Found.goesOn])

/-- Reads the tokens that are left, with the end of the text as the last one. -/
def tokens (s : Scanner) : Run :=
  run s []

end Scanner

/-- The tokens of a text, the end of the text being the last one. -/
def Token.scan (text : String) : Except ScanFault (List Token) :=
  let r := (Scanner.ofString text).tokens
  match r.fault with
  | some fault => .error fault
  | none => .ok r.tokens

end McdocSchema
