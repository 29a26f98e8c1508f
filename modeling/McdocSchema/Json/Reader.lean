import McdocSchema.Json
import McdocSchema.Number.Reading

/-!
# Reading JSON

The value that a JSON text stands for. The text may also hold the words for infinities and for no
number. A fault tells what is missing and where. Of two fields with one key the later one counts, in
the place of the earlier one; a surrogate without its partner becomes the replacement character.

Nesting and repetition are bounded by the length of the text, which no text exceeds.
-/

namespace McdocSchema.Json

open Number (Binary64)

/-! ## Faults -/

/-- What is wrong with a text. -/
inductive Cause
  | value | name | colon | comma | unterminated | control | escape | unitEscape | extra | byteOrder
  deriving DecidableEq, Repr

def Cause.message : Cause → String
  | .value => "Expecting value"
  | .name => "Expecting property name enclosed in double quotes"
  | .colon => "Expecting ':' delimiter"
  | .comma => "Expecting ',' delimiter"
  | .unterminated => "Unterminated string starting at"
  | .control => "Invalid control character at"
  | .escape => "Invalid \\escape"
  | .unitEscape => "Invalid \\uXXXX escape"
  | .extra => "Extra data"
  | .byteOrder => "Unexpected UTF-8 BOM (decode using utf-8-sig)"

/-- What is wrong with a text, and the rest of the text from there on. -/
inductive Trouble
  | malformed (cause : Cause) (rest : List Char)
  | number (fault : Number.ReadFault)

/-- Why a text is no JSON. -/
inductive Fault
  | malformed (cause : Cause) (line column offset : Nat)
  | number (fault : Number.ReadFault)
  deriving DecidableEq, Repr

def Fault.message : Fault → String
  | .malformed cause line column offset =>
    cause.message ++ ": line " ++ toString line ++ " column " ++ toString column
      ++ " (char " ++ toString offset ++ ")"
  | .number fault => fault.message

/-- A reader: a value and the rest of the text, or what is wrong. -/
abbrev Read (α : Type) := List Char → Except Trouble (α × List Char)

/-! ## Strings -/

/-- White space of the format. -/
def isSpace (c : Char) : Bool :=
  c == ' ' || c == '\t' || c == '\n' || c == '\r'

/-- The rest behind white space. -/
def skipSpace (cs : List Char) : List Char :=
  cs.dropWhile isSpace

/-- The value of a hexadecimal digit. -/
def hexValue? (c : Char) : Option Nat :=
  if c.isDigit then some (c.toNat - '0'.toNat)
  else if 'a' ≤ c && c ≤ 'f' then some (c.toNat - 'a'.toNat + 10)
  else if 'A' ≤ c && c ≤ 'F' then some (c.toNat - 'A'.toNat + 10)
  else none

/-- The 16-bit unit that four hexadecimal digits stand for. -/
def unit? : List Char → Option (Nat × List Char)
  | a :: b :: c :: d :: rest => do
    let a ← hexValue? a
    let b ← hexValue? b
    let c ← hexValue? c
    let d ← hexValue? d
    some (((a * 16 + b) * 16 + c) * 16 + d, rest)
  | _ => none

/-- The character of two surrogates. -/
def joinSurrogates (high low : Nat) : Char :=
  Char.ofNat (0x10000 + (high - 0xD800) * 0x400 + (low - 0xDC00))

def replacement : Char := Char.ofNat 0xFFFD

/-- Whether a unit is the first of two surrogates. -/
def isHigh (n : Nat) : Bool := 0xD800 ≤ n && n < 0xDC00

/-- Whether a unit is the second of two surrogates. -/
def isLow (n : Nat) : Bool := 0xDC00 ≤ n && n < 0xE000

/-- The second surrogate at the front of a text. -/
def low? : List Char → Option (Nat × List Char)
  | '\\' :: 'u' :: cs =>
    match unit? cs with
    | some (n, rest) => if isLow n then some (n, rest) else none
    | none => none
  | _ => none

/-- The character of an escape by units, behind its letter. -/
def unitChar? (cs : List Char) : Option (Char × List Char) :=
  match unit? cs with
  | none => none
  | some (n, rest) =>
    if isHigh n then
      match low? rest with
      | some (m, rest') => some (joinSurrogates n m, rest')
      | none => some (replacement, rest)
    else if isLow n then some (replacement, rest)
    else some (Char.ofNat n, rest)

def shortEscape? (c : Char) : Option Char :=
  if c == '"' || c == '\\' || c == '/' then some c
  else if c == 'n' then some '\n'
  else if c == 'r' then some '\r'
  else if c == 't' then some '\t'
  else if c == 'b' then some '\x08'
  else if c == 'f' then some '\x0c'
  else none

/-- The rest of a string behind its opening quote. `start` is the text from that quote on, `found`
what was read of the content, the latest first. The bound is the length of the text. -/
def stringRest (start : List Char) (found : List Char) :
    Nat → List Char → Except Trouble (String × List Char)
  | 0, _ => .error (.malformed .unterminated start)
  | _, [] => .error (.malformed .unterminated start)
  | bound + 1, c :: cs =>
    if c == '"' then .ok (String.ofList found.reverse, cs)
    else if c == '\\' then
      match cs with
      | [] => .error (.malformed .unterminated start)
      | e :: rest =>
        if e == 'u' then
          match unitChar? rest with
          | some (d, rest') => stringRest start (d :: found) bound rest'
          | none => .error (.malformed .unitEscape cs)
        else
          match shortEscape? e with
          | some d => stringRest start (d :: found) bound rest
          | none => .error (.malformed .escape (c :: cs))
    else if c.toNat < 0x20 then .error (.malformed .control (c :: cs))
    else stringRest start (c :: found) bound cs

/-- A string, its opening quote being the first character. -/
def readString : Read String
  | [] => .error (.malformed .unterminated [])
  | quote :: cs => stringRest (quote :: cs) [] (cs.length + 1) cs

/-! ## Numbers -/

/-- The digits of a whole number: a zero alone, or digits that do not start with it. -/
def takeWhole : List Char → Option (List Char × List Char)
  | '0' :: cs => some (['0'], cs)
  | c :: cs =>
    if c.isDigit then some (c :: cs.takeWhile Char.isDigit, cs.dropWhile Char.isDigit) else none
  | [] => none

/-- A fraction with at least one digit, or nothing. -/
def takeFraction : List Char → List Char × List Char
  | '.' :: c :: cs =>
    if c.isDigit then ('.' :: c :: cs.takeWhile Char.isDigit, cs.dropWhile Char.isDigit)
    else ([], '.' :: c :: cs)
  | cs => ([], cs)

/-- An exponent with at least one digit, or nothing. -/
def takeExponent : List Char → List Char × List Char
  | [] => ([], [])
  | e :: cs =>
    if e == 'e' || e == 'E' then
      let (sign, ds) := match cs with
        | '+' :: ds => (['+'], ds)
        | '-' :: ds => (['-'], ds)
        | ds => ([], ds)
      if (ds.takeWhile Char.isDigit).isEmpty then ([], e :: cs)
      else (e :: sign ++ ds.takeWhile Char.isDigit, ds.dropWhile Char.isDigit)
    else ([], e :: cs)

/-- A number: an integer unless it has a fraction or an exponent. -/
def readNumber : Read Json := fun cs =>
  let (sign, ds) := match cs with
    | '-' :: ds => (['-'], ds)
    | ds => ([], ds)
  match takeWhole ds with
  | none => .error (.malformed .value cs)
  | some (whole, r₁) =>
    let (fraction, r₂) := takeFraction r₁
    let (exponent, r₃) := takeExponent r₂
    let text := String.ofList (sign ++ whole ++ fraction ++ exponent)
    if fraction.isEmpty && exponent.isEmpty then
      match Number.readInteger text with
      | .ok n => .ok (.int n, r₃)
      | .error fault => .error (.number fault)
    else
      match Number.readReal text with
      | .ok x => .ok (.real x, r₃)
      | .error fault => .error (.number fault)

/-! ## Values -/

/-- The words of the format. -/
def words : List (List Char × Json) :=
  [("null".toList, .null), ("true".toList, .bool true), ("false".toList, .bool false),
  ("NaN".toList, .real .nan), ("Infinity".toList, .real (.infinity false)),
  ("-Infinity".toList, .real (.infinity true))]

/-- The word at the front of a text. -/
def word? (cs : List Char) : Option (Json × List Char) :=
  (words.find? fun entry => entry.1.isPrefixOf cs).map fun entry =>
    (entry.2, cs.drop entry.1.length)

/-- The items of an array from one of them on, up to the closing bracket. -/
def itemsFrom (inner : Read Json) (found : List Json) : Nat → Read Json
  | 0 => fun cs => .error (.malformed .value cs)
  | bound + 1 => fun cs =>
    match inner cs with
    | .error trouble => .error trouble
    | .ok (item, rest) =>
      match skipSpace rest with
      | ']' :: rest => .ok (.array (item :: found).reverse, rest)
      | ',' :: rest => itemsFrom inner (item :: found) bound (skipSpace rest)
      | rest => .error (.malformed .comma rest)

/-- An array behind its opening bracket. -/
def readItems (inner : Read Json) (bound : Nat) : Read Json := fun cs =>
  match skipSpace cs with
  | ']' :: rest => .ok (.array [], rest)
  | rest => itemsFrom inner [] bound rest

/-- A field: a name, a colon and a value. -/
def readField (inner : Read Json) : Read (String × Json)
  | '"' :: cs =>
    match readString ('"' :: cs) with
    | .error trouble => .error trouble
    | .ok (key, rest) =>
      match skipSpace rest with
      | ':' :: rest =>
        match inner (skipSpace rest) with
        | .error trouble => .error trouble
        | .ok (value, rest) => .ok ((key, value), rest)
      | rest => .error (.malformed .colon rest)
  | cs => .error (.malformed .name cs)

/-- The fields of an object from one of them on, up to the closing brace. -/
def fieldsFrom (inner : Read Json) (found : Fields Json) : Nat → Read Json
  | 0 => fun cs => .error (.malformed .name cs)
  | bound + 1 => fun cs =>
    match readField inner cs with
    | .error trouble => .error trouble
    | .ok ((key, value), rest) =>
      match skipSpace rest with
      | '\x7d' :: rest => .ok (.object (found.set key value), rest)
      | ',' :: rest => fieldsFrom inner (found.set key value) bound (skipSpace rest)
      | rest => .error (.malformed .comma rest)

/-- An object behind its opening brace. -/
def readFields (inner : Read Json) (bound : Nat) : Read Json := fun cs =>
  match skipSpace cs with
  | '\x7d' :: rest => .ok (.object [], rest)
  | rest => fieldsFrom inner [] bound rest

/-- A value, nested and repeated up to the given bound. -/
def readValue : Nat → Read Json
  | 0 => fun cs => .error (.malformed .value cs)
  | bound + 1 => fun cs =>
    match cs with
    | '"' :: _ => (readString cs).map fun (s, rest) => (.string s, rest)
    | '\x7b' :: rest => readFields (readValue bound) (bound + 1) rest
    | '[' :: rest => readItems (readValue bound) (bound + 1) rest
    | cs =>
      match word? cs with
      | some found => .ok found
      | none => readNumber cs

/-- A value with white space around it, and nothing else. -/
def readWhole (cs : List Char) : Except Trouble Json :=
  if cs.head? == some (Char.ofNat 0xFEFF) then .error (.malformed .byteOrder cs)
  else
    match readValue (cs.length + 1) (skipSpace cs) with
    | .error trouble => .error trouble
    | .ok (value, rest) =>
      match skipSpace rest with
      | [] => .ok value
      | rest => .error (.malformed .extra rest)

def Trouble.locate (text : List Char) : Trouble → Fault
  | .malformed cause rest =>
    let before := text.take (text.length - rest.length)
    let lastLine := before.reverse.takeWhile (· != '\n')
    .malformed cause (before.count '\n' + 1) (lastLine.length + 1) before.length
  | .number fault => .number fault

/-- The value that a text stands for. -/
def parse (text : String) : Except Fault Json :=
  let cs := text.toList
  match readWhole cs with
  | .ok value => .ok value
  | .error trouble => .error (trouble.locate cs)

end McdocSchema.Json
