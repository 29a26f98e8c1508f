import McdocSchema.Number.Notation
import McdocSchema.Text.Blank
import McdocSchema.Text.Digit
import McdocSchema.Text.Quoted

/-!
# Reading numbers

Two grammars of number text. Both take blanks around the number, a sign, decimal digits of any
script and single underscores between digits. An integer has digits only, at most 4300 of them; a
real number also has a point, an exponent and the words for infinity and for no number, in any case.
-/

namespace McdocSchema.Number

/-- Why a text is no number. -/
inductive ReadFault
  /-- The text does not follow the grammar of real numbers. -/
  | notReal (text : String)
  /-- The text does not follow the grammar of integers. -/
  | notInteger (text : String)
  /-- The integer has more digits than are read. -/
  | tooLong (digits : Nat)
  deriving DecidableEq, Repr

/-- The greatest number of digits of an integer. -/
def maxDigits : Nat := 4300

/-- The greatest length to which a message about an integer shows the text. -/
def shownLength : Nat := 200

def ReadFault.message : ReadFault → String
  | .notReal text => "could not convert string to float: " ++ Text.quoted text
  | .notInteger text =>
    "invalid literal for int() with base 10: "
      ++ String.ofList ((Text.quoted text).toList.take shownLength)
  | .tooLong digits =>
    "Exceeds the limit (" ++ toString maxDigits ++ " digits) for integer string conversion: value has "
      ++ toString digits ++ " digits; use sys.set_int_max_str_digits() to increase the limit"

/-- Blanks that may stand around a number: all but the four separator controls. -/
def isMargin (c : Char) : Bool :=
  Text.isBlank c && !(0x1C ≤ c.toNat && c.toNat ≤ 0x1F)

/-- Removes the blanks around a number. -/
def trimMargins (cs : List Char) : List Char :=
  ((cs.dropWhile isMargin).reverse.dropWhile isMargin).reverse

/-- A decimal digit of any script as one of the first ten, other characters as they are. -/
def plainDigit (c : Char) : Char :=
  match Text.decimalValue? c with
  | some v => Nat.digitChar v
  | none => c

/-- Splits off a sign; true for a minus. -/
def takeSign : List Char → Bool × List Char
  | '-' :: cs => (true, cs)
  | '+' :: cs => (false, cs)
  | cs => (false, cs)

/-- The value of plain digits. -/
def digitsValue (cs : List Char) : Nat :=
  cs.foldl (fun n c => 10 * n + (c.toNat - '0'.toNat)) 0

/-- Removes underscores, each of which must stand between two digits. -/
def removeUnderscores (previous : Char) : List Char → Option (List Char)
  | [] => if previous == '_' then none else some []
  | c :: cs =>
    if c == '_' then
      if previous.isDigit then removeUnderscores c cs else none
    else if previous == '_' && !c.isDigit then none
    else (removeUnderscores c cs).map (c :: ·)

/-- Reads an exponent, which ends the number. -/
def readExponent? : List Char → Option Int
  | [] => some 0
  | c :: cs =>
    if c == 'e' || c == 'E' then
      let (negative, ds) := takeSign cs
      if ds.isEmpty || !ds.all Char.isDigit then none
      else some (if negative then -(digitsValue ds : Int) else digitsValue ds)
    else none

/-- Reads digits, a fraction and an exponent. -/
def readMagnitude? (negative : Bool) (cs : List Char) : Option Binary64 :=
  let whole := cs.takeWhile Char.isDigit
  let rest := cs.dropWhile Char.isDigit
  let (fraction, rest) := match rest with
    | '.' :: rest => (rest.takeWhile Char.isDigit, rest.dropWhile Char.isDigit)
    | rest => ([], rest)
  if whole.isEmpty && fraction.isEmpty then none
  else
    (readExponent? rest).map fun e =>
      Binary64.ofDecimal negative (digitsValue (whole ++ fraction)) (e - fraction.length)

/-- Reads the word for infinity or for no number. -/
def readWord? (negative : Bool) (cs : List Char) : Option Binary64 :=
  let word := cs.map Char.toLower
  if word = "inf".toList || word = "infinity".toList then some (.infinity negative)
  else if word = "nan".toList then some .nan
  else none

/-- Reads a real number. -/
def readReal? (text : String) : Option Binary64 := do
  let cs ← removeUnderscores ' ' ((trimMargins text.toList).map plainDigit)
  let (negative, cs) := takeSign cs
  (readWord? negative cs).or (readMagnitude? negative cs)

/-- Reads a real number, or says why it is none. -/
def readReal (text : String) : Except ReadFault Binary64 :=
  match readReal? text with
  | some x => .ok x
  | none => .error (.notReal text)

/-- The digits and underscores at the start, without the underscores; none if an underscore does
not stand between two digits. -/
def integerDigits? (cs : List Char) : Option (List Char) :=
  removeUnderscores ' ' (cs.takeWhile fun c => c.isDigit || c == '_')

/-- Reads an integer, or says why it is none. The number of digits is looked at before what follows
them. -/
def readInteger (text : String) : Except ReadFault Int :=
  let (negative, cs) := takeSign ((trimMargins text.toList).map plainDigit)
  match integerDigits? cs with
  | none => .error (.notInteger text)
  | some ds =>
    if maxDigits < ds.length then .error (.tooLong ds.length)
    else if ds.isEmpty || !(cs.dropWhile fun c => c.isDigit || c == '_').isEmpty then
      .error (.notInteger text)
    else .ok (if negative then -(digitsValue ds : Int) else digitsValue ds)

end McdocSchema.Number
