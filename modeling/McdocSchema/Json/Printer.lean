import McdocSchema.Json
import McdocSchema.Number.Notation
import McdocSchema.Text.Quoted

/-!
# Writing JSON

The text of a JSON value, on one line or with one item a line. All characters beyond the tilde are
written as escapes of their 16-bit units, so that the text is ASCII throughout. Empty arrays and
objects are written without anything inside.
-/

namespace McdocSchema.Json

open Number (Binary64)

/-! ## Strings -/

/-- An escape of a 16-bit unit. -/
def unitEscape (n : Nat) : List Char :=
  '\\' :: 'u' :: Text.hexDigits 4 n

/-- The escape of a character beyond the tilde or of a control character: one unit, or the two
surrogates of a character beyond the first 65536. -/
def charEscape (c : Char) : List Char :=
  let n := c.toNat
  if n < 0x10000 then unitEscape n
  else unitEscape (0xD800 + (n - 0x10000) / 0x400) ++ unitEscape (0xDC00 + (n - 0x10000) % 0x400)

/-- A character inside a string. -/
def stringChar (c : Char) : List Char :=
  if c == '"' then ['\\', '"']
  else if c == '\\' then ['\\', '\\']
  else if c == '\n' then ['\\', 'n']
  else if c == '\r' then ['\\', 'r']
  else if c == '\t' then ['\\', 't']
  else if c == '\x08' then ['\\', 'b']
  else if c == '\x0c' then ['\\', 'f']
  else if 0x20 ≤ c.toNat && c.toNat < 0x7F then [c]
  else charEscape c

/-- A string between its quotes. -/
def stringChars (s : String) : List Char :=
  '"' :: s.toList.flatMap stringChar ++ ['"']

/-! ## Numbers -/

/-- A number that need not be an integer. -/
def realChars : Binary64 → List Char
  | .nan => "NaN".toList
  | .infinity false => "Infinity".toList
  | .infinity true => "-Infinity".toList
  | x => x.toText.toList

/-! ## Values -/

/-- How a value is laid out: on one line, or with an indentation of so many blanks a level. -/
structure Style where
  indent : Option Nat

namespace Style

def oneLine : Style := ⟨none⟩

/-- An item a line, two blanks a level. -/
def indented : Style := ⟨some 2⟩

/-- What stands between a bracket and an item. -/
def margin (style : Style) (level : Nat) : List Char :=
  match style.indent with
  | none => []
  | some width => '\n' :: List.replicate (width * level) ' '

/-- What stands between two items. -/
def comma (style : Style) (level : Nat) : List Char :=
  match style.indent with
  | none => [',', ' ']
  | some _ => ',' :: style.margin level

end Style

mutual

/-- The text of a value at a level of nesting. -/
def toChars (style : Style) (level : Nat) : Json → List Char
  | .null => ['n', 'u', 'l', 'l']
  | .bool true => ['t', 'r', 'u', 'e']
  | .bool false => ['f', 'a', 'l', 's', 'e']
  | .int n => (Number.intText n).toList
  | .real x => realChars x
  | .string s => stringChars s
  | .array [] => ['[', ']']
  | .array (item :: items) =>
    '[' :: style.margin (level + 1) ++ toChars style (level + 1) item
      ++ itemsChars style (level + 1) items ++ style.margin level ++ [']']
  | .object [] => ['\x7b', '\x7d']
  | .object ((key, value) :: fields) =>
    '\x7b' :: style.margin (level + 1) ++ stringChars key ++ ':' :: ' '
      :: toChars style (level + 1) value ++ fieldsChars style (level + 1) fields
      ++ style.margin level ++ ['\x7d']

/-- The further items of an array. -/
def itemsChars (style : Style) (level : Nat) : List Json → List Char
  | [] => []
  | item :: items =>
    style.comma level ++ toChars style level item ++ itemsChars style level items

/-- The further fields of an object. -/
def fieldsChars (style : Style) (level : Nat) : List (String × Json) → List Char
  | [] => []
  | (key, value) :: fields =>
    style.comma level ++ stringChars key ++ ':' :: ' ' :: toChars style level value
      ++ fieldsChars style level fields

end

/-- The text with an item a line. -/
def pretty (value : Json) : String :=
  String.ofList (toChars .indented 0 value)

/-- The text on one line. -/
def compact (value : Json) : String :=
  String.ofList (toChars .oneLine 0 value)

end McdocSchema.Json
