import McdocSchema.Json
import McdocSchema.Number.Notation
import McdocSchema.Text.Quoted

/-!
# JSON values in messages

The text by which messages and addresses show a value, and the word for its sort. A string stands for
itself, but inside another value it is quoted.
-/

namespace McdocSchema.Json

/-- The word for the sort of a value. -/
def sortName : Json → String
  | .null => "NoneType"
  | .bool _ => "bool"
  | .int _ => "int"
  | .real _ => "float"
  | .string _ => "str"
  | .array _ => "list"
  | .object _ => "dict"

mutual

/-- The text of a value inside another one. -/
def displayInner : Json → String
  | .null => "None"
  | .bool true => "True"
  | .bool false => "False"
  | .int n => Number.intText n
  | .real x => x.toText
  | .string s => Text.quoted s
  | .array items => "[" ++ ", ".intercalate (displayItems items) ++ "]"
  | .object fields => "\x7b" ++ ", ".intercalate (displayFields fields) ++ "\x7d"

/-- The texts of items. -/
def displayItems : List Json → List String
  | [] => []
  | item :: items => displayInner item :: displayItems items

/-- The texts of fields. -/
def displayFields : List (String × Json) → List String
  | [] => []
  | (key, value) :: fields => (Text.quoted key ++ ": " ++ displayInner value) :: displayFields fields

end

/-- The text of a value. -/
def display : Json → String
  | .string s => s
  | j => j.displayInner

end McdocSchema.Json
