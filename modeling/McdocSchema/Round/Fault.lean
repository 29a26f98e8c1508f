import McdocSchema.Bench
import McdocSchema.Json.Reader

/-!
# Faults of a measuring round

Why a part of a round cannot be read, and how what is read from a report becomes a number.
-/

namespace McdocSchema.Round

open Number (Binary64)

/-- Why something cannot be read. -/
inductive Fault
  | json (fault : Json.Fault)
  /-- A value that should be an object. -/
  | noFields (value : Json)
  | number (fault : Number.ReadFault)
  /-- A value that is no number and no text of one. -/
  | notNumber (integer : Bool) (value : Json)
  | raised (raised : Raised)

/-- The word for the sort of a fault. -/
def Fault.sortName : Fault → String
  | .json (.malformed ..) => "JSONDecodeError"
  | .json (.number _) => "ValueError"
  | .noFields _ => "AttributeError"
  | .number _ => "ValueError"
  | .notNumber .. => "TypeError"
  | .raised r => r.sort

def Fault.message : Fault → String
  | .json fault => fault.message
  | .noFields value => "'" ++ value.sortName ++ "' object has no attribute 'get'"
  | .number fault => fault.message
  | .notNumber true value =>
    "int() argument must be a string, a bytes-like object or a real number, not '"
      ++ value.sortName ++ "'"
  | .notNumber false value =>
    "float() argument must be a string or a real number, not '" ++ value.sortName ++ "'"
  | .raised r => r.message

def Fault.report (f : Fault) : String := f.sortName ++ ": " ++ f.message

/-- Whether a value counts as nothing. -/
def isNothing : Json → Bool
  | .null => true
  | .bool b => !b
  | .int n => n == 0
  | .real x => x.isZero
  | .string s => s.isEmpty
  | .array items => items.isEmpty
  | .object fields => fields.isEmpty

def fieldsOf : Json → Except Fault (Fields Json)
  | .object fields => .ok fields
  | value => .error (.noFields value)

/-- A field of an object, or null. -/
def fieldOf (key : String) (fields : Fields Json) : Json :=
  (fields.get? key).getD .null

/-- The fields of an object in a field; nothing in it is an empty object. -/
def fieldsIn (key : String) (fields : Fields Json) : Except Fault (Fields Json) :=
  let value := fieldOf key fields
  if isNothing value then .ok [] else fieldsOf value

/-- The real number that a value stands for. -/
def realOf : Json → Except Fault Binary64
  | .real x => .ok x
  | .int n => .ok (Binary64.ofInt n)
  | .bool b => .ok (if b then 1 else 0)
  | .string s => (Number.readReal s).mapError .number
  | value => .error (.notNumber false value)

/-- The integer that a value stands for. -/
def intOf : Json → Except Fault Int
  | .int n => .ok n
  | .bool b => .ok (if b then 1 else 0)
  | .real x => .ok (x.truncate?.getD 0)
  | .string s => (Number.readInteger s).mapError .number
  | value => .error (.notNumber true value)

/-- The real number in a field; nothing in it is zero. -/
def realIn (key : String) (fields : Fields Json) : Except Fault Binary64 :=
  let value := fieldOf key fields
  if isNothing value then .ok 0 else realOf value

/-- The integer in a field; nothing in it is zero. -/
def intIn (key : String) (fields : Fields Json) : Except Fault Int :=
  let value := fieldOf key fields
  if isNothing value then .ok 0 else intOf value

def parse (text : String) : Except Fault Json :=
  (Json.parse text).mapError .json

/-! ## Columns -/

/-- A text with blanks after it, up to a width. -/
def padRight (width : Nat) (text : String) : String :=
  text ++ String.ofList (List.replicate (width - text.length) ' ')

/-- A text with blanks before it, up to a width. -/
def padLeft (width : Nat) (text : String) : String :=
  String.ofList (Number.padStart width ' ' text.toList)

end McdocSchema.Round
