import McdocSchema.Position

/-!
# Tokens

The words of the language: each token has a kind, a value and the position at which it starts. The
value is the text of the token, except that a string has its content, a documentation comment its
stripped text, a line break the two characters that stand for it, and the end of the text nothing.
-/

namespace McdocSchema

namespace Token

/-- The kinds of tokens. -/
inductive Kind
  | integer | float | string | boolean | resourceLocation | identifier
  | struct | enum | type | use | dispatch | super | any | booleanType | stringType
  | byte | short | int | long | floatType | double | trueWord | falseWord | to
  | fallbackKey | noneKey | unknownKey | keyKey | parentKey
  | leftBrace | rightBrace | leftBracket | rightBracket | leftParen | rightParen
  | leftAngle | rightAngle | colon | semicolon | comma | dot | question | pipe | ampersand
  | equals | hash | atSign | ellipsis | doubleColon
  | range | exclusiveRange | rangeExclusive | exclusiveRangeExclusive
  | eof | newline | comment | docComment | whitespace
  deriving DecidableEq, Repr, Inhabited

namespace Kind

/-- The name of a kind in messages. -/
def name : Kind → String
  | .integer => "INTEGER" | .float => "FLOAT" | .string => "STRING" | .boolean => "BOOLEAN"
  | .resourceLocation => "RESOURCE_LOCATION" | .identifier => "IDENTIFIER"
  | .struct => "STRUCT" | .enum => "ENUM" | .type => "TYPE" | .use => "USE"
  | .dispatch => "DISPATCH" | .super => "SUPER" | .any => "ANY"
  | .booleanType => "BOOLEAN_TYPE" | .stringType => "STRING_TYPE"
  | .byte => "BYTE" | .short => "SHORT" | .int => "INT" | .long => "LONG"
  | .floatType => "FLOAT_TYPE" | .double => "DOUBLE"
  | .trueWord => "TRUE" | .falseWord => "FALSE" | .to => "TO"
  | .fallbackKey => "FALLBACK" | .noneKey => "NONE" | .unknownKey => "UNKNOWN"
  | .keyKey => "KEY" | .parentKey => "PARENT"
  | .leftBrace => "LBRACE" | .rightBrace => "RBRACE"
  | .leftBracket => "LBRACKET" | .rightBracket => "RBRACKET"
  | .leftParen => "LPAREN" | .rightParen => "RPAREN"
  | .leftAngle => "LANGLE" | .rightAngle => "RANGLE"
  | .colon => "COLON" | .semicolon => "SEMICOLON" | .comma => "COMMA" | .dot => "DOT"
  | .question => "QUESTION" | .pipe => "PIPE" | .ampersand => "AMPERSAND"
  | .equals => "EQUALS" | .hash => "HASH" | .atSign => "AT"
  | .ellipsis => "ELLIPSIS" | .doubleColon => "DOUBLE_COLON"
  | .range => "RANGE" | .exclusiveRange => "EXCLUSIVE_RANGE"
  | .rangeExclusive => "RANGE_EXCLUSIVE"
  | .exclusiveRangeExclusive => "EXCLUSIVE_RANGE_EXCLUSIVE"
  | .eof => "EOF" | .newline => "NEWLINE" | .comment => "COMMENT"
  | .docComment => "DOC_COMMENT" | .whitespace => "WHITESPACE"

def all : List Kind :=
  [.integer, .float, .string, .boolean, .resourceLocation, .identifier,
  .struct, .enum, .type, .use, .dispatch, .super, .any, .booleanType, .stringType,
  .byte, .short, .int, .long, .floatType, .double, .trueWord, .falseWord, .to,
  .fallbackKey, .noneKey, .unknownKey, .keyKey, .parentKey,
  .leftBrace, .rightBrace, .leftBracket, .rightBracket, .leftParen, .rightParen,
  .leftAngle, .rightAngle, .colon, .semicolon, .comma, .dot, .question, .pipe, .ampersand,
  .equals, .hash, .atSign, .ellipsis, .doubleColon,
  .range, .exclusiveRange, .rangeExclusive, .exclusiveRangeExclusive,
  .eof, .newline, .comment, .docComment, .whitespace]

theorem mem_all (k : Kind) : k ∈ all := by
  cases k <;> decide

def ofName? (text : String) : Option Kind :=
  all.find? fun k => k.name == text

/-- The kinds of number tokens. -/
def isNumber : Kind → Bool
  | .integer | .float => true
  | _ => false

/-- The kinds of the words for numeric types. -/
def isNumericType : Kind → Bool
  | .byte | .short | .int | .long | .floatType | .double => true
  | _ => false

/-- The kinds of the keys written with a percent sign. -/
def isSpecialKey : Kind → Bool
  | .fallbackKey | .noneKey | .unknownKey | .keyKey | .parentKey => true
  | _ => false

end Kind

end Token

/-- A token: its kind, its value and the position of its first character. -/
structure Token where
  kind : Token.Kind
  value : String
  pos : Position
  deriving DecidableEq, Repr, Inhabited

namespace Token

/-- The end of a text, seen from `pos`. -/
def eofAt (pos : Position) : Token := ⟨.eof, "", pos⟩

/-- The token that stands where there are no tokens. -/
def absent : Token := eofAt ⟨0, 0⟩

end Token

end McdocSchema
