import McdocSchema.Number.Reading
import McdocSchema.Proofs.Ebnf

/-!
# The grammar of documents

The rules of the language, one expression each. Line breaks are tokens and may stand only where a rule names
them. Two rules look at more than the kinds of tokens: a bound of a range has to be the text of a real
number, and the value of a variant that of an integer.
-/

namespace McdocSchema.Grammar

open Ebnf

/-- The rules of the grammar. -/
inductive Rule
  | document | declaration | struct | enum | alias | dispatch | type | primary | range
  deriving DecidableEq, Repr

/-- A number that can be read as a bound. -/
def isBound (t : Token) : Bool :=
  t.kind.isNumber && (Number.readReal t.value).isOk

/-- A number that can be read as the value of a variant. -/
def isVariantValue (t : Token) : Bool :=
  t.kind == .integer && (Number.readInteger t.value).isOk

def isNumericWord (t : Token) : Bool := t.kind.isNumericType

/-- A literal: a number, a string or a truth value. -/
def isLiteral (t : Token) : Bool :=
  t.kind.isNumber || t.kind == .string || t.kind == .boolean

/-- A key that a type is indexed by. -/
def isIndexKey (t : Token) : Bool :=
  t.kind == .identifier || t.kind.isSpecialKey

/-- Line breaks. -/
def newlines : Ebnf Rule := many (kind .newline)

/-- The body of a struct or an enumeration with members of a form. -/
def body (item : Ebnf Rule) : Ebnf Rule :=
  kind .leftBrace ++ newlines
    ++ many (opt (kind .docComment ++ newlines) ++ item ++ opt (kind .comma) ++ newlines)
    ++ kind .rightBrace

/-- A member of a struct. -/
def structItem : Ebnf Rule :=
  kind .ellipsis ++ rule .type
    ||| kind .identifier ++ opt (kind .question) ++ kind .colon ++ rule .type

/-- A member of an enumeration. -/
def variant : Ebnf Rule :=
  kind .identifier ++ opt (kind .equals ++ token isVariantValue)

/-- What is written behind the at sign of a range. -/
def bounds : Ebnf Rule :=
  opt (token isBound ++ opt ((kind .range ||| kind .rangeExclusive) ++ opt (token isBound))
    ||| (kind .exclusiveRange ||| kind .exclusiveRangeExclusive) ++ opt (token isBound))

/-- A type between parentheses, or a tuple. -/
def parenthesized : Ebnf Rule :=
  kind .leftParen ++ kind .rightParen
    ||| kind .leftParen ++ rule .type ++ kind .rightParen
    ||| kind .leftParen ++ rule .type
      ++ (oneOrMore (kind .comma ++ rule .type) ++ opt (kind .comma) ||| kind .comma)
      ++ kind .rightParen

/-- Names joined by double colons. -/
def path : Ebnf Rule :=
  kind .identifier ++ many (kind .doubleColon ++ kind .identifier)

/-- A reference to a declared type. -/
def reference : Ebnf Rule :=
  path ++ opt (kind .leftAngle ++ commaList (rule .type) ++ kind .rightAngle)
    ++ many (kind .leftBracket ++ token isIndexKey ++ kind .rightBracket)

/-- The expression of each rule. -/
def rules : Rule → Ebnf Rule
  | .document =>
    newlines
      ++ many (opt (oneOrMore (kind .docComment) ++ newlines) ++ rule .declaration ++ newlines)
      ++ kind .eof
  | .declaration => rule .struct ||| rule .enum ||| rule .alias ||| rule .dispatch
  | .struct => kind .struct ++ body structItem
  | .enum => kind .enum ++ body variant
  | .alias =>
    kind .type ++ kind .identifier
      ++ opt (kind .leftAngle ++ commaList (kind .identifier) ++ kind .rightAngle)
      ++ kind .equals ++ rule .type
  | .dispatch =>
    kind .dispatch ++ kind .identifier
      ++ opt (kind .leftBracket ++ commaList (kind .identifier) ++ kind .rightBracket)
      ++ kind .to ++ rule .type
  | .type => rule .primary ++ many (kind .pipe ++ rule .primary)
  | .primary =>
    kind .any ||| kind .booleanType
      ||| kind .stringType ++ opt (rule .range)
      ||| token isNumericWord ++ opt (rule .range)
      ||| token isLiteral
      ||| kind .leftBracket ++ rule .type ++ kind .rightBracket ++ opt (rule .range)
      ||| parenthesized
      ||| reference
  | .range => kind .atSign ++ bounds

/-- A list of tokens that makes a document. -/
def IsDocument (ts : List Token) : Prop :=
  Derives rules (.rule .document) ts

end McdocSchema.Grammar
