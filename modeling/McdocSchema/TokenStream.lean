import McdocSchema.Number.Reading
import McdocSchema.Token

/-!
# Reading from a stream of tokens

A stream is the list of tokens from the current one on. It never runs dry: the last token stays the
current one however often it is passed, and a stream without tokens shows `Token.absent`. A parser
takes a stream and gives a value or a fault, together with the stream it leaves; also a fault tells
how far the parser came.

Repetition is bounded by a number of rounds. A stream that ends with the token `eof` gives every
parser an end within as many rounds as it has tokens; a stream that ends otherwise may make a
construct repeat its last token for ever, and such a construct is answered by the fault `endless`.
-/

namespace McdocSchema

/-- What a parser finds wrong with the current token. -/
inductive ParseCause
  | expected (wanted found : Token.Kind)
  | unexpected (found : Token.Kind)
  | unexpectedInType (found : Token.Kind)
  /-- The value of a variant is no integer token. -/
  | variantValue
  /-- Neither a comma nor the end follows a type parameter. -/
  | parameterEnd
  /-- Neither a comma nor the end follows a type argument. -/
  | argumentEnd
  /-- An index of a dispatch is no identifier. -/
  | dispatchIndex
  /-- Neither a comma nor the end follows an index of a dispatch. -/
  | dispatchEnd
  /-- An index of a type is neither an identifier nor a special key. -/
  | index
  /-- A message given by the caller. -/
  | reported (message : String)
  deriving DecidableEq, Repr

namespace ParseCause

/-- How messages name a kind of token. -/
def kindText (k : Token.Kind) : String := "TokenType." ++ k.name

def message : ParseCause → String
  | .expected wanted found => "Expected " ++ kindText wanted ++ ", got " ++ kindText found
  | .unexpected found => "Unexpected token: " ++ kindText found
  | .unexpectedInType found => "Unexpected token in type: " ++ kindText found
  | .variantValue => "Expected integer value for enum variant"
  | .parameterEnd => "Expected ',' or '>' in type parameters"
  | .argumentEnd => "Expected ',' or '>' in type arguments"
  | .dispatchIndex => "Expected identifier in dispatch indices"
  | .dispatchEnd => "Expected ',' or ']' in dispatch indices"
  | .index => "Expected index"
  | .reported message => message

end ParseCause

/-- Why a parser gives no value. -/
inductive ParseFault
  /-- The current token does not fit. -/
  | misplaced (cause : ParseCause) (token : Token)
  /-- A number token cannot be read. -/
  | number (fault : Number.ReadFault)
  /-- An import, whose alias is not supported. -/
  | importAlias
  /-- An indexed type whose base, a node of the given sort, has no position. -/
  | noPosition (sort : String)
  /-- A construct that the tokens never end. -/
  | endless
  deriving DecidableEq, Repr

def ParseFault.message : ParseFault → String
  | .misplaced cause token => token.pos.describe cause.message
  | .number fault => fault.message
  | .importAlias => "AS"
  | .noPosition sort => "'" ++ sort ++ "' object has no attribute 'line'"
  | .endless => "endless construct"

/-- The tokens from the current one on. -/
abbrev TokenStream := List Token

namespace TokenStream

def current : TokenStream → Token
  | [] => .absent
  | t :: _ => t

/-- The stream behind the current token, which stays if it is the last one. -/
def behind : TokenStream → TokenStream
  | _ :: t :: ts => t :: ts
  | ts => ts

/-- The token of a list at a distance from the first one of a stream at its end. Behind the end of the
list there is `Token.absent`, and before its start the tokens are counted from its end, as far as
there are any. -/
def peek? (all : List Token) (ts : TokenStream) (distance : Int) : Option Token :=
  let n : Int := all.length
  let i := n - ts.length + distance
  if n ≤ i then some .absent
  else if 0 ≤ i then all[i.toNat]?
  else if 0 ≤ n + i then all[(n + i).toNat]?
  else none

end TokenStream

/-- The outcome of a parser: a value or a fault, and the stream it leaves. -/
inductive Outcome (α : Type)
  | done (value : α) (rest : TokenStream)
  | failed (fault : ParseFault) (rest : TokenStream)

namespace Outcome

/-- The stream that a parser leaves. -/
def rest {α : Type} : Outcome α → TokenStream
  | .done _ rest => rest
  | .failed _ rest => rest

def toExcept {α : Type} : Outcome α → Except ParseFault α
  | .done value _ => .ok value
  | .failed fault _ => .error fault

end Outcome

def Parse (α : Type) : Type := TokenStream → Outcome α

namespace Parse

variable {α β : Type}

/-- Gives a value and takes nothing. -/
protected def pure (a : α) : Parse α := fun ts => .done a ts

/-- Runs a parser and then the one that its value leads to. -/
protected def bind (p : Parse α) (f : α → Parse β) : Parse β := fun ts =>
  match p ts with
  | .done a rest => f a rest
  | .failed fault rest => .failed fault rest

instance : Monad Parse where
  pure := Parse.pure
  bind := Parse.bind

@[simp] theorem pure_apply (a : α) (ts : TokenStream) : (pure a : Parse α) ts = .done a ts := rfl

theorem bind_apply (p : Parse α) (f : α → Parse β) (ts : TokenStream) :
    (p >>= f) ts = match p ts with
      | .done a rest => f a rest
      | .failed fault rest => .failed fault rest := rfl

/-! ## Single tokens -/

def current : Parse Token := fun ts => .done ts.current ts

/-- Passes the current token. -/
def advance : Parse Unit := fun ts => .done () ts.behind

def throw (fault : ParseFault) : Parse α := fun ts => .failed fault ts

/-- Fails at the current token. -/
def fail (cause : ParseCause) : Parse α := fun ts => .failed (.misplaced cause ts.current) ts

def sees (k : Token.Kind) : Parse Bool := fun ts => .done (ts.current.kind == k) ts

/-- Passes the current token if it is of a kind, and tells whether it was. -/
def eat (k : Token.Kind) : Parse Bool := fun ts =>
  if ts.current.kind == k then .done true ts.behind else .done false ts

/-- Passes the current token, which has to be of a kind; `cause` is what is wrong if it is not. -/
def consumeOr (k : Token.Kind) (cause : Token.Kind → ParseCause) : Parse Token := fun ts =>
  if ts.current.kind == k then .done ts.current ts.behind
  else .failed (.misplaced (cause ts.current.kind) ts.current) ts

/-- Passes the current token, which has to be of a kind. -/
def consume (k : Token.Kind) : Parse Token :=
  consumeOr k (.expected k)

/-! ## Repetition -/

/-- Passes line breaks. A line break that is the last token is passed for ever. -/
def skipNewlines : Parse Unit
  | t :: u :: ts => if t.kind == .newline then skipNewlines (u :: ts) else .done () (t :: u :: ts)
  | ts => if ts.current.kind == .newline then .failed .endless ts else .done () ts

/-- Passes documentation comments and gives their texts. -/
def docLines : Parse (List String)
  | t :: u :: ts =>
    if t.kind == .docComment then
      match docLines (u :: ts) with
      | .done lines rest => .done (t.value :: lines) rest
      | .failed fault rest => .failed fault rest
    else .done [] (t :: u :: ts)
  | ts => if ts.current.kind == .docComment then .failed .endless ts else .done [] ts

/-- Repeats `step` while the kind of the current token has the property `goesOn`, at most `rounds`
times; the values already found are in `found`, the latest first. -/
def repeatFrom (goesOn : Token.Kind → Bool) (step : Parse α) (found : List α) :
    Nat → Parse (List α)
  | 0 => fun ts => if goesOn ts.current.kind then .failed .endless ts else .done found.reverse ts
  | rounds + 1 => fun ts =>
    if goesOn ts.current.kind then
      match step ts with
      | .done a rest => repeatFrom goesOn step (a :: found) rounds rest
      | .failed fault rest => .failed fault rest
    else .done found.reverse ts

/-- Repeats `step` while the kind of the current token has the property `goesOn`, at most `rounds`
times. -/
def repeatWhile (rounds : Nat) (goesOn : Token.Kind → Bool) (step : Parse α) : Parse (List α) :=
  repeatFrom goesOn step [] rounds

/-- Passes the comma behind an item of a list, unless `close` ends the list. -/
def separator (close : Token.Kind) (cause : ParseCause) : Parse Unit := do
  if ← eat .comma then pure ()
  else if ← sees close then pure ()
  else fail cause

end Parse

end McdocSchema
