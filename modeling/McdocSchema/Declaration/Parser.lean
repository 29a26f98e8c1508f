import McdocSchema.Declaration
import McdocSchema.Scanner
import McdocSchema.TypeExpr.Parser

/-!
# Parsing declarations and documents

Structs and enumerations have bodies of members, each on as many lines as it likes and with a comma
behind it or not. One line of documentation may stand in front of a member; the lines in front of a
declaration are joined, and only an alias keeps them.
-/

namespace McdocSchema.Parse

/-! ## Bodies -/

/-- The documentation comment in front of a member. -/
def memberDoc : Parse (Option String) := do
  let t ← current
  if ← eat .docComment then
    skipNewlines
    pure (some t.value)
  else pure none

/-- A member between line breaks, with a comma behind it or not; none where the body ends. -/
def member {α : Type} (item : Option String → Parse α) : Parse (Option α) := do
  skipNewlines
  if ← sees .rightBrace then pure none
  else
    let doc ← memberDoc
    let a ← item doc
    discard (eat .comma)
    skipNewlines
    pure (some a)

/-- The members between two braces. -/
def body {α : Type} (rounds : Nat) (item : Option String → Parse α) : Parse (List α) := do
  discard (consume .leftBrace)
  let members ← repeatWhile rounds (· != .rightBrace) (member item)
  discard (consume .rightBrace)
  pure members.reduceOption

/-- A member of a struct: a field, or the fields of another type spread into it. -/
def structItem (inner : Parse TypeExpr) (doc : Option String) :
    Parse (Field TypeExpr ⊕ TypeExpr) := do
  if ← eat .ellipsis then .inr <$> inner
  else
    let name ← consume .identifier
    let optional ← eat .question
    discard (consume .colon)
    let type ← inner
    pure (.inl ⟨name.value, type, optional, doc⟩)

def structType (rounds : Nat) : Parse TypeExpr := do
  let t ← current
  discard (consume .struct)
  let members ← body rounds (structItem (typeExpr rounds))
  pure (.struct t.pos (members.filterMap Sum.getLeft?) (members.filterMap Sum.getRight?))

def variantValue : Parse (Option Int) := do
  if ← eat .equals then
    let t ← current
    if t.kind == .integer then
      match Number.readInteger t.value with
      | .ok n => do advance; pure (some n)
      | .error fault => throw (.number fault)
    else fail .variantValue
  else pure none

/-- A variant of an enumeration. -/
def variant (doc : Option String) : Parse Variant := do
  let name ← consume .identifier
  let value ← variantValue
  pure ⟨name.value, value, doc⟩

def enumType (rounds : Nat) : Parse TypeExpr := do
  let t ← current
  discard (consume .enum)
  let variants ← body rounds variant
  pure (.enum t.pos variants)

/-! ## Declarations -/

/-- Type parameters between angles, if there are any. -/
def typeParameters (rounds : Nat) : Parse (List String) := do
  if ← eat .leftAngle then
    let parameters ← repeatWhile rounds (· != .rightAngle) do
      let t ← consume .identifier
      separator .rightAngle .parameterEnd
      pure t.value
    discard (consume .rightAngle)
    pure parameters
  else pure []

/-- A name for a type. -/
def typeAlias (rounds : Nat) : Parse Alias := do
  let t ← current
  discard (consume .type)
  let name ← consume .identifier
  let parameters ← typeParameters rounds
  discard (consume .equals)
  let target ← typeExpr rounds
  pure ⟨t.pos, name.value, parameters, target, none⟩

/-- An import. Its path is read, and what may follow is not supported. -/
def useStatement (rounds : Nat) : Parse Declaration := do
  discard (consume .use)
  discard (path rounds)
  throw .importAlias

/-- The indices of a dispatch between brackets, if there are any. -/
def dispatchIndices (rounds : Nat) : Parse (List String) := do
  if ← eat .leftBracket then
    let indices ← repeatWhile rounds (· != .rightBracket) do
      let t ← consumeOr .identifier fun _ => .dispatchIndex
      separator .rightBracket .dispatchEnd
      pure t.value
    discard (consume .rightBracket)
    pure indices
  else pure []

/-- A type that is dispatched to. -/
def dispatchStatement (rounds : Nat) : Parse Declaration := do
  let t ← current
  discard (consume .dispatch)
  let dispatcher ← consume .identifier
  let indices ← dispatchIndices rounds
  discard (consume .to)
  let target ← typeExpr rounds
  pure (.dispatch t.pos dispatcher.value indices target)

/-! ## Documents -/

/-- The documentation in front of a declaration: its lines joined, and none if that is empty. -/
def declarationDoc : Parse (Option String) := do
  if ← sees .docComment then
    let lines ← docLines
    skipNewlines
    let doc := "\n".intercalate lines
    pure (if doc.isEmpty then none else some doc)
  else pure none

def declaration (rounds : Nat) (doc : Option String) : Parse Declaration := do
  let t ← current
  match t.kind with
  | .struct => .anonymous <$> structType rounds
  | .enum => .anonymous <$> enumType rounds
  | .type => do
    let decl ← typeAlias rounds
    pure (.alias { decl with doc := doc })
  | .use => useStatement rounds
  | .dispatch => dispatchStatement rounds
  | kind => fail (.unexpected kind)

/-- A declaration between line breaks; none where the text ends. -/
def declaration? (rounds : Nat) : Parse (Option Declaration) := do
  skipNewlines
  if ← sees .eof then pure none
  else
    let doc ← declarationDoc
    let decl ← declaration rounds doc
    skipNewlines
    pure (some decl)

/-- A document: declarations up to the end of the text. -/
def document (rounds : Nat) : Parse Document := do
  let declarations ← repeatWhile rounds (· != .eof) (declaration? rounds)
  pure { declarations := declarations.reduceOption }

end McdocSchema.Parse

namespace McdocSchema

/-- Why a text is no document. -/
inductive DocumentFault
  | scan (fault : ScanFault)
  | parse (fault : ParseFault)
  deriving DecidableEq, Repr

def DocumentFault.message : DocumentFault → String
  | .scan fault => fault.message
  | .parse fault => fault.message

/-- The document that a list of tokens makes. -/
def Document.ofTokens (ts : List Token) : Except ParseFault Document :=
  (Parse.bounded Parse.document ts).toExcept

/-- The document that a text makes. -/
def Document.ofString (text : String) : Except DocumentFault Document :=
  match Token.scan text with
  | .error fault => .error (.scan fault)
  | .ok ts =>
    match Document.ofTokens ts with
    | .error fault => .error (.parse fault)
    | .ok doc => .ok doc

end McdocSchema
