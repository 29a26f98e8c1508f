import McdocSchema.TokenStream
import McdocSchema.TypeExpr

/-!
# Parsing type expressions

A type is one or more alternatives between bars. An alternative starts with a token that tells its
form: a word, a literal, a bracket for a list, a parenthesis for a tuple or for grouping, or an
identifier for a reference. The parsers of the single forms are given the parser of the types inside
them; `typeExpr` ties the knot, and its argument bounds the nesting.
-/

namespace McdocSchema.Parse

open Number (Binary64)

/-! ## Ranges -/

/-- Reads the current token as a number and passes it. -/
def bound : Parse Binary64 := do
  let t ← current
  match Number.readReal t.value with
  | .ok x => do advance; pure x
  | .error fault => throw (.number fault)

/-- Reads a number if there is one. -/
def bound? : Parse (Option Binary64) := do
  let t ← current
  if t.kind.isNumber then some <$> bound else pure none

/-- A range: a lower bound, perhaps with a delimiter and an upper bound, or a delimiter that starts
with an angle and perhaps an upper bound, or nothing. -/
def numberRange : Parse NumberRange := do
  let t ← current
  if t.kind.isNumber then
    let min ← bound
    if ← eat .range then
      let max ← bound?
      pure ⟨some min, max, false, false⟩
    else if ← eat .rangeExclusive then
      let max ← bound?
      pure ⟨some min, max, false, true⟩
    else pure ⟨some min, none, false, false⟩
  else if ← eat .exclusiveRange then
    let max ← bound?
    pure ⟨none, max, true, false⟩
  else if ← eat .exclusiveRangeExclusive then
    let max ← bound?
    pure ⟨none, max, true, true⟩
  else pure {}

/-- A range behind an at sign, if there is one. -/
def range? : Parse (Option NumberRange) := do
  if ← eat .atSign then some <$> numberRange else pure none

/-! ## Paths and indices -/

/-- Names joined by double colons. -/
def path (rounds : Nat) : Parse String := do
  let first ← consume .identifier
  let others ← repeatWhile rounds (· == .doubleColon) do
    advance
    let t ← consume .identifier
    pure t.value
  pure ("::".intercalate (first.value :: others))

/-- An index between brackets. -/
def index : Parse Index := do
  advance
  let t ← current
  if t.kind == .identifier || t.kind.isSpecialKey then
    advance
    discard (consume .rightBracket)
    pure (.key t.value)
  else fail .index

/-- The indices behind a type. The result stands where its base does. -/
def indexedType (rounds : Nat) (base : TypeExpr) : Parse TypeExpr := do
  let indices ← repeatWhile rounds (· == .leftBracket) index
  match base.pos? with
  | some pos => pure (.indexed pos base indices)
  | none => throw (.noPosition base.sort)

/-! ## Forms with types inside -/

/-- A list type and the range of its size. -/
def listType (inner : Parse TypeExpr) : Parse TypeExpr := do
  let t ← current
  discard (consume .leftBracket)
  let element ← inner
  discard (consume .rightBracket)
  let size ← range?
  pure (.list t.pos element size)

/-- What follows a comma in a tuple: a type, or nothing in front of the closing parenthesis. -/
def tupleMember (inner : Parse TypeExpr) : Parse (Option TypeExpr) := do
  advance
  if ← sees .rightParen then pure none else some <$> inner

/-- A type between parentheses, or a tuple if there is a comma or nothing between them. A tuple
stands where its first member does, and the empty one where the next token does. -/
def parenthesizedType (rounds : Nat) (inner : Parse TypeExpr) : Parse TypeExpr := do
  discard (consume .leftParen)
  if ← eat .rightParen then
    let t ← current
    pure (.tuple t.pos [])
  else
    let first ← inner
    if ← sees .comma then
      let others ← repeatWhile rounds (· == .comma) (tupleMember inner)
      discard (consume .rightParen)
      pure (.tuple first.pos (first :: others.reduceOption))
    else
      discard (consume .rightParen)
      pure first

/-- Type arguments between angles, if there are any. -/
def typeArguments (rounds : Nat) (inner : Parse TypeExpr) : Parse (List TypeExpr) := do
  if ← eat .leftAngle then
    let arguments ← repeatWhile rounds (· != .rightAngle) do
      let t ← inner
      separator .rightAngle .argumentEnd
      pure t
    discard (consume .rightAngle)
    pure arguments
  else pure []

/-- A reference to a declared type, with its arguments and perhaps indices. -/
def referenceType (rounds : Nat) (inner : Parse TypeExpr) : Parse TypeExpr := do
  let t ← current
  let name ← path rounds
  let arguments ← typeArguments rounds inner
  let reference := TypeExpr.reference t.pos name arguments
  if ← sees .leftBracket then indexedType rounds reference else pure reference

/-- Passes the current token and gives a literal. -/
def literal (value : Literal) (pos : Position) : Parse TypeExpr := do
  advance
  pure (.literal pos value none)

/-- One alternative of a type. A brace opens no type: a struct needs its keyword. -/
def primaryType (rounds : Nat) (inner : Parse TypeExpr) : Parse TypeExpr := do
  let t ← current
  match t.kind with
  | .any => do advance; pure (.any t.pos)
  | .booleanType => do advance; pure (.boolean t.pos)
  | .stringType => do
    advance
    let length ← range?
    pure (.string t.pos length)
  | .byte | .short | .int | .long | .floatType | .double => do
    advance
    let range ← range?
    pure (.numeric t.pos t.value range)
  | .integer | .float | .string => literal (.text t.value) t.pos
  | .boolean => literal (.flag (t.value == "true")) t.pos
  | .leftBracket => listType inner
  | .leftParen => parenthesizedType rounds inner
  | .leftBrace => fail (.expected .struct .leftBrace)
  | .identifier => referenceType rounds inner
  | kind => fail (.unexpectedInType kind)

/-- Alternatives between bars. Several of them stand where the first one does. -/
def unionType (rounds : Nat) (inner : Parse TypeExpr) : Parse TypeExpr := do
  let first ← primaryType rounds inner
  if ← sees .pipe then
    let others ← repeatWhile rounds (· == .pipe) do
      advance
      primaryType rounds inner
    pure (.union first.pos (first :: others))
  else pure first

/-- A type, nested and repeated up to the given bound. -/
def typeExpr : Nat → Parse TypeExpr
  | 0 => throw .endless
  | rounds + 1 => unionType (rounds + 1) (typeExpr rounds)

/-- A bound on nesting and repetition that no stream exceeds unless it has no end. -/
def roundsFor (ts : TokenStream) : Nat :=
  ts.length + 1

/-- Runs a parser with the bound that suits the stream. -/
def bounded {α : Type} (p : Nat → Parse α) : Parse α := fun ts =>
  p (roundsFor ts) ts

end McdocSchema.Parse
