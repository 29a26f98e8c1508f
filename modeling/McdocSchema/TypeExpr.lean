import McdocSchema.Number.Binary64
import McdocSchema.Position

/-!
# Type expressions

The types that a document speaks of. Every node knows the position at which it was written. A tree
need not come from a text: a place for a type may also be empty (`absent`) or hold a node that is no
type (`foreign`), and neither says anything about the values it stands for.
-/

namespace McdocSchema

open Number (Binary64)

/-- Bounds on a number, on a length or on a size. A missing bound does not bound. -/
structure NumberRange where
  min : Option Binary64 := none
  max : Option Binary64 := none
  minExclusive : Bool := false
  maxExclusive : Bool := false
  deriving DecidableEq, Repr, Inhabited

/-- The one value of a literal type. A number is kept as it was written. -/
inductive Literal
  | text (value : String)
  | flag (value : Bool)
  | null
  deriving DecidableEq, Repr, Inhabited

/-- How a type is looked up in an indexed one. -/
inductive Index
  | key (name : String)
  | path (names : List String)
  deriving DecidableEq, Repr

/-- A named value of an enumeration. -/
structure Variant where
  name : String
  value : Option Int := none
  doc : Option String := none
  deriving DecidableEq, Repr

/-- A named field of a struct, with a type from `α`. -/
structure Field (α : Type) where
  name : String
  type : α
  optional : Bool := false
  doc : Option String := none
  deriving Repr

/-- A type as it is written in a document. -/
inductive TypeExpr
  | any (pos : Position)
  | boolean (pos : Position)
  | string (pos : Position) (length : Option NumberRange)
  | numeric (pos : Position) (name : String) (range : Option NumberRange)
  | literal (pos : Position) (value : Literal) (typeName : Option String)
  | primitiveArray (pos : Position) (element : String) (values size : Option NumberRange)
  | list (pos : Position) (element : TypeExpr) (size : Option NumberRange)
  | tuple (pos : Position) (elements : List TypeExpr)
  | union (pos : Position) (members : List TypeExpr)
  | reference (pos : Position) (path : String) (arguments : List TypeExpr)
  | indexed (pos : Position) (base : TypeExpr) (indices : List Index)
  | struct (pos : Position) (fields : List (Field TypeExpr)) (spreads : List TypeExpr)
  | enum (pos : Position) (variants : List Variant)
  | absent
  | foreign (name : String) (pos : Option Position)
  deriving Inhabited

namespace TypeExpr

/-- The position of a node that has one. -/
def pos? : TypeExpr → Option Position
  | .any pos | .boolean pos | .string pos _ | .numeric pos _ _ | .literal pos _ _
  | .primitiveArray pos _ _ _ | .list pos _ _ | .tuple pos _ | .union pos _
  | .reference pos _ _ | .indexed pos _ _ | .struct pos _ _ | .enum pos _ => some pos
  | .absent => none
  | .foreign _ pos => pos

/-- The position of a node, and the start of a text for one that has none. -/
def pos (t : TypeExpr) : Position :=
  t.pos?.getD .start

/-- The name of the sort of node, where it has no position. -/
def sort : TypeExpr → String
  | .foreign name _ => name
  | _ => "NoneType"

end TypeExpr

end McdocSchema
