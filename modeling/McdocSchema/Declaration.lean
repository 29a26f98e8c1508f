import McdocSchema.TypeExpr

/-!
# Declarations and documents

A document is a list of declarations: names for types, structs and enumerations without a name, types
that are dispatched to by a key, imports, and fields put into a type that is declared elsewhere.
-/

namespace McdocSchema

/-- A name for a type. -/
structure Alias where
  pos : Position
  name : String
  parameters : List String
  target : TypeExpr
  doc : Option String := none
  deriving Inhabited

/-- A declaration of a document. -/
inductive Declaration
  | alias (decl : Alias)
  /-- A type without a name. Structs and enumerations get one in the schema. -/
  | anonymous (type : TypeExpr)
  | dispatch (pos : Position) (dispatcher : String) (indices : List String) (target : TypeExpr)
  | use (pos : Position) (path : String) (name : Option String)
  | injection (pos : Position) (path : String) (fields : List (Field TypeExpr))
  deriving Inhabited

/-- A document: its declarations in the order of the text. -/
structure Document where
  pos : Position := ⟨0, 0⟩
  declarations : List Declaration
  docs : List (String × String) := []
  deriving Inhabited

end McdocSchema
