import McdocSchema.Declaration.Parser
import McdocSchema.Schema.Conversion

/-!
# The schema of a document

The definitions of a document: every alias under its name, every struct and enumeration without a
name under one made from its number. Numbers are given in the order of the declarations and are never
used twice, not even by different documents of one generator or after a failure. A name that is
declared again keeps its place among the definitions and takes the later type.
-/

namespace McdocSchema

/-- What is kept from one document to the next: the aliases met so far, and how many declarations
have been numbered. -/
structure Generator where
  aliases : Fields Alias := []
  numbered : Nat := 0
  deriving Inhabited

namespace Generator

/-- The name of a declaration without one: the sort of type it declares and its number. -/
def anonymousName (sort : String) (number : Nat) : String :=
  sort ++ "_#" ++ toString number

/-- The sort of type that a declaration without a name declares, if it becomes a definition. -/
def anonymousSort? : TypeExpr → Option String
  | .struct .. => some "Struct"
  | .enum .. => some "Enum"
  | _ => none

/-- The definition that a declaration makes, if it makes one, as a name and a type, and the
generator after it. -/
def define (g : Generator) : Declaration → Option (String × TypeExpr) × Generator
  | .alias decl => (some (decl.name, decl.target), { g with aliases := g.aliases.set decl.name decl })
  | .anonymous type =>
    match anonymousSort? type with
    | some sort =>
      let number := g.numbered + 1
      (some (anonymousName sort number, type), { g with numbered := number })
    | none => (none, g)
  | .dispatch .. | .use .. | .injection .. => (none, g)

/-- Adds the definitions of declarations to those found. It stops at the first type that has no
schema, and that declaration counts as met. -/
def definitions (g : Generator) (found : Fields Json) :
    List Declaration → Except LengthFault (Fields Json) × Generator
  | [] => (.ok found, g)
  | decl :: decls =>
    match g.define decl with
    | (none, g) => definitions g found decls
    | (some (name, type), g) =>
      match type.toSchema with
      | .ok schema => definitions g (found.set name schema) decls
      | .error fault => (.error fault, g)

/-- The version of JSON Schema. -/
def dialect : String := "https://json-schema.org/draft/2020-12/schema"

/-- A schema with the given definitions. -/
def rootSchema (found : Fields Json) : Json :=
  .object [("$schema", .string dialect), ("type", .string "object"),
    ("definitions", .object found)]

/-- The schema of a document, and the generator after it. -/
def generate (g : Generator) (doc : Document) : Except LengthFault Json × Generator :=
  match g.definitions [] doc.declarations with
  | (.ok found, g) => (.ok (rootSchema found), g)
  | (.error fault, g) => (.error fault, g)

end Generator

/-- Why a text has no schema. -/
inductive CompileFault
  | document (fault : DocumentFault)
  | length (fault : LengthFault)
  deriving DecidableEq, Repr

def CompileFault.message : CompileFault → String
  | .document fault => fault.message
  | .length fault => fault.message

/-- The schema of a text, and the generator after it. -/
def Generator.compile (g : Generator) (text : String) : Except CompileFault Json × Generator :=
  match Document.ofString text with
  | .error fault => (.error (.document fault), g)
  | .ok doc =>
    match g.generate doc with
    | (.ok schema, g) => (.ok schema, g)
    | (.error fault, g) => (.error (.length fault), g)

end McdocSchema
