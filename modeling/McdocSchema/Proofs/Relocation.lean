import McdocSchema.Schema.Definitions

/-!
# Other positions

Tokens, faults and trees with every position replaced by another one. The parsers carry positions from
the tokens into the trees and never look at them; schemas have none (`toSchema_relocate`).
-/

namespace McdocSchema

/-! ## Positions that are some lines further down -/

namespace Position

/-- The position `k` lines further down. -/
def lower (k : Int) (p : Position) : Position := ⟨p.line + k, p.column⟩

theorem lower_step (k : Int) (p : Position) (c : Char) : (p.lower k).step c = (p.step c).lower k := by
  unfold step lower
  split
  · simp only [Int.add_right_comm]
  · rfl

theorem lower_advance (k : Int) (p : Position) (cs : List Char) :
    (p.lower k).advance cs = (p.advance cs).lower k := by
  induction cs generalizing p with
  | nil => rfl
  | cons c cs ih => rw [advance_cons, advance_cons, lower_step, ih]

theorem line_advance (p : Position) (cs : List Char) :
    (p.advance cs).line = p.line + cs.count '\n' := by
  induction cs generalizing p with
  | nil => simp
  | cons c cs ih =>
    rw [advance_cons, ih, step, List.count_cons]
    split
    · simp only [Int.natCast_add, Int.natCast_one]
      omega
    · simp

end Position

/-! ## Tokens and faults -/

section

variable (place : Position → Position)

/-- The token with its position replaced. -/
def Token.relocate (t : Token) : Token := { t with pos := place t.pos }

/-- The failure with its position replaced. -/
def ScanFault.relocate (fault : ScanFault) : ScanFault := { fault with pos := place fault.pos }

/-- The fault with the position of its token replaced. -/
def ParseFault.relocate : ParseFault → ParseFault
  | .misplaced cause token => .misplaced cause (token.relocate place)
  | fault => fault

/-- The fault with its position replaced. -/
def DocumentFault.relocate : DocumentFault → DocumentFault
  | .scan fault => .scan (fault.relocate place)
  | .parse fault => .parse (fault.relocate place)

/-! ## Types -/

namespace TypeExpr

mutual

/-- The type with all positions replaced. -/
def relocate : TypeExpr → TypeExpr
  | .any pos => .any (place pos)
  | .boolean pos => .boolean (place pos)
  | .string pos length => .string (place pos) length
  | .numeric pos name range => .numeric (place pos) name range
  | .literal pos value typeName => .literal (place pos) value typeName
  | .primitiveArray pos element values size => .primitiveArray (place pos) element values size
  | .list pos element size => .list (place pos) (relocate element) size
  | .tuple pos elements => .tuple (place pos) (relocateAll elements)
  | .union pos members => .union (place pos) (relocateAll members)
  | .reference pos path arguments => .reference (place pos) path (relocateAll arguments)
  | .indexed pos base indices => .indexed (place pos) (relocate base) indices
  | .struct pos fields spreads => .struct (place pos) (relocateFields fields) (relocateAll spreads)
  | .enum pos variants => .enum (place pos) variants
  | .absent => .absent
  | .foreign name pos => .foreign name (pos.map place)

/-- The types with all positions replaced. -/
def relocateAll : List TypeExpr → List TypeExpr
  | [] => []
  | t :: ts => relocate t :: relocateAll ts

/-- The fields with all positions replaced. -/
def relocateFields : List (Field TypeExpr) → List (Field TypeExpr)
  | [] => []
  | ⟨name, type, optional, doc⟩ :: fields =>
    ⟨name, relocate type, optional, doc⟩ :: relocateFields fields

end

end TypeExpr

/-! ## Declarations -/

/-- The field with all positions replaced. -/
def Field.relocate (f : Field TypeExpr) : Field TypeExpr :=
  { f with type := f.type.relocate place }

/-- The alias with all positions replaced. -/
def Alias.relocate (named : Alias) : Alias :=
  { named with pos := place named.pos, target := named.target.relocate place }

/-- The declaration with all positions replaced. -/
def Declaration.relocate : Declaration → Declaration
  | .alias named => .alias (named.relocate place)
  | .anonymous type => .anonymous (type.relocate place)
  | .dispatch pos dispatcher indices target =>
    .dispatch (place pos) dispatcher indices (target.relocate place)
  | .use pos path name => .use (place pos) path name
  | .injection pos path fields => .injection (place pos) path (fields.map (Field.relocate place))

/-- The document with all positions in its declarations replaced. -/
def Document.relocate (doc : Document) : Document :=
  { doc with declarations := doc.declarations.map (Declaration.relocate place) }

end

/-! ## Laws -/

namespace TypeExpr

variable (place : Position → Position)

theorem relocateAll_eq (ts : List TypeExpr) : relocateAll place ts = ts.map (relocate place) := by
  induction ts with
  | nil => rfl
  | cons t ts ih => rw [relocateAll, ih, List.map_cons]

theorem relocateFields_eq (fields : List (Field TypeExpr)) :
    relocateFields place fields = fields.map (Field.relocate place) := by
  induction fields with
  | nil => rfl
  | cons f fields ih => rw [relocateFields, ih, List.map_cons, Field.relocate]

theorem pos?_relocate (t : TypeExpr) : (t.relocate place).pos? = t.pos?.map place := by
  cases t <;> rfl

theorem pos_relocate {t : TypeExpr} (h : t.pos?.isSome = true) :
    (t.relocate place).pos = place t.pos := by
  rw [pos, pos, pos?_relocate]
  cases hp : t.pos? with
  | none =>
    rw [hp] at h
    cases h
  | some p => rfl

theorem sort_relocate (t : TypeExpr) : (t.relocate place).sort = t.sort := by
  cases t <;> rfl

theorem anonymousSort?_relocate (t : TypeExpr) :
    Generator.anonymousSort? (t.relocate place) = Generator.anonymousSort? t := by
  cases t <;> rfl

mutual

theorem relocate_id : (t : TypeExpr) → t.relocate id = t
  | .any _ | .boolean _ | .string .. | .numeric .. | .literal .. | .primitiveArray .. | .enum ..
  | .absent => rfl
  | .list _ element _ => by rw [relocate, relocate_id element, id_eq]
  | .tuple _ elements => by rw [relocate, relocateAll_id elements, id_eq]
  | .union _ members => by rw [relocate, relocateAll_id members, id_eq]
  | .reference _ _ arguments => by rw [relocate, relocateAll_id arguments, id_eq]
  | .indexed _ base _ => by rw [relocate, relocate_id base, id_eq]
  | .struct _ fields spreads => by
    rw [relocate, relocateFields_id fields, relocateAll_id spreads, id_eq]
  | .foreign _ _ => by rw [relocate, Option.map_id_fun, id_eq]

theorem relocateAll_id : (ts : List TypeExpr) → relocateAll id ts = ts
  | [] => rfl
  | t :: ts => by rw [relocateAll, relocate_id t, relocateAll_id ts]

theorem relocateFields_id : (fields : List (Field TypeExpr)) → relocateFields id fields = fields
  | [] => rfl
  | ⟨_, type, _, _⟩ :: fields => by rw [relocateFields, relocate_id type, relocateFields_id fields]

end

theorem requiredNames_relocate (fields : List (Field TypeExpr)) :
    Schema.requiredNames (relocateFields place fields) = Schema.requiredNames fields := by
  rw [relocateFields_eq, Schema.requiredNames, Schema.requiredNames, List.filter_map, List.map_map]
  rfl

mutual

/-- Positions have no part in schemas. -/
theorem toSchema_relocate : (t : TypeExpr) → (t.relocate place).toSchema = t.toSchema
  | .any _ | .boolean _ | .string .. | .numeric .. | .literal .. | .primitiveArray .. | .enum ..
  | .absent | .foreign .. | .reference .. => by
    simp only [relocate, toSchema]
  | .list _ element _ => by
    rw [relocate, toSchema, toSchema, toSchema_relocate element]
  | .tuple _ elements => by rw [relocate, toSchema, toSchema, toSchemas_relocateAll elements]
  | .union _ members => by rw [relocate, toSchema, toSchema, toSchemas_relocateAll members]
  | .indexed _ base _ => by rw [relocate, toSchema, toSchema, toSchema_relocate base]
  | .struct _ fields spreads => by
    rw [relocate, toSchema, toSchema, fieldSchemas_relocateFields fields,
      toSchemas_relocateAll spreads, requiredNames_relocate]
    cases spreads <;> rfl

theorem toSchemas_relocateAll :
    (ts : List TypeExpr) → toSchemas (relocateAll place ts) = toSchemas ts
  | [] => rfl
  | t :: ts => by
    rw [relocateAll, toSchemas, toSchemas, toSchema_relocate t, toSchemas_relocateAll ts]

theorem fieldSchemas_relocateFields :
    (fields : List (Field TypeExpr)) → fieldSchemas (relocateFields place fields) = fieldSchemas fields
  | [] => rfl
  | ⟨_, type, _, _⟩ :: fields => by
    rw [relocateFields, fieldSchemas, fieldSchemas, toSchema_relocate type,
      fieldSchemas_relocateFields fields]

end

end TypeExpr

theorem ParseFault.relocate_id (fault : ParseFault) : fault.relocate id = fault := by
  cases fault <;> rfl

theorem Declaration.relocate_id (decl : Declaration) : decl.relocate id = decl := by
  cases decl with
  | «alias» named =>
    show Declaration.alias { named with target := named.target.relocate id } = .alias named
    rw [TypeExpr.relocate_id]
  | anonymous type => exact congrArg anonymous type.relocate_id
  | dispatch pos dispatcher indices target =>
    exact congrArg (dispatch pos dispatcher indices) target.relocate_id
  | use pos path name => rfl
  | injection pos path fields =>
    show injection pos path (fields.map (Field.relocate id)) = injection pos path fields
    rw [← TypeExpr.relocateFields_eq, TypeExpr.relocateFields_id]

theorem Declaration.map_relocate_id (decls : List Declaration) : decls.map (relocate id) = decls := by
  rw [List.map_congr_left fun decl _ => decl.relocate_id, List.map_id']

end McdocSchema
