import McdocSchema.Proofs.Printer

/-!
# Positions

Two documents that differ in positions only are the same once all positions are set to the start of a
text. Positions have no part in what can be printed (`Document.isPrintable_unplaced`).
-/

namespace McdocSchema

/-! ## Types -/

namespace TypeExpr

mutual

/-- The type with all positions set to the start of a text. -/
def unplaced : TypeExpr → TypeExpr
  | .any _ => .any .start
  | .boolean _ => .boolean .start
  | .string _ length => .string .start length
  | .numeric _ name range => .numeric .start name range
  | .literal _ value typeName => .literal .start value typeName
  | .primitiveArray _ element values size => .primitiveArray .start element values size
  | .list _ element size => .list .start (unplaced element) size
  | .tuple _ elements => .tuple .start (unplacedAll elements)
  | .union _ members => .union .start (unplacedAll members)
  | .reference _ path arguments => .reference .start path (unplacedAll arguments)
  | .indexed _ base indices => .indexed .start (unplaced base) indices
  | .struct _ fields spreads => .struct .start (unplacedFields fields) (unplacedAll spreads)
  | .enum _ variants => .enum .start variants
  | .absent => .absent
  | .foreign name pos => .foreign name (pos.map fun _ => .start)

/-- The types with all positions set to the start of a text. -/
def unplacedAll : List TypeExpr → List TypeExpr
  | [] => []
  | t :: ts => unplaced t :: unplacedAll ts

/-- The fields with all positions set to the start of a text. -/
def unplacedFields : List (Field TypeExpr) → List (Field TypeExpr)
  | [] => []
  | ⟨name, type, optional, doc⟩ :: fields =>
    ⟨name, unplaced type, optional, doc⟩ :: unplacedFields fields

end

theorem unplacedAll_eq (ts : List TypeExpr) : unplacedAll ts = ts.map unplaced := by
  induction ts with
  | nil => rfl
  | cons t ts ih => rw [unplacedAll, ih, List.map_cons]

theorem isReference_unplaced (t : TypeExpr) : t.unplaced.isReference = t.isReference := by
  cases t <;> rfl

mutual

theorem isPrintable_unplaced : (t : TypeExpr) → (t.unplaced.IsPrintable ↔ t.IsPrintable)
  | .any _ | .boolean _ | .string .. | .numeric .. | .literal .. => Iff.rfl
  | .list _ element _ => and_congr_left' (isPrintable_unplaced element)
  | .tuple _ elements => arePrintable_unplacedAll elements
  | .union _ members => by
    have hlen : (unplacedAll members).length = members.length := by
      rw [unplacedAll_eq, List.length_map]
    rw [unplaced, IsPrintable, IsPrintable, hlen, arePrintable_unplacedAll members]
  | .reference _ _ arguments => and_congr_right' (arePrintable_unplacedAll arguments)
  | .indexed _ base _ => by
    rw [unplaced, IsPrintable, IsPrintable, isReference_unplaced, isPrintable_unplaced base]
  | .primitiveArray .. | .struct .. | .enum .. | .absent | .foreign .. => Iff.rfl

theorem arePrintable_unplacedAll :
    (ts : List TypeExpr) → (ArePrintable (unplacedAll ts) ↔ ArePrintable ts)
  | [] => Iff.rfl
  | t :: ts => and_congr (isPrintable_unplaced t) (arePrintable_unplacedAll ts)

end

end TypeExpr

/-! ## Declarations and documents -/

/-- The field with all positions set to the start of a text. -/
def Field.unplaced (f : Field TypeExpr) : Field TypeExpr :=
  { f with type := f.type.unplaced }

theorem TypeExpr.unplacedFields_eq (fields : List (Field TypeExpr)) :
    unplacedFields fields = fields.map Field.unplaced := by
  induction fields with
  | nil => rfl
  | cons f fields ih => rw [unplacedFields, ih, List.map_cons, Field.unplaced]

/-- The declaration with all positions set to the start of a text. -/
def Declaration.unplaced : Declaration → Declaration
  | .alias decl => .alias { decl with pos := .start, target := decl.target.unplaced }
  | .anonymous type => .anonymous type.unplaced
  | .dispatch _ dispatcher indices target => .dispatch .start dispatcher indices target.unplaced
  | .use _ path name => .use .start path name
  | .injection _ path fields => .injection .start path (fields.map Field.unplaced)

/-- The document with all positions set to the start of a text. -/
def Document.unplaced (doc : Document) : Document :=
  { doc with pos := .start, declarations := doc.declarations.map Declaration.unplaced }

theorem Field.isPrintable_unplaced {f : Field TypeExpr} :
    f.unplaced.IsPrintable ↔ f.IsPrintable := by
  constructor
  · intro h
    exact ⟨h.isName_name, f.type.isPrintable_unplaced.1 h.isPrintable_type, h.isLine_doc⟩
  · intro h
    exact ⟨h.isName_name, f.type.isPrintable_unplaced.2 h.isPrintable_type, h.isLine_doc⟩

theorem Declaration.isPrintable_unplaced {decl : Declaration} :
    decl.unplaced.IsPrintable ↔ decl.IsPrintable := by
  cases decl with
  | «alias» decl =>
    constructor
    · intro h
      exact ⟨h.isName_name, h.isName_parameters,
        decl.target.isPrintable_unplaced.1 h.isPrintable_target, h.isLine_doc⟩
    · intro h
      exact ⟨h.isName_name, h.isName_parameters,
        decl.target.isPrintable_unplaced.2 h.isPrintable_target, h.isLine_doc⟩
  | anonymous type =>
    cases type with
    | struct pos fields spreads =>
      rw [unplaced, TypeExpr.unplaced, IsPrintable, IsPrintable, TypeExpr.unplacedFields_eq,
        List.forall_mem_map, ← TypeExpr.arePrintable_iff, TypeExpr.arePrintable_unplacedAll,
        TypeExpr.arePrintable_iff]
      simp only [Field.isPrintable_unplaced]
    | _ => exact Iff.rfl
  | dispatch pos dispatcher indices target =>
    exact and_congr_right' (and_congr_right' target.isPrintable_unplaced)
  | _ => exact Iff.rfl

/-- Positions have no part in what can be printed. -/
theorem Document.isPrintable_unplaced {doc : Document} :
    doc.unplaced.IsPrintable ↔ doc.IsPrintable := by
  have hdeclarations : (∀ decl ∈ doc.unplaced.declarations, decl.IsPrintable) ↔
      ∀ decl ∈ doc.declarations, decl.IsPrintable := by
    rw [Document.unplaced, List.forall_mem_map]
    simp only [Declaration.isPrintable_unplaced]
  constructor
  · intro h
    exact ⟨hdeclarations.1 h.declarations, h.docs⟩
  · intro h
    exact ⟨hdeclarations.2 h.declarations, h.docs⟩

end McdocSchema
