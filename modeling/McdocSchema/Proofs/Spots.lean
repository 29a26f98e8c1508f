import McdocSchema.Proofs.DocumentAcceptance

/-!
# Where names and documentation stand

Aliases, the fields of structs and the variants of enumerations have labels: a name, and perhaps
documentation. A `Spot` is the place of such a label in a document, and `Spot.Opens` says with the rules of
the grammar which tokens stand in front of it. What comes behind these tokens does not matter for them
(`Spot.isAboutFront_opens`).
-/

namespace McdocSchema

/-- The name of an alias, a field or a variant and its documentation. -/
structure Label where
  name : String
  doc : Option String
  deriving DecidableEq, Repr

/-- The place of a label: that of an alias, or of a member of a struct or an enumeration without a name.
Declarations, fields and variants are counted from zero. -/
structure Spot where
  declaration : Nat
  member : Option Nat

/-- The label of a declaration or of one of its members. -/
def Declaration.label? : Option Nat → Declaration → Option Label
  | none, .alias decl => some ⟨decl.name, decl.doc⟩
  | some j, .anonymous (.struct _ fields _) => fields[j]?.map fun f => ⟨f.name, f.doc⟩
  | some j, .anonymous (.enum _ variants) => variants[j]?.map fun v => ⟨v.name, v.doc⟩
  | _, _ => none

/-- Gives a declaration or one of its members another label. -/
def Declaration.setLabel (label : Label) : Option Nat → Declaration → Declaration
  | none, .alias decl => .alias { decl with name := label.name, doc := label.doc }
  | some j, .anonymous (.struct pos fields spreads) =>
    .anonymous (.struct pos (fields.modify j fun f => { f with name := label.name, doc := label.doc })
      spreads)
  | some j, .anonymous (.enum pos variants) =>
    .anonymous (.enum pos (variants.modify j fun v => { v with name := label.name, doc := label.doc }))
  | _, decl => decl

def Document.label? (doc : Document) (spot : Spot) : Option Label :=
  doc.declarations[spot.declaration]?.bind (Declaration.label? spot.member)

/-- The document with another label at a spot. -/
def Document.setLabel (doc : Document) (spot : Spot) (label : Label) : Document :=
  { doc with
    declarations := doc.declarations.modify spot.declaration (Declaration.setLabel label spot.member) }

namespace Grammar

open Ebnf Parse TokenStream

/-! ## The way to a spot -/

/-- Items that follow each other, `n` of which are counted. -/
inductive Counted (other item : TokenStream → TokenStream → Prop) :
    Nat → TokenStream → TokenStream → Prop
  | nil (rest : TokenStream) : Counted other item 0 rest rest
  | skip {n : Nat} {ts mid rest : TokenStream} (h : other ts mid) (hs : Counted other item n mid rest) :
      Counted other item n ts rest
  | cons {n : Nat} {ts mid rest : TokenStream} (h : item ts mid) (hs : Counted other item n mid rest) :
      Counted other item (n + 1) ts rest

/-- The fields of another type, spread into a struct. -/
def spread : Ebnf Rule := kind .ellipsis ++ rule .type

/-- A field of a struct. -/
def field : Ebnf Rule := kind .identifier ++ opt (kind .question) ++ kind .colon ++ rule .type

/-- The documentation of a declaration. -/
def declarationDocs : Ebnf Rule := opt (oneOrMore (kind .docComment) ++ newlines)

/-- Line breaks and `i` declarations. -/
def Declares (i : Nat) (ts rest : TokenStream) : Prop :=
  ∃ mid, Spans rules newlines ts mid ∧
    Counted (fun _ _ => False) (Spans rules declarationLines) i mid rest

end Grammar

open Grammar Ebnf Parse TokenStream

/-- The tokens of `ts` in front of `rest` are those in front of the documentation and the label at the
spot. -/
inductive Spot.Opens : Spot → TokenStream → TokenStream → Prop
  | alias {i : Nat} {ts rest : TokenStream} (h : Declares i ts rest) : Opens ⟨i, none⟩ ts rest
  | field {i j : Nat} {ts mid last rest : TokenStream} (h : Declares i ts mid)
      (hopen : Spans rules (declarationDocs ++ kind .struct ++ kind .leftBrace ++ newlines) mid last)
      (hmembers : Counted (Spans rules (memberLines spread)) (Spans rules (memberLines field)) j last
        rest) :
      Opens ⟨i, some j⟩ ts rest
  | variant {i j : Nat} {ts mid last rest : TokenStream} (h : Declares i ts mid)
      (hopen : Spans rules (declarationDocs ++ kind .enum ++ kind .leftBrace ++ newlines) mid last)
      (hmembers : Counted (fun _ _ => False) (Spans rules (memberLines variant)) j last rest) :
      Opens ⟨i, some j⟩ ts rest

/-- The parser of the documentation at a spot. -/
def Spot.reader (spot : Spot) : Parse (Option String) :=
  match spot.member with
  | none => declarationDoc
  | some _ => memberDoc

/-- The stream begins with the name at a spot; in front of that of an alias stands its word. -/
def Spot.Names (spot : Spot) (name : String) (ts : TokenStream) : Prop :=
  match spot.member with
  | none => ∃ word t rest, ts = word :: t :: rest ∧ word.kind = .type ∧ t.kind = .identifier ∧
      t.value = name
  | some _ => ∃ t rest, ts = t :: rest ∧ t.kind = .identifier ∧ t.value = name

namespace Spot

variable {spot : Spot} {name : String} {ts : TokenStream}

/-- The kinds of tokens with which documentation or a label starts. -/
def starts (spot : Spot) (k : Token.Kind) : Prop :=
  k = .docComment ∨ k = if spot.member.isNone then .type else .identifier

/-- Where a name stands, its kind is told by the spot. -/
theorem Names.current (h : spot.Names name ts) : ts ≠ [] ∧
    ts.current.kind = (if spot.member.isNone then .type else .identifier) := by
  obtain ⟨i, member⟩ := spot
  cases member with
  | none =>
    obtain ⟨word, t, rest, rfl, hword, -, -⟩ := h
    exact ⟨List.cons_ne_nil _ _, hword⟩
  | some j =>
    obtain ⟨t, rest, rfl, ht, -⟩ := h
    exact ⟨List.cons_ne_nil _ _, ht⟩

theorem Names.kind (h : spot.Names name ts) :
    ts.current.kind = .identifier ∨ ts.current.kind = .type := by
  rw [h.current.2]
  split
  · exact .inr rfl
  · exact .inl rfl

/-! ## Other tokens behind a spot -/

/-- The relation is about the tokens in front only, whatever is left behind them. -/
def IsAboutFront (R : TokenStream → TokenStream → Prop) : Prop :=
  ∀ ts rest, R ts rest → ∃ front, ts = front ++ rest ∧ ∀ rest', R (front ++ rest') rest'

theorem isAboutFront_spans (e : Ebnf Rule) : IsAboutFront (Spans rules e) := by
  rintro ts rest ⟨w, rfl, hw⟩
  exact ⟨w, rfl, fun rest' => ⟨w, rfl, hw⟩⟩

theorem isAboutFront_counted {other item : TokenStream → TokenStream → Prop} (ho : IsAboutFront other)
    (hi : IsAboutFront item) (n : Nat) : IsAboutFront (Counted other item n) := by
  intro ts rest h
  induction h with
  | nil rest => exact ⟨[], rfl, fun rest' => .nil rest'⟩
  | skip h _ ih =>
    obtain ⟨front, rfl, hfront⟩ := ho _ _ h
    obtain ⟨back, rfl, hback⟩ := ih
    refine ⟨front ++ back, by rw [List.append_assoc], fun rest' => .skip ?_ (hback rest')⟩
    rw [List.append_assoc]
    exact hfront _
  | cons h _ ih =>
    obtain ⟨front, rfl, hfront⟩ := hi _ _ h
    obtain ⟨back, rfl, hback⟩ := ih
    refine ⟨front ++ back, by rw [List.append_assoc], fun rest' => .cons ?_ (hback rest')⟩
    rw [List.append_assoc]
    exact hfront _

theorem isAboutFront_declares (i : Nat) : IsAboutFront (Declares i) := by
  rintro ts rest ⟨mid, hlines, hdecls⟩
  obtain ⟨front, rfl, hfront⟩ := isAboutFront_spans _ _ _ hlines
  obtain ⟨back, rfl, hback⟩ :=
    isAboutFront_counted (by rintro _ _ ⟨⟩) (isAboutFront_spans _) i _ _ hdecls
  refine ⟨front ++ back, by rw [List.append_assoc], fun rest' => ⟨back ++ rest', ?_, hback rest'⟩⟩
  rw [List.append_assoc]
  exact hfront _

/-- The tokens in front of a spot are so whatever comes behind them. -/
theorem isAboutFront_opens (spot : Spot) : IsAboutFront spot.Opens := by
  intro ts rest h
  cases h with
  | «alias» h =>
    obtain ⟨front, rfl, hfront⟩ := isAboutFront_declares _ _ _ h
    exact ⟨front, rfl, fun rest' => .alias (hfront rest')⟩
  | field h hopen hmembers =>
    obtain ⟨front, rfl, hfront⟩ := isAboutFront_declares _ _ _ h
    obtain ⟨first, rfl, hfirst⟩ := isAboutFront_spans _ _ _ hopen
    obtain ⟨back, rfl, hback⟩ :=
      isAboutFront_counted (isAboutFront_spans _) (isAboutFront_spans _) _ _ _ hmembers
    refine ⟨front ++ (first ++ back), by simp, fun rest' => ?_⟩
    rw [List.append_assoc, List.append_assoc]
    exact .field (hfront _) (hfirst _) (hback rest')
  | variant h hopen hmembers =>
    obtain ⟨front, rfl, hfront⟩ := isAboutFront_declares _ _ _ h
    obtain ⟨first, rfl, hfirst⟩ := isAboutFront_spans _ _ _ hopen
    obtain ⟨back, rfl, hback⟩ :=
      isAboutFront_counted (by rintro _ _ ⟨⟩) (isAboutFront_spans _) _ _ _ hmembers
    refine ⟨front ++ (first ++ back), by simp, fun rest' => ?_⟩
    rw [List.append_assoc, List.append_assoc]
    exact .variant (hfront _) (hfirst _) (hback rest')

end Spot

end McdocSchema
