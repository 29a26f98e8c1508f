import McdocSchema.Proofs.Meaning
import McdocSchema.Proofs.RangeText
import McdocSchema.Proofs.RepresentableIntegers
import McdocSchema.Proofs.RoundTrip
import McdocSchema.Schema.Definitions

/-!
# Integers as bounds

A document with a single alias, for a type that has a range behind it, is compiled to the schema of the
type with the range that its text is read as (`Generator.compile_aliasText`). A bound is kept as a
floating-point number between the text and the schema. So the schema says what was written just if both
bounds are integers that such a number can hold (`Generator.compile_exact_iff`).
-/

namespace McdocSchema

open Number (Binary64 Numeral IntegerNumeral)
open Lexeme (Reads)

/-! ## Types with a range -/

/-- The integer types. -/
inductive IntegerType
  | byte
  | short
  | int
  | long
  deriving DecidableEq, Repr

def IntegerType.name : IntegerType → String
  | byte => "byte"
  | short => "short"
  | int => "int"
  | long => "long"

/-- The kind of the name's token. -/
def IntegerType.kind : IntegerType → Token.Kind
  | byte => .byte
  | short => .short
  | int => .int
  | long => .long

/-- The types that a range is put behind. -/
inductive BoundedType
  | integer (type : IntegerType)
  | string
  | list
  deriving DecidableEq, Repr

namespace BoundedType

def text : BoundedType → String
  | integer type => type.name
  | string => "string"
  | list => "[any]"

/-- The forms of its tokens. -/
def forms : BoundedType → List Form
  | integer type => [⟨type.kind, type.name⟩]
  | string => [⟨.stringType, "string"⟩]
  | list => [⟨.leftBracket, "["⟩, ⟨.any, "any"⟩, ⟨.rightBracket, "]"⟩]

/-- The type with a range, and with a position for the type of the items. -/
def typeExpr (pos inner : Position) (range : NumberRange) : BoundedType → TypeExpr
  | integer type => .numeric pos type.name (some range)
  | string => .string pos (some range)
  | list => .list pos (.any inner) (some range)

def schema (range : NumberRange) : BoundedType → Except LengthFault Json
  | integer _ => .ok (.object (("type", .string "integer") :: Schema.numberFields (some range)))
  | string =>
    (Schema.lengthFields "minLength" "maxLength" (some range)).map fun bounds =>
      .object (("type", .string "string") :: bounds)
  | list =>
    (Schema.lengthFields "minItems" "maxItems" (some range)).map fun bounds =>
      .object (("type", .string "array") :: ("items", .object []) :: bounds)

theorem toSchema_typeExpr (t : BoundedType) (pos inner : Position) (range : NumberRange) :
    (t.typeExpr pos inner range).toSchema = t.schema range := by
  cases t with
  | integer type =>
    have hname : Schema.isFractional type.name = false := by cases type <;> decide
    rw [typeExpr, TypeExpr.toSchema, hname]
    rfl
  | string => rfl
  | list => rfl

def aliasText (t : BoundedType) (range : RangeText) : String :=
  "type X = " ++ t.text ++ " @ " ++ String.ofList range.chars

def aliasForms (t : BoundedType) (range : RangeText) : List Form :=
  ⟨.type, "type"⟩ :: ⟨.identifier, "X"⟩ :: ⟨.equals, "="⟩ :: (t.forms ++ ⟨.atSign, "@"⟩ :: range.forms)

/-! ## Reading the alias -/

theorem next_space {rest : List Char} (h : Text.Stops Text.isInlineBlank rest) :
    Lexeme.next (' ' :: rest) = ⟨.gap, [' '], rest⟩ := by
  have htake : rest.takeWhile Text.isInlineBlank = [] :=
    @Text.takeWhile_append_of_stops _ [] rest (by simp) h
  have hdrop : rest.dropWhile Text.isInlineBlank = rest :=
    @Text.dropWhile_append_of_stops _ [] rest (by simp) h
  rw [Lexeme.next, if_neg (by decide), if_neg (by decide), if_pos (by decide), htake, hdrop]

theorem stops_isInlineBlank_numeral (a : Numeral) (rest : List Char) :
    Text.Stops Text.isInlineBlank (a.chars ++ rest) := by
  obtain ⟨c, cs, hcs, hc⟩ := a.exists_chars_eq
  rw [hcs]
  refine Text.stops_cons.2 ?_
  rcases hc with hc | hc
  · rw [Lexeme.isSign, Bool.or_eq_true, beq_iff_eq, beq_iff_eq] at hc
    rcases hc with rfl | rfl <;> decide
  · rw [Text.isInlineBlank, Text.isBlank_of_isDigit hc, Bool.false_and]

theorem stops_isInlineBlank_range (range : RangeText) : Text.Stops Text.isInlineBlank range.chars := by
  cases range with
  | exactly a =>
    have h := stops_isInlineBlank_numeral a []
    rwa [List.append_nil] at h
  | between a d b => exact stops_isInlineBlank_numeral a _
  | atLeast a d => exact stops_isInlineBlank_numeral a _
  | atMost d b => rcases d with ⟨_ | _, _ | _⟩ <;> exact Text.stops_cons.2 (by decide)

theorem reads_type (t : BoundedType) {rest : List Char} {fs : List Form}
    (h : Reads (' ' :: rest) fs) : Reads (t.text.toList ++ ' ' :: rest) (t.forms ++ fs) := by
  cases t with
  | integer type => cases type <;> exact .token rfl h
  | string => exact .token rfl h
  | list => exact .token rfl (.token rfl (.token rfl h))

/-- What stands in front of the type of an alias. -/
theorem reads_alias {text : String} {fs : List Form} (hstops : Text.Stops Text.isInlineBlank text.toList)
    (h : Reads text.toList fs) :
    Reads ("type X = " ++ text).toList
      (⟨.type, "type"⟩ :: ⟨.identifier, "X"⟩ :: ⟨.equals, "="⟩ :: fs) := by
  have hchars : ("type X = " ++ text).toList =
      't' :: 'y' :: 'p' :: 'e' :: ' ' :: 'X' :: ' ' :: '=' :: ' ' :: text.toList := by
    simp
  rw [hchars]
  refine .token rfl (.gap (next_space (Text.stops_cons.2 (by decide))) ?_)
  refine .token rfl (.gap (next_space (Text.stops_cons.2 (by decide))) ?_)
  exact .token rfl (.gap (next_space hstops) h)

theorem reads_aliasText (t : BoundedType) (range : RangeText) :
    Reads (t.aliasText range).toList (t.aliasForms range) := by
  have htext : t.aliasText range = "type X = " ++ (t.text ++ " @ " ++ String.ofList range.chars) := by
    simp [aliasText, String.append_assoc]
  have hchars : (t.text ++ " @ " ++ String.ofList range.chars).toList =
      t.text.toList ++ ' ' :: '@' :: ' ' :: range.chars := by
    simp
  have hrange : Reads (' ' :: '@' :: ' ' :: range.chars) (⟨.atSign, "@"⟩ :: range.forms) := by
    refine .gap (next_space (Text.stops_cons.2 (by decide))) ?_
    refine .token rfl ?_
    exact .gap (next_space (stops_isInlineBlank_range range)) range.reads_chars
  have htype := t.reads_type hrange
  have hstops : Text.Stops Text.isInlineBlank (t.text.toList ++ ' ' :: '@' :: ' ' :: range.chars) := by
    rcases t with type | _ | _
    · cases type <;> exact Text.stops_cons.2 (by decide)
    · exact Text.stops_cons.2 (by decide)
    · exact Text.stops_cons.2 (by decide)
  rw [← hchars] at htype hstops
  rw [htext]
  exact reads_alias hstops htype

end BoundedType

/-! ## Parsing the alias -/

namespace Parse

open TokenStream
open Grammar (isNumericWord primaryType_numeric)

variable {t : BoundedType} {ts mid rest : TokenStream}

theorem typeExpr_of_front {r : NumberRange} {n : Nat} (h : Front t.forms ts mid) (hm : mid ≠ [])
    (hrange : range? mid = .done (some r) rest) (hrest : rest.current.kind ≠ .pipe) :
    ∃ pos inner, typeExpr (n + 2) ts = .done (t.typeExpr pos inner r) rest := by
  rw [typeExpr]
  cases t with
  | integer type =>
    obtain ⟨u, rfl, hu⟩ := front_singleton_iff.1 h
    have hword : isNumericWord u = true := by
      rw [isNumericWord, kind_of_form hu]
      cases type <;> decide
    refine ⟨u.pos, .start, unionType_single ?_ hrest⟩
    rw [primaryType_numeric hword hm hrange, value_of_form hu]
    rfl
  | string =>
    obtain ⟨u, rfl, hu⟩ := front_singleton_iff.1 h
    exact ⟨u.pos, .start, unionType_single (primaryType_string (kind_of_form hu) hm hrange) hrest⟩
  | list =>
    obtain ⟨u, _, rfl, hu, h⟩ := front_cons_iff.1 h
    obtain ⟨v, _, rfl, hv, h⟩ := front_cons_iff.1 h
    obtain ⟨w, rfl, hw⟩ := front_singleton_iff.1 h
    have hu : u.kind = .leftBracket := kind_of_form hu
    have hw : w.kind = .rightBracket := kind_of_form hw
    have hany : typeExpr (n + 1) (v :: w :: mid) = .done (.any v.pos) (w :: mid) := by
      rw [typeExpr]
      exact unionType_single (primaryType_any (kind_of_form hv) (by simp))
        (by rw [current_cons, hw]; decide)
    refine ⟨u.pos, v.pos, unionType_single ?_ hrest⟩
    rw [primaryType_leftBracket (by rw [current_cons, hu])]
    exact listType_cons hu (by simp) hany hw hm hrange

/-- A declaration that takes all tokens but the end of the text makes a document of its own. -/
theorem ofTokens_declaration {u last : Token} {decl : Declaration}
    (hu : u.kind = .type ∨ u.kind = .enum) (hlast : last.kind = .eof)
    (h : declaration (roundsFor (u :: ts)) none (u :: ts) = .done decl [last]) :
    Document.ofTokens (u :: ts) = .ok { declarations := [decl] } := by
  have hcurrent : TokenStream.current [last] = last := rfl
  have hfirst : u.kind ≠ .newline ∧ u.kind ≠ .eof ∧ u.kind ≠ .docComment := by
    rcases hu with hu | hu <;> rw [hu] <;> decide
  have hdeclaration : declaration? (roundsFor (u :: ts)) (u :: ts) = .done (some decl) [last] :=
    declaration?_some (skipNewlines_of_ne hfirst.1) hfirst.2.1 (declarationDoc_of_ne hfirst.2.2) h
      (skipNewlines_of_ne (by rw [hcurrent, hlast]; decide))
  have hchain : Chain (· != .eof) (declaration? (roundsFor (u :: ts))) (u :: ts) [some decl] [last] :=
    .cons (by simpa using hfirst.2.1) hdeclaration (.nil (by rw [hcurrent, hlast]; decide))
  rw [Document.ofTokens, bounded, document_of_chain hchain (by simp [roundsFor])]
  rfl

/-- An alias whose type takes all tokens but the end of the text makes a document of its own. -/
theorem ofTokens_typeAlias {a x e last : Token} {body : TokenStream} {target : TypeExpr}
    (ha : a.kind = .type) (hx : x.kind = .identifier) (he : e.kind = .equals) (hbody : body ≠ [])
    (hlast : last.kind = .eof) (h : typeExpr (body.length + 4) body = .done target [last]) :
    Document.ofTokens (a :: x :: e :: body) =
      .ok { declarations := [.alias ⟨a.pos, x.value, [], target, none⟩] } := by
  have hparameters : typeParameters (body.length + 4) (e :: body) = .done [] (e :: body) := by
    rw [typeParameters_eq_bracketed]
    exact bracketed_of_ne (by rw [current_cons, he]; decide)
  have halias : typeAlias (body.length + 4) (a :: x :: e :: body) =
      .done ⟨a.pos, x.value, [], target, none⟩ [last] := by
    rw [typeAlias_eq_named]
    exact named_cons ha hx (by simp) hparameters he hbody h
  exact ofTokens_declaration (.inl ha) hlast (declaration_alias (by rw [current_cons, ha]) halias)

/-- The tokens of an alias make a document with that alias only. -/
theorem ofTokens_alias {range : RangeText} (hrange : range.unread = [])
    (hts : ts.map Token.form = t.aliasForms range ++ [Form.eof]) :
    ∃ pos pos' inner, Document.ofTokens ts = .ok
      { declarations := [.alias ⟨pos, "X", [], t.typeExpr pos' inner range.bounds, none⟩] } := by
  obtain ⟨w, v, rfl, hw, hv⟩ := List.map_eq_append_iff.1 hts
  obtain ⟨last, rfl, hlast⟩ := List.map_eq_singleton_iff.1 hv
  have hkind : last.kind = .eof := kind_of_form hlast
  have hfront : Front (t.aliasForms range) (w ++ [last]) [last] := ⟨w, rfl, hw⟩
  -- From here on the tokens are taken from the front, one part of the alias after the other.
  generalize htokens : w ++ [last] = tokens at hfront ⊢
  obtain ⟨a, _, rfl, ha, hfront⟩ := front_cons_iff.1 hfront
  obtain ⟨x, _, rfl, hx, hfront⟩ := front_cons_iff.1 hfront
  obtain ⟨e, body, rfl, he, hfront⟩ := front_cons_iff.1 hfront
  obtain ⟨mid, htype, hfront⟩ := front_append_iff.1 hfront
  obtain ⟨s, behindSign, rfl, hs, hfront⟩ := front_cons_iff.1 hfront
  have hcurrent : TokenStream.current [last] = last := rfl
  -- The range takes all that is left.
  obtain ⟨behind, hnumber, hbehind⟩ := numberRange_of_rangeText range hfront (by simp)
    (by rw [hcurrent, hkind])
  rw [hrange] at hbehind
  obtain rfl := front_nil_iff.1 hbehind
  have hread : range? (s :: behindSign) = .done (some range.bounds) [last] :=
    range?_cons (kind_of_form hs) (hfront.ne_nil (by simp)) hnumber
  obtain ⟨pos', inner, htarget⟩ := typeExpr_of_front (n := body.length + 2) htype (by simp) hread
    (by rw [hcurrent, hkind]; decide)
  refine ⟨a.pos, pos', inner, ?_⟩
  rw [ofTokens_typeAlias (kind_of_form ha) (kind_of_form hx) (kind_of_form he)
    (htype.ne_nil (by simp)) hkind htarget, value_of_form hx]

end Parse

/-! ## Compiling the alias -/

namespace Generator

/-- A type with a range that leaves nothing is compiled to its schema, under the name of the alias. -/
theorem compile_aliasText (g : Generator) (t : BoundedType) {range : RangeText}
    (h : range.unread = []) :
    (g.compile (t.aliasText range)).1 =
      ((t.schema range.bounds).map fun schema => rootSchema [("X", schema)]).mapError .length := by
  obtain ⟨ts, hscan, hts⟩ := Token.scan_of_reads (t.reads_aliasText range)
  rw [String.ofList_toList] at hscan
  obtain ⟨pos, pos', inner, hdoc⟩ := Parse.ofTokens_alias h hts
  have hstring : Document.ofString (t.aliasText range) = .ok
      { declarations := [.alias ⟨pos, "X", [], t.typeExpr pos' inner range.bounds, none⟩] } := by
    rw [Document.ofString, hscan]
    dsimp only
    rw [hdoc]
  rw [compile, hstring]
  simp only [generate, definitions, define, t.toSchema_typeExpr]
  cases t.schema range.bounds <;> rfl

/-- The text of a range between two integers that belong to it. -/
def closedRange (a b : IntegerNumeral) : RangeText :=
  .between a.toNumeral ⟨false, false⟩ b.toNumeral

theorem joins_integer (a : IntegerNumeral) (upperExclusive : Bool) :
    RangeText.joins a.toNumeral ⟨false, upperExclusive⟩ = true := by
  simp [RangeText.joins, Numeral.endsInPoint, a.fraction_eq]

theorem unread_closedRange (a b : IntegerNumeral) : (closedRange a b).unread = [] := by
  simp [closedRange, RangeText.unread, joins_integer]

theorem bounds_closedRange (a b : IntegerNumeral) :
    (closedRange a b).bounds = ⟨some a.value, some b.value, false, false⟩ := by
  simp [closedRange, RangeText.bounds, joins_integer]

open Schema (Validates)

variable {env : String → Instance → Prop}

/-- An integer is valid against a schema with two bounds if it lies between their values. -/
theorem validates_bounds_iff {x y : Binary64} {n : ℤ} :
    Validates env (.object (("type", .string "integer") ::
      Schema.numberFields (some ⟨some x, some y, false, false⟩))) (.number n) ↔
      (∃ q, x.toRat? = some q ∧ q ≤ n) ∧ ∃ q, y.toRat? = some q ∧ (n : ℚ) ≤ q := by
  have htype : (Instance.number n).HasType "integer" := ⟨n, rfl⟩
  have hfields : Schema.numberFields (some ⟨some x, some y, false, false⟩) =
      [("minimum", .real x), ("maximum", .real y)] := rfl
  rw [Schema.validates_object_iff, Schema.allHold_cons, Schema.holds_type_iff, and_iff_right htype,
    hfields, Schema.allHold_cons, Schema.allHold_cons, and_iff_left Schema.allHold_nil]
  show ((∀ r, Instance.number n = .number r → ∃ q, x.toRat? = some q ∧ q ≤ r) ∧
    ∀ r, Instance.number n = .number r → ∃ q, y.toRat? = some q ∧ r ≤ q) ↔ _
  simp

/-- The bounds are those that were written if integers are told apart as they should be. An integer bound
that was written and the value that it is read as are both tried. -/
theorem forall_validates_iff {a b : IntegerNumeral} (h : a.int ≤ b.int) :
    (∀ n : ℤ, Validates env (.object (("type", .string "integer") ::
      Schema.numberFields (some (closedRange a b).bounds))) (.number n) ↔
        a.int ≤ n ∧ n ≤ b.int) ↔ a.IsExact ∧ b.IsExact := by
  simp only [bounds_closedRange, validates_bounds_iff, ← a.toRat?_value_iff, ← b.toRat?_value_iff]
  constructor
  · intro hall
    obtain ⟨⟨q, hq, hqa⟩, -⟩ := (hall a.int).2 ⟨le_refl _, h⟩
    obtain ⟨-, r, hr, hbr⟩ := (hall b.int).2 ⟨h, le_refl _⟩
    obtain ⟨x, rfl⟩ := a.exists_int_of_toRat?_value hq
    obtain ⟨y, rfl⟩ := b.exists_int_of_toRat?_value hr
    have hxa : x ≤ a.int := by exact_mod_cast hqa
    have hby : b.int ≤ y := by exact_mod_cast hbr
    -- The values that the bounds are read as are valid themselves, so they lie in the range.
    have hx := (hall x).1 ⟨⟨x, hq, le_refl _⟩, y, hr, by exact_mod_cast (hxa.trans h).trans hby⟩
    have hy := (hall y).1 ⟨⟨x, hq, by exact_mod_cast (hxa.trans h).trans hby⟩, y, hr, le_refl _⟩
    rw [hq, hr, le_antisymm hxa hx.1, le_antisymm hby hy.2]
    exact ⟨rfl, rfl⟩
  · rintro ⟨ha, hb⟩ n
    rw [ha, hb]
    simp

/-- The bounds on a length are those that were written if each of them is. -/
theorem lengthFields_eq_iff {minKey maxKey : String} {a b : IntegerNumeral} :
    Schema.lengthFields minKey maxKey (some (closedRange a b).bounds) =
      .ok [(minKey, .int a.int), (maxKey, .int b.int)] ↔ a.IsExact ∧ b.IsExact := by
  rw [← a.lengthBound_value_iff, ← b.lengthBound_value_iff, bounds_closedRange]
  simp only [Schema.lengthFields, Schema.boundField]
  cases Schema.lengthBound a.value with
  | error fault => simp [Except.map, bind, Except.bind]
  | ok low =>
    cases Schema.lengthBound b.value with
    | error fault => simp [Except.map, bind, Except.bind]
    | ok high => simp [Except.map, bind, Except.bind]

/-- A type with a range between two integers is compiled to a schema that says what was written just if
both integers can be held by floating-point numbers: the schema of an integer type admits exactly the
integers of the range, and those of a string and of a list have the bounds as they stand. -/
theorem compile_exact_iff (g : Generator) (env : String → Instance → Prop) (a b : IntegerNumeral)
    (h : a.int ≤ b.int) :
    (∀ type : IntegerType, ∃ schema,
      (g.compile ((BoundedType.integer type).aliasText (closedRange a b))).1 =
          .ok (rootSchema [("X", schema)]) ∧
        ((∀ n : ℤ, Validates env schema (.number n) ↔ a.int ≤ n ∧ n ≤ b.int) ↔
          a.IsExact ∧ b.IsExact)) ∧
    ((g.compile (BoundedType.string.aliasText (closedRange a b))).1 =
        .ok (rootSchema [("X", .object [("type", .string "string"), ("minLength", .int a.int),
          ("maxLength", .int b.int)])]) ↔ a.IsExact ∧ b.IsExact) ∧
    ((g.compile (BoundedType.list.aliasText (closedRange a b))).1 =
        .ok (rootSchema [("X", .object [("type", .string "array"), ("items", .object []),
          ("minItems", .int a.int), ("maxItems", .int b.int)])]) ↔ a.IsExact ∧ b.IsExact) := by
  refine ⟨fun type => ?_, ?_, ?_⟩
  · refine ⟨_, ?_, forall_validates_iff h⟩
    rw [compile_aliasText g _ (unread_closedRange a b)]
    rfl
  · rw [compile_aliasText g _ (unread_closedRange a b), BoundedType.schema,
      ← @lengthFields_eq_iff "minLength" "maxLength"]
    cases Schema.lengthFields "minLength" "maxLength" (some (closedRange a b).bounds) with
    | error fault => simp [Except.map, Except.mapError]
    | ok fields => simp [Except.map, Except.mapError, rootSchema]
  · rw [compile_aliasText g _ (unread_closedRange a b), BoundedType.schema,
      ← @lengthFields_eq_iff "minItems" "maxItems"]
    cases Schema.lengthFields "minItems" "maxItems" (some (closedRange a b).bounds) with
    | error fault => simp [Except.map, Except.mapError]
    | ok fields => simp [Except.map, Except.mapError, rootSchema]

/-- The range of the bytes is kept. -/
theorem compile_exact_byte :
    ∃ schema, (({} : Generator).compile "type X = byte @ -128..127").1 =
        .ok (rootSchema [("X", schema)]) ∧
      ∀ n : ℤ, Validates (fun _ _ => False) schema (.number n) ↔ -128 ≤ n ∧ n ≤ 127 := by
  let a := IntegerNumeral.ofInt (-128)
  let b := IntegerNumeral.ofInt 127
  have ha : a.int = -128 := IntegerNumeral.int_ofInt _
  have hb : b.int = 127 := IntegerNumeral.int_ofInt _
  have hexact : a.IsExact ∧ b.IsExact := by
    rw [IntegerNumeral.IsExact, IntegerNumeral.IsExact, ha, hb]
    exact ⟨Binary64.isRepresentable_of_lt (by decide), Binary64.isRepresentable_of_lt (by decide)⟩
  have htext : (BoundedType.integer .byte).aliasText (closedRange a b) =
      "type X = byte @ -128..127" := by decide +kernel
  obtain ⟨schema, hcompile, hmeans⟩ :=
    (compile_exact_iff {} (fun _ _ => False) a b (by rw [ha, hb]; decide)).1 .byte
  rw [htext] at hcompile
  have hall := hmeans.2 hexact
  rw [ha, hb] at hall
  exact ⟨schema, hcompile, hall⟩

/-- A bound that needs 54 bits is rounded, so that the schema admits another integer in its place, and a
length is bounded by that integer. -/
theorem compile_rounds_bounds :
    (∃ schema,
      (({} : Generator).compile "type X = long @ 9007199254740993..9007199254740993").1 =
          .ok (rootSchema [("X", schema)]) ∧
        Validates (fun _ _ => False) schema (.number (9007199254740992 : ℤ)) ∧
        ¬ Validates (fun _ _ => False) schema (.number (9007199254740993 : ℤ))) ∧
    (({} : Generator).compile "type X = string @ 9007199254740993..9007199254740993").1 =
      .ok (rootSchema [("X", .object [("type", .string "string"),
        ("minLength", .int 9007199254740992), ("maxLength", .int 9007199254740992)])]) := by
  let a := IntegerNumeral.ofInt 9007199254740993
  have hvalue : a.value = .finite false 4503599627370496 1 := by decide +kernel
  have hrat : a.value.toRat? = some ((9007199254740992 : ℤ) : ℚ) := by
    rw [hvalue, Binary64.toRat?]
    norm_num
  have hlength := IntegerNumeral.lengthBound_of_toRat? hrat
  have hchars : String.ofList (closedRange a a).chars = "9007199254740993..9007199254740993" := by
    decide +kernel
  have hlong := compile_aliasText {} (.integer .long) (unread_closedRange a a)
  have hstring := compile_aliasText {} .string (unread_closedRange a a)
  rw [BoundedType.aliasText, hchars] at hlong hstring
  refine ⟨⟨_, hlong, ?_⟩, hstring.trans ?_⟩
  · rw [bounds_closedRange, validates_bounds_iff, validates_bounds_iff, hrat]
    norm_num
  · rw [bounds_closedRange]
    simp only [BoundedType.schema, Schema.lengthFields, Schema.boundField, hlength]
    rfl

end Generator

end McdocSchema
