import Mathlib
import McdocSchema.Proofs.CompiledShape
import McdocSchema.Proofs.Imports

/-!
# The failures of a text

A text that has no schema has none for one of five reasons (`Failure`): it has a stretch that makes no
token, a token that does not fit, an import, a number that cannot be read, or an infinite bound on a
length or a size. Each comes from something that can be pointed at in the text, in its tokens or in its
document (`CompileFault.IsOf`).
-/

namespace McdocSchema

open Number (Binary64)

/-! ## Lengths without a schema -/

namespace Schema

variable {fault : LengthFault} {minKey maxKey : String} {range : Option NumberRange}

theorem bind_eq_error_iff {ε α β : Type} {x : Except ε α} {f : α → Except ε β} {e : ε} :
    x >>= f = .error e ↔ x = .error e ∨ ∃ a, x = .ok a ∧ f a = .error e := by
  cases x with
  | error e' => simp [bind, Except.bind]
  | ok a => simp [bind, Except.bind]

theorem boundField_error {key : String} {x : Option Binary64} (h : boundField key x = .error fault) :
    ∃ y, x = some y ∧ lengthBound y = .error fault := by
  cases x with
  | none => cases h
  | some y =>
    refine ⟨y, rfl, ?_⟩
    rw [boundField] at h
    cases hbound : lengthBound y with
    | ok n =>
      rw [hbound] at h
      cases h
    | error fault' =>
      rw [hbound] at h
      cases h
      rfl

theorem lengthFields_error (h : lengthFields minKey maxKey range = .error fault) :
    ∃ r ∈ range.toList, ∃ x, (r.min = some x ∨ r.max = some x) ∧ lengthBound x = .error fault := by
  cases range with
  | none => cases h
  | some r =>
    refine ⟨r, by simp, ?_⟩
    rcases bind_eq_error_iff.1 h with h | ⟨low, -, h⟩
    · obtain ⟨x, hx, hbound⟩ := boundField_error h
      exact ⟨x, .inl hx, hbound⟩
    · rcases bind_eq_error_iff.1 h with h | ⟨high, -, h⟩
      · obtain ⟨x, hx, hbound⟩ := boundField_error h
        exact ⟨x, .inr hx, hbound⟩
      · cases h

end Schema

namespace TypeExpr

open Schema

variable {t : TypeExpr} {fault : LengthFault}

/-- The ranges of lengths and sizes that are written in a type, those in its parts left out. -/
def lengths : TypeExpr → List NumberRange
  | .string _ length => length.toList
  | .list _ _ size => size.toList
  | _ => []

theorem lengths_subset_ranges (t : TypeExpr) : t.lengths ⊆ t.ranges := by
  cases t <;> simp [lengths, ranges]

theorem exists_mem_of_toSchemas_error {ts : List TypeExpr} (h : toSchemas ts = .error fault) :
    ∃ t ∈ ts, t.toSchema = .error fault := by
  induction ts with
  | nil => cases h
  | cons t ts ih =>
    rcases bind_eq_error_iff.1 h with h | ⟨first, -, h⟩
    · exact ⟨t, List.mem_cons_self, h⟩
    · rcases bind_eq_error_iff.1 h with h | ⟨others, -, h⟩
      · obtain ⟨u, hu, herror⟩ := ih h
        exact ⟨u, List.mem_cons_of_mem t hu, herror⟩
      · cases h

theorem exists_mem_of_fieldSchemas_error {fields : List (Field TypeExpr)}
    (h : fieldSchemas fields = .error fault) :
    ∃ t ∈ fields.map Field.type, t.toSchema = .error fault := by
  induction fields with
  | nil => cases h
  | cons field fields ih =>
    rcases bind_eq_error_iff.1 h with h | ⟨first, -, h⟩
    · exact ⟨field.type, List.mem_cons_self, h⟩
    · rcases bind_eq_error_iff.1 h with h | ⟨others, -, h⟩
      · obtain ⟨u, hu, herror⟩ := ih h
        exact ⟨u, List.mem_cons_of_mem field.type hu, herror⟩
      · cases h

/-- A type has no schema because of a bound on a length or a size, in itself or in a part of it. -/
theorem toSchema_error (h : t.toSchema = .error fault) :
    (∃ u ∈ t.convertedParts, u.toSchema = .error fault) ∨
      ∃ r ∈ t.lengths, ∃ x, (r.min = some x ∨ r.max = some x) ∧ lengthBound x = .error fault := by
  cases t with
  | string pos length =>
    rcases bind_eq_error_iff.1 h with h | ⟨bounds, -, h⟩
    · exact .inr (lengthFields_error h)
    · cases h
  | list pos element size =>
    rcases bind_eq_error_iff.1 h with h | ⟨items, -, h⟩
    · exact .inl ⟨element, List.mem_cons_self, h⟩
    · rcases bind_eq_error_iff.1 h with h | ⟨bounds, -, h⟩
      · exact .inr (lengthFields_error h)
      · cases h
  | tuple pos elements =>
    rcases bind_eq_error_iff.1 h with h | ⟨items, -, h⟩
    · exact .inl (exists_mem_of_toSchemas_error h)
    · cases h
  | union pos members =>
    rcases bind_eq_error_iff.1 h with h | ⟨alternatives, -, h⟩
    · exact .inl (exists_mem_of_toSchemas_error h)
    · cases h
  | struct pos fields spreads =>
    rcases bind_eq_error_iff.1 h with h | ⟨properties, -, h⟩
    · obtain ⟨u, hu, herror⟩ := exists_mem_of_fieldSchemas_error h
      exact .inl ⟨u, List.mem_append_left spreads hu, herror⟩
    · rcases bind_eq_error_iff.1 h with h | ⟨others, -, h⟩
      · obtain ⟨u, hu, herror⟩ := exists_mem_of_toSchemas_error h
        exact .inl ⟨u, List.mem_append_right (fields.map Field.type) hu, herror⟩
      · cases h
  | indexed pos base indices => exact .inl ⟨base, List.mem_cons_self, h⟩
  | _ => cases h

theorem exists_lengths_of_toSchema_error (h : t.toSchema = .error fault) :
    ∃ u : TypeExpr, u.IsReachedFrom t ∧
      ∃ r ∈ u.lengths, ∃ x, (r.min = some x ∨ r.max = some x) ∧ lengthBound x = .error fault := by
  induction t using induction_on_parts with
  | step t ih =>
    rcases toSchema_error h with ⟨u, hu, herror⟩ | hlength
    · obtain ⟨v, hv, hlength⟩ := ih u (convertedParts_subset t hu) herror
      exact ⟨v, hv.tail hu, hlength⟩
    · exact ⟨t, .refl, hlength⟩

end TypeExpr

theorem Generator.definitions_error {g : Generator} {base : Fields Json} {decls : List Declaration}
    {fault : LengthFault} (h : (g.definitions base decls).1 = .error fault) :
    ∃ decl ∈ decls, ∃ number name type,
      decl.definition? number = some (name, type) ∧ type.toSchema = .error fault := by
  induction decls generalizing g base with
  | nil => cases h
  | cons decl decls ih =>
    rcases g.definitions_cons_cases base decl with
      ⟨name, type, fault', hdef, hschema, -, hrun⟩ | ⟨-, base', hrun, -⟩
    · rw [hrun] at h
      cases h
      exact ⟨decl, List.mem_cons_self, _, name, type, hdef, hschema⟩
    · rw [hrun] at h
      obtain ⟨d, hd, hrest⟩ := ih h
      exact ⟨d, List.mem_cons_of_mem decl hd, hrest⟩

/-! ## Looking ahead -/

theorem Scanner.peek?_natCast (s : Scanner) (d : Nat) :
    s.peek? d = some (s.rest.getD d '\x00') := by
  have hlength : s.text.length = s.offset + s.rest.length := by simp [text, offset]
  rw [peek?]
  by_cases hd : s.rest.length ≤ d
  · rw [if_pos (by omega), List.getD_eq_default _ _ hd]
  · rw [if_neg (by omega), if_pos (by omega)]
    have hindex : ((s.offset : Int) + d).toNat = s.past.reverse.length + d := by
      rw [List.length_reverse]
      exact Int.toNat_natCast (s.offset + d)
    rw [hindex, text, List.getElem?_append_right (Nat.le_add_right _ d), Nat.add_sub_cancel_left,
      List.getD_eq_getElem?_getD, List.getElem?_eq_getElem (by omega)]
    rfl

theorem TokenStream.peek?_natCast (front : List Token) (ts : TokenStream) (d : Nat) :
    peek? (front ++ ts) ts d = some (ts.getD d .absent) := by
  have hlength : (front ++ ts).length = front.length + ts.length := List.length_append
  rw [peek?]
  by_cases hd : ts.length ≤ d
  · rw [if_pos (by omega), List.getD_eq_default _ _ hd]
  · rw [if_neg (by omega), if_pos (by omega)]
    have hindex : (((front ++ ts).length : Int) - ts.length + d).toNat = front.length + d := by omega
    rw [hindex, List.getElem?_append_right (Nat.le_add_right _ d), Nat.add_sub_cancel_left,
      List.getD_eq_getElem?_getD, List.getElem?_eq_getElem (by omega)]
    rfl

/-! ## Texts without a schema -/

/-- The reasons for which a text has no schema. -/
inductive Failure
  /-- A stretch of the text makes no token. -/
  | lexical
  /-- A token does not fit. -/
  | syntactic
  /-- There is an import. -/
  | imported
  /-- A number cannot be read. -/
  | unreadable
  /-- A bound on a length or a size is infinite. -/
  | unbounded
  deriving DecidableEq, Repr

/-- A definition of the document has an infinite bound on a length or a size, in what is converted. -/
def Document.HasInfiniteLength (doc : Document) : Prop :=
  ∃ decl ∈ doc.declarations, ∃ number name type, decl.definition? number = some (name, type) ∧
    ∃ u : TypeExpr, u.IsReachedFrom type ∧ ∃ r ∈ u.lengths, ∃ negative : Bool,
      r.min = some (.infinity negative) ∨ r.max = some (.infinity negative)

/-- The fault is what the text fails with, for the given reason. -/
inductive FailsBy (text : String) : Failure → CompileFault → Prop
  | lexical {fault : ScanFault} (h : Token.scan text = .error fault) :
      FailsBy text .lexical (.document (.scan fault))
  | syntactic {ts : List Token} {cause : ParseCause} {token : Token} (h : Token.scan text = .ok ts)
      (htoken : token ∈ ts) :
      FailsBy text .syntactic (.document (.parse (.misplaced cause token)))
  | imported {ts rest : TokenStream} (h : Token.scan text = .ok ts)
      (hreach : Grammar.ReachesImport ts rest) :
      FailsBy text .imported (.document (.parse .importAlias))
  | unreadable {ts : List Token} {t : Token} {fault : Number.ReadFault}
      (h : Token.scan text = .ok ts) (ht : t ∈ ts)
      (hread : t.kind.isNumber = true ∧ Number.readReal t.value = .error fault ∨
        t.kind = .integer ∧ Number.readInteger t.value = .error fault) :
      FailsBy text .unreadable (.document (.parse (.number fault)))
  | unbounded {doc : Document} (h : Document.ofString text = .ok doc)
      (hlength : doc.HasInfiniteLength) : FailsBy text .unbounded (.length .infinite)

section

variable {text : String}

theorem failsBy_of_parse {ts : List Token} {fault : ParseFault} (hscan : Token.scan text = .ok ts)
    (h : Document.ofTokens ts = .error fault) :
    ∃ failure, FailsBy text failure (.document (.parse fault)) := by
  have hts := Token.scan_ended hscan
  cases hrun : Parse.bounded Parse.document ts with
  | done doc rest =>
    rw [Document.ofTokens, hrun] at h
    cases h
  | failed fault' rest =>
    rw [Document.ofTokens, hrun] at h
    cases h
    obtain rfl | ⟨t, ht, hcauses⟩ := Grammar.isFound_of_failed (I := (· = .importAlias))
      (fun J hJ => Parse.local_document hJ rfl (Nat.le_succ _) (Nat.le_succ _)) hts hrun
    · exact ⟨_, .imported hscan ((Grammar.document_importAlias_iff hts).1 hrun)⟩
    · cases fault with
      | misplaced cause token =>
        obtain rfl := hcauses
        exact ⟨_, .syntactic hscan ht⟩
      | number fault => exact ⟨_, .unreadable hscan ht hcauses⟩
      | importAlias | noPosition | endless => exact hcauses.elim

/-- A length that fails is infinite: no number in a text is read as the value that is none. -/
theorem failsBy_of_definitions {doc : Document} {g : Generator} {fault : LengthFault}
    (hdoc : Document.ofString text = .ok doc)
    (h : (g.definitions [] doc.declarations).1 = .error fault) :
    ∃ failure, FailsBy text failure (.length fault) := by
  obtain ⟨decl, hdecl, number, name, type, hdef, herror⟩ := Generator.definitions_error h
  obtain ⟨u, hu, r, hr, x, hx, hbound⟩ := TypeExpr.exists_lengths_of_toSchema_error herror
  have hprintable := (Document.isPrintable_of_ofString hdoc).declarations decl hdecl
  have hshaped : r.IsShaped := by
    rcases isPrintable_or_of_isReachedFrom hprintable hdef hu with hprintable | hsort
    · exact hprintable.isShaped.ranges r (u.lengths_subset_ranges hr)
    · cases u with
      | string | list => cases hsort
      | _ => cases hr
  cases x with
  | nan =>
    rcases hx with hx | hx
    · exact absurd hx hshaped.min_ne_nan
    · exact absurd hx hshaped.max_ne_nan
  | infinity negative =>
    cases hbound
    exact ⟨_, .unbounded hdoc ⟨decl, hdecl, number, name, type, hdef, u, hu, r, hr, negative, hx⟩⟩
  | finite negative mantissa exponent => cases hbound

theorem failsBy_of_compile {g : Generator} {fault : CompileFault}
    (h : (g.compile text).1 = .error fault) : ∃ failure, FailsBy text failure fault := by
  rw [Generator.compile_eq] at h
  cases hdoc : Document.ofString text with
  | ok doc =>
    rw [hdoc] at h
    have hrun : (g.generate doc).1.mapError CompileFault.length = .error fault := h
    rw [Generator.generate_fst] at hrun
    cases hfound : (g.definitions [] doc.declarations).1 with
    | ok found =>
      rw [hfound] at hrun
      cases hrun
    | error fault' =>
      rw [hfound] at hrun
      cases hrun
      exact failsBy_of_definitions hdoc hfound
  | error fault' =>
    rw [hdoc] at h
    cases h
    cases hscan : Token.scan text with
    | error fault =>
      rw [Document.ofString, hscan] at hdoc
      cases hdoc
      exact ⟨_, .lexical hscan⟩
    | ok ts =>
      rw [Document.ofString_of_scan hscan] at hdoc
      cases hparse : Document.ofTokens ts with
      | ok doc =>
        rw [hparse] at hdoc
        cases hdoc
      | error fault =>
        rw [hparse] at hdoc
        cases hdoc
        exact failsBy_of_parse hscan hparse

end

theorem compile_infinite :
    (Generator.compile {} "type A=string@1e999").1 = .error (.length .infinite) := by
  let tokens : List Token := [⟨.type, "type", ⟨1, 1⟩⟩, ⟨.identifier, "A", ⟨1, 6⟩⟩,
    ⟨.equals, "=", ⟨1, 7⟩⟩, ⟨.stringType, "string", ⟨1, 8⟩⟩, ⟨.atSign, "@", ⟨1, 14⟩⟩,
    ⟨.float, "1e999", ⟨1, 15⟩⟩, ⟨.eof, "", ⟨1, 20⟩⟩]
  let length : NumberRange := ⟨some (.infinity false), none, false, false⟩
  let doc : Document :=
    { declarations := [.alias ⟨⟨1, 1⟩, "A", [], .string ⟨1, 8⟩ (some length), none⟩] }
  have hscan : Token.scan "type A=string@1e999" = .ok tokens := by cbv
  have hparse : Document.ofTokens tokens = .ok doc := rfl
  have hdoc : Document.ofString "type A=string@1e999" = .ok doc := by
    simp only [Document.ofString, hscan, hparse]
  rw [Generator.compile_eq, hdoc]
  rfl

/-- Each of the reasons is that of some text. -/
theorem exists_failsBy (failure : Failure) :
    ∃ text fault, (Generator.compile {} text).1 = .error fault ∧ FailsBy text failure fault := by
  have hfails : ∀ {text : String} {fault : CompileFault},
      (Generator.compile {} text).1 = .error fault → ∃ failure, FailsBy text failure fault :=
    failsBy_of_compile
  cases failure with
  | lexical =>
    have hrun : ∃ fault, (Generator.compile {} "\"").1 = .error (.document (.scan fault)) :=
      ⟨_, by cbv⟩
    obtain ⟨fault, hrun⟩ := hrun
    obtain ⟨_, hfails⟩ := hfails hrun
    cases hfails with
    | lexical h => exact ⟨_, _, hrun, .lexical h⟩
  | syntactic =>
    have hrun : ∃ cause token, (Generator.compile {} "x").1 =
        .error (.document (.parse (.misplaced cause token))) :=
      ⟨_, _, by cbv⟩
    obtain ⟨cause, token, hrun⟩ := hrun
    obtain ⟨_, hfails⟩ := hfails hrun
    cases hfails with
    | syntactic h htoken => exact ⟨_, _, hrun, .syntactic h htoken⟩
  | imported =>
    have hrun : (Generator.compile {} "use a").1 = .error (.document (.parse .importAlias)) := by cbv
    obtain ⟨_, hfails⟩ := hfails hrun
    cases hfails with
    | imported h hreach => exact ⟨_, _, hrun, .imported h hreach⟩
  | unreadable =>
    have hrun : ∃ fault, (Generator.compile {} "enum \x7ba=1b\x7d").1 =
        .error (.document (.parse (.number fault))) :=
      ⟨_, by cbv⟩
    obtain ⟨fault, hrun⟩ := hrun
    obtain ⟨_, hfails⟩ := hfails hrun
    cases hfails with
    | unreadable h ht hread => exact ⟨_, _, hrun, .unreadable h ht hread⟩
  | unbounded =>
    obtain ⟨_, hfails⟩ := hfails compile_infinite
    cases hfails with
    | unbounded h hlength => exact ⟨_, _, compile_infinite, .unbounded h hlength⟩

/-- **The failures of texts are a closed set.** A text without a schema fails for one of the five reasons,
and each of them is that of some text. Looking ahead in a text or among its tokens never fails. A list of
tokens fails as an import does exactly where it comes to one, which leaves the stream behind its path, and
no list of tokens with an import in it makes a document. -/
theorem compile_failures :
    (∀ (g : Generator) (text : String) (fault : CompileFault),
      (g.compile text).1 = .error fault → ∃ failure, FailsBy text failure fault) ∧
    (∀ failure : Failure, ∃ text fault,
      (Generator.compile {} text).1 = .error fault ∧ FailsBy text failure fault) ∧
    (∀ (s : Scanner) (d : Nat), s.peek? d = some (s.rest.getD d '\x00')) ∧
    (∀ (front : List Token) (ts : TokenStream) (d : Nat),
      TokenStream.peek? (front ++ ts) ts d = some (ts.getD d .absent)) ∧
    ∀ ts : TokenStream, ts.Ended →
      (∀ rest, Parse.bounded Parse.document ts = .failed .importAlias rest ↔
        Grammar.ReachesImport ts rest) ∧
      ((∃ t ∈ ts, t.kind = .use) → ∀ doc, Document.ofTokens ts ≠ .ok doc) := by
  refine ⟨fun _ _ _ => failsBy_of_compile, exists_failsBy, Scanner.peek?_natCast,
    TokenStream.peek?_natCast, ?_⟩
  intro ts hts
  refine ⟨fun _ => Grammar.document_importAlias_iff hts, ?_⟩
  rintro ⟨t, ht, huse⟩
  exact Grammar.ofTokens_ne_ok_of_use hts ht huse

/-- An alias, and behind its line an import with documentation: the stream is left behind the path, whatever
comes there. -/
theorem compile_failures_import :
    let front := [(Token.Kind.type, "type"), (.identifier, "A"), (.equals, "="), (.any, "any"),
      (.newline, "\\n"), (.docComment, "imported"), (.newline, "\\n"), (.use, "use"),
      (.identifier, "a"), (.doubleColon, "::"), (.identifier, "b")].map fun t =>
        Token.mk t.1 t.2 .start
    let rest := [⟨.rightBrace, "\x7d", .start⟩, Token.eofAt .start]
    let ts : TokenStream := front ++ rest
    ts.Ended ∧ (∃ t ∈ ts, t.kind = .use) ∧
      Parse.bounded Parse.document ts = .failed .importAlias rest ∧ Grammar.ReachesImport ts rest ∧
      ∀ doc, Document.ofTokens ts ≠ .ok doc := by
  intro front rest ts
  have hts : ts.Ended := ⟨front ++ [⟨.rightBrace, "\x7d", .start⟩], _, rfl, rfl, by decide⟩
  have huse : ∃ t ∈ ts, t.kind = .use := by decide
  have hrun : Parse.bounded Parse.document ts = .failed .importAlias rest := rfl
  obtain ⟨-, -, -, -, himport⟩ := compile_failures
  obtain ⟨hreach, hnone⟩ := himport ts hts
  exact ⟨hts, huse, hrun, (hreach rest).1 hrun, hnone huse⟩

end McdocSchema
