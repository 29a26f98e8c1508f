import McdocSchema.Proofs.History
import McdocSchema.Proofs.JoinedText
import McdocSchema.Proofs.JoinedTokens

/-!
# Texts put together

Two texts with a line feed between them: their tokens, the declarations of their documents and the
definitions of their schemas are those of the one and those of the other. What comes from the second
text stands further down, and its declarations without a name are numbered behind those of the first.
-/

namespace McdocSchema

open TokenStream

/-! ## Documents -/

theorem Lexeme.Spells.kind_ne_eof {lexeme : List Char} {kind : Token.Kind} {value : String}
    (h : Spells lexeme kind value) : kind ≠ .eof := by
  cases h with
  | newline | string | doc => decide
  | symbol h =>
    have hall : ∀ entry ∈ symbols, entry.2 ≠ .eof := by decide
    exact hall _ h
  | word => exact kindIn_ne (by decide) (by decide)
  | key => exact kindIn_ne (by decide) (by decide)
  | @number sign digits fraction exponent suffix h =>
    intro hk
    have hnumber := isNumber_numberKind fraction exponent (suffix.map Char.toLower)
    rw [hk] at hnumber
    cases hnumber

/-- Texts are scanned to tokens that end with the end of the text. -/
theorem Token.scan_ended {text : String} {ts : TokenStream} (h : Token.scan text = .ok ts) :
    ts.Ended := by
  refine Scanner.of_scan (P := fun _ ts => TokenStream.Ended ts) ?_ ?_ ?_ h
  · intro s _
    exact ⟨[], _, rfl, rfl, by simp⟩
  · intro s ts _ hts
    exact hts
  · rintro s _ kind value htoken ⟨front, last, rfl, hlast, hfront⟩
    refine ⟨⟨kind, value, s.pos⟩ :: front, last, rfl, hlast, ?_⟩
    exact List.forall_mem_cons.2 ⟨(Lexeme.next_spells htoken).kind_ne_eof, hfront⟩

theorem Document.ofString_eq (text : String) :
    Document.ofString text =
      match Token.scan text with
      | .error fault => .error (.scan fault)
      | .ok ts => ((Parse.declarations ts).mapError .parse).map fun decls =>
          { declarations := decls } := by
  rw [Document.ofString]
  cases Token.scan text with
  | error fault => rfl
  | ok ts =>
    simp only [Parse.ofTokens_eq]
    cases Parse.declarations ts <;> rfl

/-- The document of the first text, with the declarations of the other one behind its own. -/
def Document.append (doc doc' : Document) : Document :=
  { doc with declarations := doc.declarations ++ doc'.declarations }

/-- The declarations of two lists of tokens with a line break in the place of the end of the first. -/
theorem Parse.declarations_append {ta tb : List Token} {last : Token} (nl : Token) {decls : List Declaration}
    (hta : TokenStream.Ended (ta ++ [last])) (htb : TokenStream.Closed tb) (hk : nl.kind = .newline)
    (hpos : nl.pos = last.pos) (h : declarations (ta ++ [last]) = .ok decls) :
    declarations (ta ++ nl :: tb) = (declarations tb).map (decls ++ ·) := by
  obtain ⟨front, e, heq, hlast, hfront⟩ := hta
  obtain ⟨rfl, hsame⟩ := List.append_inj' heq rfl
  obtain rfl := List.singleton_inj.1 hsame
  let J : Seam := ⟨id, [last], nl :: tb, ⟨[], last, rfl, hlast⟩, by simp, .inr ⟨hlast, hk, hpos⟩⟩
  have hjoined := declarations_across (J := J) rfl (htb.append [nl]) ta hfront h
  have hacross : J.across ta = ta ++ nl :: tb := congrArg (· ++ nl :: tb) (List.map_id ta)
  have hright : declarations J.right = declarations tb := declarations_newline hk htb
  rwa [hacross, hright, show J.place = id from rfl, Declaration.map_relocate_id] at hjoined

/-- The document of two texts with a line feed between them. If there is none, the second text is to
blame. -/
theorem Document.ofString_append {a : String} (hz : '\x00' ∉ a.toList) {doc : Document}
    (ha : Document.ofString a = .ok doc) (b : String) :
    Document.ofString (a ++ "\n" ++ b) =
      ((Document.ofString b).mapError (DocumentFault.relocate (Position.lower (linesOf a)))).map
        fun doc' => doc.append (doc'.relocate (Position.lower (linesOf a))) := by
  cases hta : Token.scan a with
  | error fault =>
    rw [ofString_eq, hta] at ha
    cases ha
  | ok ts =>
    obtain ⟨ta, rfl, hjoined⟩ := Token.scan_append hz hta b
    cases hdecls : Parse.declarations (ta ++ [Token.eofAt (Position.after a.toList)]) with
    | error fault =>
      rw [ofString_eq, hta] at ha
      simp only [hdecls] at ha
      cases ha
    | ok decls =>
      have hdoc : doc = { declarations := decls } := by
        rw [ofString_eq, hta] at ha
        simp only [hdecls] at ha
        cases ha
        rfl
      subst hdoc
      rw [ofString_eq, ofString_eq, hjoined]
      cases htb : Token.scan b with
      | error fault => rfl
      | ok tb =>
        have hclosed := (Token.scan_ended htb).closed
        have happend := Parse.declarations_append ⟨.newline, "\\n", Position.after a.toList⟩
          (Token.scan_ended hta) (hclosed.map_relocate (Position.lower (linesOf a))) rfl rfl hdecls
        rw [Parse.declarations_relocate _ hclosed] at happend
        simp only [Except.map, Except.mapError, happend]
        cases Parse.declarations tb <;> rfl

/-! ## Fields -/

namespace Fields

variable {α : Type}

/-- The fields with others set in them, one after the other. -/
def updated (fields new : Fields α) : Fields α :=
  new.foldl (fun fields field => fields.set field.1 field.2) fields

theorem set_set (fields : Fields α) (key : String) (value value' : α) :
    (fields.set key value).set key value' = fields.set key value' := by
  induction fields with
  | nil => simp [set]
  | cons field fields ih =>
    by_cases h : field.1 = key
    · simp [set, h]
    · simp [set, h, ih]

theorem set_comm {fields : Fields α} {key key' : String} (hne : key' ≠ key)
    (h : key ∈ fields.map Prod.fst) (value value' : α) :
    (fields.set key value).set key' value' = (fields.set key' value').set key value := by
  induction fields with
  | nil => simp at h
  | cons field fields ih =>
    by_cases hk : field.1 = key
    · have hk' : field.1 ≠ key' := fun heq => hne (heq.symm.trans hk)
      simp [set, hk, hne.symm]
    · by_cases hk' : field.1 = key'
      · simp [set, hk', hne]
      · have hmem : key ∈ fields.map Prod.fst := by
          rw [List.map_cons, List.mem_cons] at h
          exact h.resolve_left fun heq => hk heq.symm
        simp [set, hk, hk', ih hmem]

theorem nodup_set {fields : Fields α} (h : (fields.map Prod.fst).Nodup) (key : String) (value : α) :
    ((fields.set key value).map Prod.fst).Nodup := by
  rw [keys_set]
  split
  · exact h
  · next hnew =>
    refine List.nodup_append.2 ⟨h, List.nodup_singleton key, ?_⟩
    rintro k hk k' hk' rfl
    exact hnew (List.mem_singleton.1 hk' ▸ hk)

/-- A field that is not among the new ones can be set behind them if it has its place. -/
theorem updated_set_left {fields new : Fields α} {key : String} (h : key ∈ fields.map Prod.fst)
    (hnew : key ∉ new.map Prod.fst) (value : α) :
    updated (fields.set key value) new = (updated fields new).set key value := by
  induction new generalizing fields with
  | nil => rfl
  | cons field new ih =>
    rw [List.map_cons, List.mem_cons, not_or] at hnew
    have hmem : key ∈ (fields.set field.1 field.2).map Prod.fst := by
      rw [keys_set]
      split
      · exact h
      · exact List.mem_append_left _ h
    show updated ((fields.set key value).set field.1 field.2) new = _
    rw [set_comm (Ne.symm hnew.1) h]
    exact ih hmem hnew.2

theorem updated_set_right (fields : Fields α) {new : Fields α} (h : (new.map Prod.fst).Nodup)
    (key : String) (value : α) :
    updated fields (new.set key value) = (updated fields new).set key value := by
  induction new generalizing fields with
  | nil => rfl
  | cons field new ih =>
    rw [List.map_cons, List.nodup_cons] at h
    by_cases hk : field.1 = key
    · have hset : Fields.set key value (field :: new) = (key, value) :: new := by simp [set, hk]
      have hmem : key ∈ (fields.set key field.2).map Prod.fst := by
        rw [keys_set]
        split
        · next hmem => exact hmem
        · exact List.mem_append_right _ List.mem_cons_self
      rw [hset]
      show updated (fields.set key value) new = (updated (fields.set field.1 field.2) new).set key value
      rw [hk, ← updated_set_left hmem (hk ▸ h.1), set_set]
    · have hset : Fields.set key value (field :: new) = field :: Fields.set key value new := by
        simp [set, hk]
      rw [hset]
      exact ih _ h.2

end Fields

/-! ## Definitions -/

namespace Generator

theorem definitions_append {g : Generator} {found found' : Fields Json} {decls : List Declaration}
    (h : (g.definitions found decls).1 = .ok found') (decls' : List Declaration) :
    g.definitions found (decls ++ decls') = (decls.foldl meet g).definitions found' decls' := by
  induction decls generalizing g found with
  | nil =>
    cases h
    rfl
  | cons decl decls ih =>
    rcases g.definitions_cons_cases found decl with
      ⟨name, type, fault, -, -, -, hrun⟩ | ⟨-, found'', hrun, -⟩
    · rw [hrun] at h
      cases h
    · rw [hrun] at h
      rw [List.cons_append, hrun]
      exact ih h

theorem definitions_relocate (place : Position → Position) {g g' : Generator}
    (hg : g.numbered = g'.numbered) (found : Fields Json) (decls : List Declaration) :
    (g.definitions found (decls.map (Declaration.relocate place))).1 =
      (g'.definitions found decls).1 := by
  induction decls generalizing g g' found with
  | nil => rfl
  | cons decl decls ih =>
    have hdefinition : ∀ n, (decl.relocate place).definition? n =
        (decl.definition? n).map fun d => (d.1, d.2.relocate place) := by
      intro n
      cases decl with
      | anonymous type =>
        simp only [Declaration.relocate, Declaration.definition?, TypeExpr.anonymousSort?_relocate]
        cases anonymousSort? type <;> rfl
      | _ => rfl
    have hnumbered : (decl.relocate place).isNumbered = decl.isNumbered := by
      cases decl with
      | anonymous type =>
        simp only [Declaration.relocate, Declaration.isNumbered, TypeExpr.anonymousSort?_relocate]
      | _ => rfl
    have hmeet : (g.meet (decl.relocate place)).numbered = (g'.meet decl).numbered := by
      rw [meet, meet, hnumbered, hg]
    have ih := ih hmeet
    rw [List.map_cons, definitions_cons, definitions_cons, hdefinition, hg]
    cases decl.definition? (g'.numbered + 1) with
    | none => exact ih found
    | some d =>
      obtain ⟨name, type⟩ := d
      simp only [Option.map_some, TypeExpr.toSchema_relocate]
      cases type.toSchema with
      | error fault => rfl
      | ok schema => exact ih (found.set name schema)

/-- Definitions that were found before are updated by those that are found. -/
theorem definitions_updated (g : Generator) (base : Fields Json) {found : Fields Json}
    (hfound : (found.map Prod.fst).Nodup) (decls : List Declaration) :
    (g.definitions (base.updated found) decls).1 =
      (g.definitions found decls).1.map base.updated := by
  induction decls generalizing g found with
  | nil => rfl
  | cons decl decls ih =>
    rw [definitions_cons, definitions_cons]
    cases decl.definition? (g.numbered + 1) with
    | none => exact ih _ hfound
    | some d =>
      obtain ⟨name, type⟩ := d
      simp only
      cases type.toSchema with
      | error fault => rfl
      | ok schema =>
        simp only [← Fields.updated_set_right base hfound]
        exact ih _ (Fields.nodup_set hfound name schema)

theorem compile_fst_ok_iff {g : Generator} {text : String} {found : Fields Json} :
    (g.compile text).1 = .ok (rootSchema found) ↔
      ∃ doc, Document.ofString text = .ok doc ∧ (g.definitions [] doc.declarations).1 = .ok found := by
  rw [compile_eq]
  cases Document.ofString text with
  | error fault => simp
  | ok doc =>
    have hanswer : (g.answer (.document doc)).1 = (g.generate doc).1.mapError .length := rfl
    simp only [hanswer, generate_fst, Except.ok.injEq, exists_eq_left']
    cases (g.definitions [] doc.declarations).1 with
    | error fault => simp [Except.map, Except.mapError]
    | ok found' => simp [Except.map, Except.mapError, rootSchema]

/-- The definitions of two documents are those of the first, updated by those of the second. -/
theorem definitions_append_relocate (place : Position → Position) {g : Generator}
    {found found' : Fields Json} {decls decls' : List Declaration}
    (hapart : ∀ decl ∈ decls', decl.KeepsApart) (h : (g.definitions [] decls).1 = .ok found)
    (h' : (g.definitions [] decls').1 = .ok found') :
    (g.definitions [] (decls ++ decls'.map (Declaration.relocate place))).1 =
      .ok (found.updated (renumberFields (decls.countP Declaration.isNumbered) found')) := by
  have hnumbered := foldl_meet_numbered g decls
  have hrenumber := definitions_renumber hnumbered [] hapart
  have hnone : (([] : Fields Json).map Prod.fst).Nodup := List.nodup_nil
  have hupdated := definitions_updated (decls.foldl meet g) found hnone decls'
  rw [renumberFields_nil, h'] at hrenumber
  rw [hrenumber] at hupdated
  rw [definitions_append h, definitions_relocate place rfl]
  exact hupdated

end Generator

open Generator in
/-- **Texts can be put together.** Let the first text have a document. The tokens of the two texts with a
line feed between them are those of the first, with the line feed in the place of its end, and those of
the second; its declarations are those of the first and those of the second; and its definitions are
those of the first, updated by those of the second, whose numbers follow on. All that comes from the
second text, a fault included, stands further down by the lines of the first. -/
theorem compile_concatenated {a : String} (hz : '\x00' ∉ a.toList) {doc : Document}
    (ha : Document.ofString a = .ok doc) (b : String) :
    (∃ ta, Token.scan a = .ok (ta ++ [Token.eofAt (Position.after a.toList)]) ∧
      Token.scan (a ++ "\n" ++ b) =
        ((Token.scan b).mapError (ScanFault.relocate (Position.lower (linesOf a)))).map fun tb =>
          ta ++ ⟨.newline, "\\n", Position.after a.toList⟩ ::
            tb.map (Token.relocate (Position.lower (linesOf a)))) ∧
    Document.ofString (a ++ "\n" ++ b) =
      ((Document.ofString b).mapError (DocumentFault.relocate (Position.lower (linesOf a)))).map
        (fun doc' => doc.append (doc'.relocate (Position.lower (linesOf a)))) ∧
    ∀ (g : Generator) (found found' : Fields Json), (g.compile a).1 = .ok (rootSchema found) →
      (g.compile b).1 = .ok (rootSchema found') →
      (g.compile (a ++ "\n" ++ b)).1 = .ok (rootSchema
        (found.updated (renumberFields (doc.declarations.countP Declaration.isNumbered) found'))) := by
  have hdocument := Document.ofString_append hz ha b
  refine ⟨?_, hdocument, ?_⟩
  · cases hta : Token.scan a with
    | error fault =>
      rw [Document.ofString_eq, hta] at ha
      cases ha
    | ok ts =>
      obtain ⟨ta, rfl, hjoined⟩ := Token.scan_append hz hta b
      exact ⟨ta, rfl, hjoined⟩
  · intro g found found' h h'
    obtain ⟨doc₁, ha₁, h⟩ := compile_fst_ok_iff.1 h
    obtain ⟨doc', hb, h'⟩ := compile_fst_ok_iff.1 h'
    obtain rfl := Except.ok.inj (ha.symm.trans ha₁)
    rw [hb] at hdocument
    apply compile_fst_ok_iff.2
    exact ⟨_, hdocument, definitions_append_relocate _ (keepsApart_of_ofString hb) h h'⟩

open Generator in
/-- A tuple without elements at the end of the first text takes its position from the token behind it.
The alias is declared in both texts, and the enumeration of the second one gets the number 2. -/
theorem compile_concatenated_tuple :
    let a := "struct \x7b\x7d\ntype A = ()"
    let b := "enum \x7bx\x7d\ntype A = boolean"
    let doc : Document := { declarations := [.anonymous (.struct ⟨1, 1⟩ [] []),
      .alias ⟨⟨2, 1⟩, "A", [], .tuple ⟨2, 12⟩ [], none⟩] }
    '\x00' ∉ a.toList ∧ Document.ofString a = .ok doc ∧ linesOf a = 2 ∧
    (∃ ta, Token.scan a = .ok (ta ++ [Token.eofAt (Position.after a.toList)]) ∧
      Token.scan (a ++ "\n" ++ b) =
        ((Token.scan b).mapError (ScanFault.relocate (Position.lower (linesOf a)))).map fun tb =>
          ta ++ ⟨.newline, "\\n", Position.after a.toList⟩ ::
            tb.map (Token.relocate (Position.lower (linesOf a)))) ∧
    Document.ofString (a ++ "\n" ++ b) =
      ((Document.ofString b).mapError (DocumentFault.relocate (Position.lower (linesOf a)))).map
        (fun doc' => doc.append (doc'.relocate (Position.lower (linesOf a)))) ∧
    ∃ found found', (compile {} a).1 = .ok (rootSchema found) ∧
      (compile {} b).1 = .ok (rootSchema found') ∧
      (compile {} (a ++ "\n" ++ b)).1 =
        .ok (rootSchema (found.updated (renumberFields 1 found'))) := by
  intro a b doc
  let doc' : Document := { declarations := [.anonymous (.enum ⟨1, 1⟩ [⟨"x", none, none⟩]),
    .alias ⟨⟨2, 1⟩, "A", [], .boolean ⟨2, 10⟩, none⟩] }
  have hz : '\x00' ∉ a.toList := by decide
  obtain ⟨ha, hb⟩ : Document.ofString a = .ok doc ∧ Document.ofString b = .ok doc' := by
    constructor <;> cbv
  have hfound : (compile {} a).1 = .ok (rootSchema _) := compile_fst_ok_iff.2 ⟨_, ha, rfl⟩
  have hfound' : (compile {} b).1 = .ok (rootSchema _) := compile_fst_ok_iff.2 ⟨_, hb, rfl⟩
  obtain ⟨htokens, hdocument, hschema⟩ := compile_concatenated hz ha b
  exact ⟨hz, ha, by decide, htokens, hdocument, _, _, hfound, hfound', hschema {} _ _ hfound hfound'⟩

end McdocSchema
