import McdocSchema.Proofs.EmittedTypes
import McdocSchema.Proofs.WrittenLabels
import McdocSchema.Proofs.WrittenPaths

/-!
# Other names

The specification of the language reserves fourteen words; every other word is meant to name a field, a
variant, an alias or a segment of a path. The scanner knows four more keywords, and where a name is due
they are misplaced. With each of the other words the document is the same but for the name, and the schema
shows the name where the old one was (`Generator.exists_place_of_name`).
-/

namespace McdocSchema

open Parse TokenStream Edit Schema

/-! ## Words -/

/-- The words that the specification of the language reserves. -/
def reservedWords : List String :=
  ["any", "boolean", "byte", "double", "enum", "false", "float", "int", "long", "short", "string", "struct",
    "super", "true"]

/-- The keywords that the specification does not reserve. -/
def unreservedKeywords : List String := ["type", "use", "dispatch", "to"]

/-- A word of the specification: letters, digits and underscores, and a letter in front. -/
def isSpecifiedWord (s : String) : Bool :=
  match s.toList with
  | [] => false
  | c :: cs => c.isAlpha && cs.all fun d => d.isAlphanum || d == '_'

namespace Text

theorem RangeTable.holds_of_le {lo hi : Nat} {table : RangeTable} {c : Char} (hlo : lo ≤ c.toNat)
    (hhi : c.toNat ≤ hi) : RangeTable.holds ((lo, hi) :: table) c = true := by
  rw [holds, start?, startAt?, if_neg (Nat.not_lt.2 hlo), if_pos hhi]
  rfl

theorem RangeTable.holds_cons_of_lt {lo hi : Nat} {table : RangeTable} {c : Char} (hlo : lo ≤ hi)
    (hhi : hi < c.toNat) : RangeTable.holds ((lo, hi) :: table) c = RangeTable.holds table c := by
  rw [holds, holds, start?, start?, startAt?, if_neg (by omega), if_neg (by omega)]

theorem isLetter_of_isAlpha {c : Char} (h : c.isAlpha = true) : isLetter c = true := by
  simp only [Char.isAlpha, Char.isUpper, Char.isLower, Bool.or_eq_true, Bool.and_eq_true,
    decide_eq_true_eq, ge_iff_le, UInt32.le_iff_toNat_le] at h
  rcases h with ⟨hlo, hhi⟩ | ⟨hlo, hhi⟩
  · exact RangeTable.holds_of_le hlo hhi
  · have hlt : 0x5A < c.toNat := Nat.lt_of_lt_of_le (by decide) hlo
    exact (RangeTable.holds_cons_of_lt (by decide) hlt).trans (RangeTable.holds_of_le hlo hhi)

theorem isNameStart_of_isAlpha {c : Char} (h : c.isAlpha = true) : isNameStart c = true := by
  rw [isNameStart, isLetter_of_isAlpha h, Bool.true_or]

theorem isNameChar_of_isAlphanum {c : Char} (h : c.isAlphanum = true ∨ c = '_') : isNameChar c = true := by
  rcases h with h | rfl
  · rw [Char.isAlphanum, Bool.or_eq_true] at h
    rcases h with h | h
    · rw [isNameChar, isAlphanumeric, isLetter_of_isAlpha h, Bool.true_or, Bool.true_or, Bool.true_or]
    · rw [isNameChar, isAlphanumeric, Number.isDigit_of_ascii h, Bool.or_true, Bool.true_or, Bool.true_or]
  · decide

end Text

section Words

open Lexeme Text

variable {w : String}

theorem isWord_of_isSpecifiedWord (h : isSpecifiedWord w = true) : IsWord w := by
  rw [isSpecifiedWord] at h
  cases hw : w.toList with
  | nil =>
    rw [hw] at h
    cases h
  | cons c cs =>
    rw [hw] at h
    simp only [Bool.and_eq_true, List.all_eq_true, Bool.or_eq_true, beq_iff_eq] at h
    exact ⟨c, cs, hw, isNameStart_of_isAlpha h.1, fun d hd => isNameChar_of_isAlphanum (h.2 d hd)⟩

/-- The words that are no keywords are those that are neither reserved nor among the other keywords. -/
theorem kindIn_keywords (hr : w ∉ reservedWords) (hu : w ∉ unreservedKeywords) :
    kindIn keywords w = .identifier := by
  have hall : ∀ e ∈ keywords, e.1 ∈ reservedWords ++ unreservedKeywords := by decide
  have hnone : keywords.lookup w = none := by
    rw [List.lookup_eq_none_iff]
    intro e he
    rw [bne_iff_ne]
    rintro rfl
    exact (List.mem_append.1 (hall e he)).elim hr hu
  rw [kindIn, hnone]
  rfl

theorem kindIn_mem_wordKinds (hu : w ∈ unreservedKeywords) : kindIn keywords w ∈ wordKinds := by
  have hall : ∀ w ∈ unreservedKeywords, kindIn keywords w ∈ wordKinds := by decide
  exact hall w hu

theorem isName_of_isSpecifiedWord (h : isSpecifiedWord w = true) (hr : w ∉ reservedWords)
    (hu : w ∉ unreservedKeywords) : isName w = true := by
  obtain ⟨c, cs, hw, hc, hcs⟩ := isWord_of_isSpecifiedWord h
  exact isName_iff.2 ⟨c, cs, hw, hcs, .inl ⟨hc, kindIn_keywords hr hu⟩⟩

end Words

/-! ## Roles of names -/

/-- What a name is in a document: the name of an alias, a field or a variant, or a segment of the path of
the reference at a position. -/
inductive Role
  | label (spot : Spot)
  | segment (pos : Position) (path : String) (j : Nat)

namespace Role

def IsIn (doc : Document) (name : String) : Role → Prop
  | label spot => ∃ comment, doc.label? spot = some ⟨name, comment⟩
  | segment pos path j => (pathNames path)[j]? = some name ∧
      ∃ decl ∈ doc.declarations, ∃ t ∈ decl.types, ∃ arguments,
        (TypeExpr.reference pos path arguments).OccursIn t

/-- The document with another name in the role. -/
def rename (doc : Document) (name : String) : Role → Document
  | label spot => doc.setLabel spot ⟨name, (doc.label? spot).bind Label.doc⟩
  | segment pos path j => doc.repath pos ("::".intercalate ((pathNames path).set j name))

/-- The schema shows the name in the role, where the schema of the document shows the old one. -/
def IsShown (numbered : Nat) (doc : Document) (name : String) (schema : Json) : Role → Prop
  | label spot => spot.IsShown numbered doc name schema
  | segment pos path j => ∀ arguments steps,
      doc.ConvertsAt numbered (.reference pos path arguments) steps →
        subschema? schema steps = some (reference ("::".intercalate ((pathNames path).set j name)))

end Role

/-! ## Places of names -/

namespace Role

/-- If the token between `us` and `vs` is replaced by another name, then the document is the same but for
the name in the role, and for positions. -/
def FollowsToken (role : Role) (doc : Document) (us : TokenStream) (t : Token) (vs : TokenStream) : Prop :=
  ∀ (t' : Token) (vs' : TokenStream) (doc' : Document), t'.kind = .identifier →
    Lexeme.isName t'.value = true → t'.value ≠ t.value → vs'.map Token.form = vs.map Token.form →
    Ended (us ++ t' :: vs') → Document.ofTokens (us ++ t' :: vs') = .ok doc' →
    (Edit.rename t.value t'.value (us ++ t :: vs) (us ++ t' :: vs')).Documents 1 doc doc' →
      doc'.unplaced = (role.rename doc t'.value).unplaced

variable {text name : String} {ts : TokenStream} {doc : Document} {role : Role}

theorem exists_followsToken (hscan : Token.scan text = .ok ts) (hdoc : Document.ofTokens ts = .ok doc)
    (hrole : role.IsIn doc name) :
    ∃ us t vs, ts = us ++ t :: vs ∧ t.kind = .identifier ∧ t.value = name ∧
      role.FollowsToken doc us t vs := by
  have hend := Token.scan_ended hscan
  cases role with
  | label spot =>
    obtain ⟨comment, hlabel⟩ := hrole
    obtain ⟨us, t, vs, rfl, hk, rfl, hlabels⟩ :=
      exists_label hend (Token.docsEnded_of_scan hscan) hdoc hlabel
    refine ⟨us, t, vs, rfl, hk, rfl, fun t' vs' doc' hk' _ hne hforms _ hdoc' hedit => ?_⟩
    have hlabel' := hlabels t' vs' doc' hk' hforms hdoc'
    have hdiffer : (⟨t.value, comment⟩ : Label) ≠ ⟨t'.value, comment⟩ := by
      intro heq
      exact hne (Label.mk.inj heq).1.symm
    rw [rename, hlabel]
    exact hedit.unplaced_eq_setLabel hlabel hlabel' hdiffer
  | segment pos path j =>
    obtain ⟨hname, decl, hdecl, type, htype, arguments, hoccurs⟩ := hrole
    obtain ⟨ws, hpath⟩ := exists_isPathAt hscan hdoc hdecl htype hoccurs
    obtain ⟨mids, t, vs, rfl, hlength, hk, rfl⟩ :=
      (eq_of_reads hpath.ended hpath.reads).2 j name (by rw [← hpath.names, hname])
    obtain ⟨front, rfl⟩ := hpath.suffix
    have hsplit : ∀ (t : Token) (vs : TokenStream), front ++ (mids ++ t :: vs) = front ++ mids ++ t :: vs :=
      fun t vs => (List.append_assoc _ _ _).symm
    have hj : j < (pathNames path).length := (List.getElem?_eq_some_iff.1 hname).1
    refine ⟨front ++ mids, t, vs, hsplit t vs, hk, rfl, ?_⟩
    intro t' vs' doc' _ hname' hne hforms hend' _ hedit
    have hchanged := hpath.intercalate_set_ne hj hname' (by rw [hname]; simpa using hne.symm)
    rw [← hsplit, ← hsplit] at hedit
    rw [← hsplit] at hend'
    refine hedit.unplaced_eq_repath (fun _ _ _ hrefers => ?_) hchanged hdecl htype hoccurs
    exact hpath.eq_of_refers (Token.pairwise_of_scan hscan) hlength hj hforms hend' hrefers

theorem rename_self (hscan : Token.scan text = .ok ts) (hdoc : Document.ofString text = .ok doc)
    (hrole : role.IsIn doc name) : role.rename doc name = doc := by
  cases role with
  | label spot =>
    obtain ⟨comment, hlabel⟩ := hrole
    rw [rename, hlabel]
    exact Document.setLabel_self hlabel
  | segment pos path j =>
    obtain ⟨hname, decl, hdecl, t, ht, arguments, hoccurs⟩ := hrole
    have htokens := Document.ofTokens_of_ofString hscan hdoc
    obtain ⟨ws, hpath⟩ := exists_isPathAt hscan htokens hdecl ht hoccurs
    have hself : "::".intercalate ((pathNames path).set j name) = path := by
      obtain ⟨hj, rfl⟩ := List.getElem?_eq_some_iff.1 hname
      rw [List.set_getElem_self, hpath.names, ← hpath.text_eq]
    have hprintable := (Document.isPrintable_of_ofString hdoc).declarations
    rw [rename, hself]
    refine Document.repath_self (fun decl hdecl => (hprintable decl hdecl).isWritten) ?_
    intro decl' hdecl' t' ht' s arguments' hoccurs'
    obtain ⟨ws', hpath'⟩ := exists_isPathAt hscan htokens hdecl' ht' hoccurs'
    exact hpath.path_eq (Token.pairwise_of_scan hscan) hpath'

/-- **Every name has its place.** It is a token, and with another name in its place the document is the
same but for this name and positions. -/
theorem exists_token (hscan : Token.scan text = .ok ts) (hdoc : Document.ofString text = .ok doc)
    (hrole : role.IsIn doc name) :
    ∃ us t vs, ts = us ++ t :: vs ∧ t.kind = .identifier ∧ t.value = name ∧
      ∀ (t' : Token) (vs' : TokenStream), t'.kind = .identifier → Lexeme.isName t'.value = true →
        vs'.map Token.form = vs.map Token.form → Ended (us ++ t' :: vs') →
        ∃ doc', Document.ofTokens (us ++ t' :: vs') = .ok doc' ∧
          doc'.unplaced = (role.rename doc t'.value).unplaced := by
  have htokens := Document.ofTokens_of_ofString hscan hdoc
  obtain ⟨us, t, vs, rfl, hk, rfl, hfollows⟩ := exists_followsToken hscan htokens hrole
  have hend := Token.scan_ended hscan
  have hdocs := Token.docsEnded_of_scan hscan
  refine ⟨us, t, vs, rfl, hk, rfl, fun t' vs' hk' hname' hforms hend' => ?_⟩
  by_cases heq : t'.value = t.value
  · have hform : t'.form = t.form := by rw [Token.form, Token.form, hk, hk', heq]
    have hforms' : (us ++ t' :: vs').map Token.form = (us ++ t :: vs).map Token.form := by
      rw [List.map_append, List.map_append, List.map_cons, List.map_cons, hform, hforms]
    rw [heq, rename_self hscan hdoc hrole]
    exact exists_of_forms hend hdocs hforms' htokens
  · obtain ⟨doc', hdoc', hedit⟩ := exists_of_rename hend hdocs hforms htokens hk hk'
    exact ⟨doc', hdoc', hfollows t' vs' doc' hk' hname' heq hforms hend' hdoc' hedit⟩

/-! ## Schemas -/

theorem generate_rename_isOk (g : Generator) (doc : Document) (name : String) (role : Role) :
    (g.generate (role.rename doc name)).1.isOk = (g.generate doc).1.isOk := by
  cases role with
  | label spot => exact g.generate_setLabel_isOk doc spot _
  | segment pos path j => exact g.generate_repath_isOk doc pos _

theorem isShown_of_definitions {g : Generator} {found : Fields Json}
    (hdecls : ∀ decl ∈ (role.rename doc name).declarations, decl.KeepsApart)
    (hfound : (g.definitions [] (role.rename doc name).declarations).1 = .ok found) :
    role.IsShown g.numbered doc name (Generator.rootSchema found) := by
  cases role with
  | label spot => exact Spot.isShown_of_definitions hdecls hfound
  | segment pos path j =>
    intro arguments steps h
    obtain ⟨s, hs, hsub⟩ := (h.repath pos _).subschema? hdecls hfound
    rw [TypeExpr.repath, if_pos rfl] at hs
    cases hs
    exact hsub

end Role

theorem Declaration.keepsApart_unplaced_iff (decl : Declaration) :
    decl.unplaced.KeepsApart ↔ decl.KeepsApart := by
  cases decl <;> simp [KeepsApart, unplaced, alias?]

theorem Document.keepsApart_of_unplaced {doc doc' : Document} (h : doc'.unplaced = doc.unplaced)
    (hdoc' : ∀ decl ∈ doc'.declarations, decl.KeepsApart) :
    ∀ decl ∈ doc.declarations, decl.KeepsApart := by
  intro decl hdecl
  have hdecls : doc'.declarations.map Declaration.unplaced = doc.declarations.map Declaration.unplaced :=
    congrArg Document.declarations h
  have hmem : decl.unplaced ∈ doc'.declarations.map Declaration.unplaced := by
    rw [hdecls]
    exact List.mem_map_of_mem hdecl
  obtain ⟨decl', hdecl', hsame⟩ := List.mem_map.1 hmem
  rw [← decl.keepsApart_unplaced_iff, ← hsame, decl'.keepsApart_unplaced_iff]
  exact hdoc' decl' hdecl'

namespace Generator

variable {g : Generator} {text text' name : String} {doc doc' : Document} {role : Role}

theorem compile_fst_of_ofString (h : Document.ofString text = .ok doc) :
    (g.compile text).1 = (g.generate doc).1.mapError .length := by
  rw [compile_eq, h]
  rfl

/-- A text whose document is another one with a new name has a schema that shows the name. -/
theorem exists_isShown (hdoc : Document.ofString text = .ok doc)
    (hcompiles : (g.compile text).1.isOk = true) (hdoc' : Document.ofString text' = .ok doc')
    (hsame : doc'.unplaced = (role.rename doc name).unplaced) :
    ∃ schema, (g.compile text').1 = .ok schema ∧ role.IsShown g.numbered doc name schema := by
  rw [compile_fst_of_ofString hdoc] at hcompiles
  have hok : (g.generate (role.rename doc name)).1.isOk = true := by
    rw [role.generate_rename_isOk]
    cases hschema : (g.generate doc).1 with
    | error fault =>
      rw [hschema] at hcompiles
      cases hcompiles
    | ok schema => rfl
  have hschema := generate_of_unplaced (g := g) hsame
  rw [generate_fst g (role.rename doc name)] at hok hschema
  cases hfound : (g.definitions [] (role.rename doc name).declarations).1 with
  | error fault =>
    rw [hfound] at hok
    cases hok
  | ok found =>
    rw [hfound] at hschema
    refine ⟨rootSchema found, ?_, ?_⟩
    · rw [compile_fst_of_ofString hdoc', hschema]
      rfl
    · exact Role.isShown_of_definitions
        (Document.keepsApart_of_unplaced hsame (keepsApart_of_ofString hdoc')) hfound

/-- **Other words in the place of a name.** The name of an alias, a field or a variant, or a segment of a
path, is a token of its text. Let a word that the specification does not reserve be put there, so that it is
not joined with a number in front of it. If it is not one of the four further keywords, then the text
compiles: the document is the same but for the name, and the schema shows it. If it is one of them, then
the text does not compile, because the word is misplaced. -/
theorem exists_place_of_name (hdoc : Document.ofString text = .ok doc)
    (hcompiles : (g.compile text).1.isOk = true) (hrole : role.IsIn doc name) :
    ∃ front back us vs, text = front ++ (name ++ back) ∧
      Token.scan text = .ok (us ++ ⟨.identifier, name, .after front.toList⟩ :: vs) ∧
      (Lexeme.IsWord name → (∀ u ∈ us.getLast?, u.kind.isNumber = false) →
        ∀ w, isSpecifiedWord w = true → Token.StartsBehind front w) ∧
      ∀ w, isSpecifiedWord w = true → w ∉ reservedWords → Token.StartsBehind front w →
        (w ∉ unreservedKeywords → ∃ doc' schema, Document.ofString (front ++ (w ++ back)) = .ok doc' ∧
          doc'.unplaced = (role.rename doc w).unplaced ∧
          (g.compile (front ++ (w ++ back))).1 = .ok schema ∧ role.IsShown g.numbered doc w schema) ∧
        (w ∈ unreservedKeywords → ∃ cause, (g.compile (front ++ (w ++ back))).1 =
          .error (.document (.parse (.misplaced cause
            ⟨Lexeme.kindIn Lexeme.keywords w, w, .after front.toList⟩)))) := by
  obtain ⟨ts, hscan, htokens⟩ := Document.exists_scan_of_ofString hdoc
  obtain ⟨us, ⟨kind, value, pos⟩, vs, rfl, rfl, rfl, hplace⟩ := Role.exists_token hscan hdoc hrole
  obtain ⟨front, back, rfl, rfl⟩ := Token.exists_text_of_identifier hscan rfl
  refine ⟨front, back, us, vs, rfl, hscan, ?_, ?_⟩
  · intro hname hlast w hw
    exact Token.startsBehind_of_scan hscan rfl hname (isWord_of_isSpecifiedWord hw) hlast
  · intro w hw hr hstarts
    have hword := isWord_of_isSpecifiedWord hw
    obtain ⟨vs', hscan', hforms⟩ := Token.scan_replace hscan rfl rfl rfl hword hstarts
    let t' : Token := ⟨Lexeme.kindIn Lexeme.keywords w, w, .after front.toList⟩
    refine ⟨fun hu => ?_, fun hu => ?_⟩
    · have hkind := kindIn_keywords hr hu
      obtain ⟨doc', hparsed, hsame⟩ := hplace t' vs' hkind (isName_of_isSpecifiedWord hw hr hu) hforms
        (Token.scan_ended hscan')
      have hdoc' : Document.ofString (front ++ (w ++ back)) = .ok doc' := by
        rw [Document.ofString_of_scan hscan', hparsed]
        rfl
      obtain ⟨schema, hschema, hshown⟩ := exists_isShown hdoc hcompiles hdoc' hsame
      exact ⟨doc', schema, hdoc', hsame, hschema, hshown⟩
    · have hkind : t'.kind ∈ wordKinds := kindIn_mem_wordKinds hu
      obtain ⟨cause, hfault⟩ := exists_of_forbid (Token.scan_ended hscan) (Token.docsEnded_of_scan hscan)
        hforms htokens rfl hkind
      refine ⟨cause, ?_⟩
      rw [compile_eq, Document.ofString_of_scan hscan', hfault]
      rfl

/-- The field of a struct gets another name, and one of the keywords. -/
theorem exists_place_of_name_field :
    let g : Generator := {}
    let front := "struct \x7b "
    let back := ": any \x7d"
    let role : Role := .label ⟨0, some 0⟩
    ∃ doc, Document.ofString (front ++ ("a" ++ back)) = .ok doc ∧
      (g.compile (front ++ ("a" ++ back))).1.isOk = true ∧ role.IsIn doc "a" ∧
      (∃ schema, (g.compile (front ++ ("bed" ++ back))).1 = .ok schema ∧
        role.IsShown 0 doc "bed" schema) ∧
      ∃ cause, (g.compile (front ++ ("to" ++ back))).1 =
        .error (.document (.parse (.misplaced cause ⟨.to, "to", ⟨1, 10⟩⟩))) := by
  intro g front back role
  let us : TokenStream := [⟨.struct, "struct", ⟨1, 1⟩⟩, ⟨.leftBrace, "\x7b", ⟨1, 8⟩⟩]
  let t : Token := ⟨.identifier, "a", ⟨1, 10⟩⟩
  let vs : TokenStream := [⟨.colon, ":", ⟨1, 11⟩⟩, ⟨.any, "any", ⟨1, 13⟩⟩, ⟨.rightBrace, "\x7d", ⟨1, 17⟩⟩,
    ⟨.eof, "", ⟨1, 18⟩⟩]
  have hscan : Token.scan (front ++ ("a" ++ back)) = .ok (us ++ t :: vs) := by
    dsimp only [front, back, us, t, vs]
    cbv
  let doc : Document :=
    { declarations := [.anonymous (.struct ⟨1, 1⟩ [⟨"a", .any ⟨1, 13⟩, false, none⟩] [])] }
  have hdoc : Document.ofString (front ++ ("a" ++ back)) = .ok doc := by
    rw [Document.ofString_of_scan hscan]
    rfl
  have hcompiles : (g.compile (front ++ ("a" ++ back))).1.isOk = true := by
    rw [compile_fst_of_ofString hdoc]
    rfl
  have hrole : role.IsIn doc "a" := ⟨none, rfl⟩
  have hplace : t.pos = .after front.toList := by decide
  obtain ⟨front', back', us', vs', htext, hscan', -, hwords⟩ := exists_place_of_name hdoc hcompiles hrole
  -- There is one identifier only.
  have hpos : Position.after front'.toList = .after front.toList := by
    have hmem : (⟨.identifier, "a", .after front'.toList⟩ : Token) ∈ us ++ t :: vs := by
      rw [hscan, Except.ok.injEq] at hscan'
      rw [hscan']
      simp
    simp only [us, t, vs, List.cons_append, List.nil_append, List.mem_cons, Token.mk.injEq, reduceCtorEq,
      false_and, true_and, false_or, List.not_mem_nil, or_false] at hmem
    rw [hmem]
    exact hplace
  have hlist := congrArg String.toList htext
  simp only [String.toList_append] at hlist
  have hfront := Position.eq_of_after_eq hlist hpos.symm
  rw [hfront, List.append_cancel_left_eq, List.append_cancel_left_eq] at hlist
  obtain rfl := String.toList_injective hfront
  obtain rfl := String.toList_injective hlist
  have hstarts : ∀ w, isSpecifiedWord w = true → Token.StartsBehind front w := fun w hw =>
    Token.startsBehind_of_scan hscan hplace ⟨'a', [], rfl, by decide, by simp⟩
      (isWord_of_isSpecifiedWord hw) (by decide)
  refine ⟨doc, hdoc, hcompiles, hrole, ?_, ?_⟩
  · obtain ⟨_, schema, -, -, hschema, hshown⟩ :=
      (hwords "bed" (by decide) (by decide) (hstarts _ (by decide))).1 (by decide)
    exact ⟨schema, hschema, hshown⟩
  · have hkind : Lexeme.kindIn Lexeme.keywords "to" = .to := by decide
    have hto := (hwords "to" (by decide) (by decide) (hstarts _ (by decide))).2 (by decide)
    rw [hkind, ← hplace] at hto
    exact hto

/-- Words that the specification does not reserve, and that are no names: of a field, of a variant, of an
alias and of a segment of a path. -/
theorem unreserved_words_misplaced :
    (∀ w ∈ ["type", "to", "use", "dispatch"], isSpecifiedWord w = true ∧ w ∉ reservedWords) ∧
    (∀ text ∈ ["struct \x7ba: any\x7d", "enum \x7ba\x7d", "type a = any", "type X = a::b"],
      ∃ schema, (({} : Generator).compile text).1 = .ok schema) ∧
    ∀ e ∈ [("type", "struct \x7btype: any\x7d"), ("to", "enum \x7bto\x7d"), ("use", "type use = any"),
        ("dispatch", "type X = a::dispatch")],
      ∃ cause kind pos, (({} : Generator).compile e.2).1 =
        .error (.document (.parse (.misplaced cause ⟨kind, e.1, pos⟩))) := by
  simp only [List.forall_mem_cons]
  refine ⟨by decide, ⟨⟨_, by cbv⟩, ⟨_, by cbv⟩, ⟨_, by cbv⟩, ⟨_, by cbv⟩, by simp⟩, ?_⟩
  exact ⟨⟨_, _, _, by cbv⟩, ⟨_, _, _, by cbv⟩, ⟨_, _, _, by cbv⟩, ⟨_, _, _, by cbv⟩, by simp⟩

end Generator

end McdocSchema
