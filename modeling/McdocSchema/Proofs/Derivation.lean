import McdocSchema.Proofs.Completion

/-!
# What is parsed is derived

The tokens that a parser passes are derived from the expression of its form, and they are the beginning of
something derived if it finds a token misplaced. Together with the acceptance of derived documents this
gives the main result: the documents that can be parsed are those of the grammar.
-/

namespace McdocSchema.Grammar

open Ebnf Parse TokenStream

variable {α β : Type} {e : Ebnf Rule} {ts mid rest : TokenStream} {rounds : Nat} {k : Token.Kind}
  {P : Token.Kind → Prop}

/-! ## Ranges -/

theorem ne_eof_of_isNumber (h : k.isNumber = true) : k ≠ .eof := by
  rintro rfl
  cases h

theorem reads_bound : Reads (fun j => j.isNumber = true) bound (token isBound) := by
  refine ⟨fun ts x rest hts hk h => ?_, fun ts cause token rest _ _ h => ?_⟩
  · rw [bound, current_bind] at h
    cases hx : Number.readReal ts.current.value with
    | error fault =>
      rw [hx] at h
      cases h
    | ok y =>
      rw [hx] at h
      cases h
      have hb : isBound ts.current = true := by
        rw [isBound, hk, hx]
        rfl
      exact spans_token_behind hts (ne_eof_of_isNumber hk) hb
  · rw [bound, current_bind] at h
    cases hx : Number.readReal ts.current.value <;> rw [hx] at h <;> cases h

theorem reads_bound? : Reads P bound? (opt (token isBound)) := by
  apply reads_current
  intro t
  split
  · next hk => exact (reads_bound.restrict fun j hj => by rwa [hj.1]).map.mono fun _ _ h => h.opt
  · exact reads_pure spans_opt_nil

theorem reads_delimited {k' : Token.Kind} {f g : Option Number.Binary64 → NumberRange} {r : NumberRange}
    (hk : k ≠ .eof) (hk' : k' ≠ .eof) :
    Reads P (eat k >>= fun eaten => if eaten then bound? >>= fun max => pure (f max)
        else eat k' >>= fun eaten => if eaten then bound? >>= fun max => pure (g max) else pure r)
      (opt ((kind k ||| kind k') ++ opt (token isBound))) := by
  refine reads_eat hk inhabited_opt reads_bound?.last ?_ fun ts rest h => ?_
  · rw [if_neg Bool.false_ne_true]
    refine reads_eat hk' inhabited_opt reads_bound?.last (reads_pure spans_opt_nil) fun ts rest h => ?_
    obtain ⟨mid, hd, hmax⟩ := spans_append_iff.1 h
    exact (hd.right.append hmax).opt
  · obtain ⟨mid, hd, hmax⟩ := spans_append_iff.1 h
    exact (hd.left.append hmax).opt

theorem reads_numberRange : Reads P numberRange bounds := by
  apply reads_current
  intro t
  split
  · next hk =>
    have hmin : Reads (fun j => j = t.kind ∧ P j) bound (token isBound) :=
      reads_bound.restrict fun j hj => by rwa [hj.1]
    refine (hmin.bind inhabited_opt fun min => ?_).mono fun _ _ h => h.left.opt
    exact reads_delimited (by decide) (by decide)
  · apply (reads_delimited (by decide) (by decide)).mono
    intro ts rest h
    rcases spans_opt_iff.1 h with h | rfl
    · exact h.right.opt
    · exact spans_opt_nil ts

theorem reads_range? : Reads P range? (opt (rule .range)) :=
  reads_eat (by decide) inhabited_opt reads_numberRange.map (reads_pure spans_opt_nil)
    fun _ _ h => (spans_rule_iff.2 h).opt

/-! ## Paths and indices -/

theorem reads_pathStep :
    Reads (fun j => (j == .doubleColon) = true) pathStep (kind .doubleColon ++ kind .identifier) :=
  (reads_advance_beq (by decide)).bind inhabited_kind fun _ => (reads_consume (by decide)).last

theorem reads_path : Reads P (Parse.path rounds) Grammar.path :=
  (reads_consume (by decide)).bind inhabited_many fun _ => (reads_repeatWhile reads_pathStep).last

theorem inhabited_indexKey : IsInhabited (token isIndexKey) :=
  @inhabited_token _ ⟨.identifier, "", .start⟩ rfl

theorem reads_index :
    Reads (fun j => (j == .leftBracket) = true) index
      (kind .leftBracket ++ token isIndexKey ++ kind .rightBracket) := by
  have hkey := inhabited_indexKey.append (@inhabited_kind .rightBracket)
  refine Reads.mono ((reads_advance_beq (by decide)).bind hkey fun _ => ?_) fun _ _ h => h.assoc
  apply reads_current
  intro t
  split
  · next hkey =>
    refine (reads_advance ?_ ?_).bind inhabited_kind fun _ => (reads_consume (by decide)).discard.last
    · rintro j ⟨rfl, -⟩ hj
      rw [hj] at hkey
      cases hkey
    · rintro u ⟨hu, -⟩
      rwa [isIndexKey, hu]
  · exact reads_fail hkey

/-! ## Forms of types -/

section

variable {inner : Parse TypeExpr} (hi : Reads Anywhere inner (.rule .type))

include hi

theorem reads_listType :
    Reads P (listType inner)
      (kind .leftBracket ++ rule .type ++ kind .rightBracket ++ opt (rule .range)) := by
  refine Reads.mono (reads_current fun t => ?_) fun _ _ h => h.assoc.assoc
  refine (reads_consume (by decide)).discard.bind (by simp) fun _ => ?_
  refine hi.bind (by simp) fun element => ?_
  exact (reads_consume (by decide)).discard.bind inhabited_opt fun _ => reads_range?.last

/-- What follows the first member of a tuple. -/
def tupleRest : Ebnf Rule :=
  oneOrMore (kind .comma ++ rule .type) ++ opt (kind .comma) ||| kind .comma

/-- A comma with nothing behind it ends the members of a tuple. -/
theorem reads_tupleRest :
    Reads (fun j => (j == .comma) = true) (repeatWhile rounds (· == .comma) (tupleMember inner))
      tupleRest := by
  have hstep : Reads (fun j => (j == .comma) = true) (tupleMember inner)
      (kind .comma ++ opt (rule .type)) := by
    refine (reads_advance_beq (by decide)).bind inhabited_opt fun _ => ?_
    exact reads_sees (reads_pure spans_opt_nil) (hi.at.map.mono fun _ _ h => h.opt)
  apply (reads_rounds (r := kind .comma ++ rule .type) ?_ hstep).mono
  · intro ts rest h
    obtain ⟨mid, hmany, hlast⟩ := spans_append_iff.1 h
    obtain ⟨next, hcomma, htype⟩ := spans_append_iff.1 hlast
    rcases spans_opt_iff.1 htype with htype | rfl
    · -- The last member is one more than those in front of it.
      have hmember := hcomma.append htype
      rcases spans_many_iff_cons.1 hmany with rfl | ⟨second, hfirst, hmany⟩
      · exact ((hmember.append (spans_many_nil rest)).append (spans_opt_nil rest)).left
      · have hmore := hmany.many_append (hmember.many_cons (spans_many_nil rest))
        exact ((hfirst.append hmore).append (spans_opt_nil rest)).left
    · rcases spans_many_iff_cons.1 hmany with rfl | ⟨second, hfirst, hmany⟩
      · exact hcomma.right
      · exact ((hfirst.append hmany).append hcomma.opt).left
  · intro ts x mid hg hts hx hgoes
    obtain ⟨hcomma, hbehind⟩ := spans_kind_behind hts (eq_of_beq hg) (by decide)
    rw [tupleMember, advance_bind, sees_bind] at hx
    split at hx
    · next hk =>
      obtain ⟨-, rfl⟩ := pure_done_iff.1 hx
      rw [eq_of_beq hk] at hgoes
      cases hgoes
    · obtain ⟨type, ht, -⟩ := map_done_iff.1 hx
      obtain ⟨htype, hmid⟩ := hi.parsed _ _ _ hbehind ht
      exact ⟨hcomma.append htype, hmid⟩

theorem reads_parenthesizedType : Reads P (parenthesizedType rounds inner) parenthesized := by
  have hclosed : IsInhabited (kind .rightParen ||| tupleRest ++ kind .rightParen) := inhabited_kind.left
  have hclose : ∀ {P : Token.Kind → Prop} {type : TypeExpr}, Reads P
      (discard (consume .rightParen) >>= fun _ => pure type) (kind .rightParen) :=
    (reads_consume (by decide)).discard.last
  -- What follows the opening parenthesis.
  have hbehind : Reads Anywhere (eat .rightParen >>= fun closed =>
      if closed then Parse.current >>= fun t => pure (TypeExpr.tuple t.pos [])
      else inner >>= fun first => sees .comma >>= fun several =>
        if several then repeatWhile rounds (· == .comma) (tupleMember inner) >>= fun others =>
          discard (consume .rightParen) >>= fun _ =>
            pure (TypeExpr.tuple first.pos (first :: others.reduceOption))
        else discard (consume .rightParen) >>= fun _ => pure first)
      (kind .rightParen ||| rule .type ++ (kind .rightParen ||| tupleRest ++ kind .rightParen)) := by
    refine reads_eat (by decide) (b := .empty) ⟨[], .empty⟩
      (reads_current fun t => reads_pure fun ts => spans_empty_iff.2 rfl) ?_ fun ts rest h => ?_
    · refine (hi.at.bind hclosed fun first => ?_).mono fun _ _ h => h.right
      refine reads_sees ?_ (hclose.mono fun _ _ h => h.left)
      refine (Reads.bind ?_ inhabited_kind fun _ => hclose).mono fun _ _ h => h.right
      exact (reads_tupleRest hi).restrict fun _ hj => beq_iff_eq.2 hj.1
    · obtain ⟨mid, hk, hmid⟩ := spans_append_iff.1 h
      rw [spans_empty_iff.1 hmid] at hk
      exact hk.left
  have hopen : Reads P (consume .leftParen) (kind .leftParen) := reads_consume (by decide)
  refine (hopen.discard.bind inhabited_kind.left fun _ => hbehind).mono ?_
  intro ts rest h
  obtain ⟨ts₁, hopen, h⟩ := spans_append_iff.1 h
  rcases spans_or_iff.1 h with h | h
  · exact (hopen.append h).left.left
  · obtain ⟨ts₂, htype, h⟩ := spans_append_iff.1 h
    rcases spans_or_iff.1 h with h | h
    · exact ((hopen.append htype).append h).right.left
    · obtain ⟨ts₃, hrest, h⟩ := spans_append_iff.1 h
      exact (((hopen.append htype).append hrest).append h).right

theorem reads_typeArguments :
    Reads P (typeArguments rounds inner)
      (opt (kind .leftAngle ++ commaList (rule .type) ++ kind .rightAngle)) :=
  reads_bracketed hi (by decide) (by decide)

theorem reads_referenceType : Reads P (referenceType rounds inner) reference := by
  refine Reads.mono (reads_current fun t => ?_) fun _ _ h => h.assoc
  refine reads_path.bind (by simp) fun name => ?_
  refine (reads_typeArguments hi).bind inhabited_many fun arguments => ?_
  exact reads_sees (reads_repeatWhile reads_index).last (reads_pure spans_many_nil)

theorem reads_primaryType : Reads P (primaryType rounds inner) (.rule .primary) := by
  apply reads_current
  intro t
  -- The first token tells the form; a token that starts no type is misplaced.
  cases t.kind
  case any =>
    exact (reads_pass (by decide)).last.mono fun _ _ h =>
      spans_rule_iff.2 h.left.left.left.left.left.left.left
  case booleanType =>
    exact (reads_pass (by decide)).last.mono fun _ _ h =>
      spans_rule_iff.2 h.right.left.left.left.left.left.left
  case stringType =>
    refine ((reads_pass (by decide)).bind inhabited_opt fun _ => reads_range?.last).mono fun _ _ h => ?_
    exact spans_rule_iff.2 h.right.left.left.left.left.left
  case byte | short | int | long | floatType | double =>
    refine ((reads_accepted (f := isNumericWord) (by decide) fun u hu => ?_).bind inhabited_opt
      fun _ => reads_range?.last).mono fun _ _ h => spans_rule_iff.2 h.right.left.left.left.left
    rw [isNumericWord, hu]
    rfl
  case integer | float | string | boolean =>
    refine (reads_accepted (f := isLiteral) (by decide) fun u hu => ?_).last.mono
      fun _ _ h => spans_rule_iff.2 h.right.left.left.left
    rw [isLiteral, hu]
    rfl
  case leftBracket =>
    exact (reads_listType hi).mono fun _ _ h => spans_rule_iff.2 h.right.left.left
  case leftParen =>
    exact (reads_parenthesizedType hi).mono fun _ _ h => spans_rule_iff.2 h.right.left
  case identifier => exact (reads_referenceType hi).mono fun _ _ h => spans_rule_iff.2 h.right
  all_goals exact reads_fail inhabited_primary

theorem reads_unionStep :
    Reads (fun j => (j == .pipe) = true) (unionStep rounds inner) (kind .pipe ++ rule .primary) :=
  (reads_advance_beq (by decide)).bind inhabited_primary fun _ => reads_primaryType hi

theorem reads_unionType : Reads P (unionType rounds inner) (.rule .type) := by
  refine Reads.mono ((reads_primaryType hi).bind inhabited_many fun first => ?_)
    fun _ _ h => spans_rule_iff.2 h
  exact reads_sees (reads_repeatWhile (reads_unionStep hi)).last (reads_pure spans_many_nil)

end

theorem reads_typeExpr (n : Nat) : Reads P (typeExpr n) (.rule .type) := by
  induction n generalizing P with
  | zero => exact reads_throw (by simp)
  | succ n ih => exact reads_unionType ih

/-! ## Bodies -/

theorem reads_memberDoc : Reads P memberDoc (opt (kind .docComment ++ newlines)) :=
  reads_current fun _ => reads_opt (by decide) inhabited_many reads_skipNewlines.last

theorem reads_body {item : Option String → Parse α} (hitem : ∀ doc, Reads Anywhere (item doc) e)
    (he : IsInhabited e) : Reads P (Parse.body rounds item) (Grammar.body e) := by
  have hline : Reads Anywhere (memberDoc >>= fun doc => item doc >>= fun a =>
      discard (eat .comma) >>= fun _ => skipNewlines >>= fun _ => pure (some a)) (memberLines e) := by
    refine Reads.mono (reads_memberDoc.bind ?_ fun doc => ?_) fun _ _ h => h.assoc.assoc
    · exact he.append (inhabited_opt.append inhabited_many)
    refine (hitem doc).bind (by simp [newlines]) fun a => ?_
    exact (reads_eaten (by decide)).discard.bind inhabited_many fun _ => reads_skipNewlines.last
  refine Reads.mono ((reads_consume (by decide)).discard.bind (by simp [newlines]) fun _ =>
    (reads_lines hline).bind inhabited_kind fun _ => (reads_consume (by decide)).discard.last) ?_
  intro ts rest h
  obtain ⟨ts₁, hopen, h⟩ := spans_append_iff.1 h
  obtain ⟨ts₂, hlines, hclose⟩ := spans_append_iff.1 h
  exact (hopen.append hlines).assoc.append hclose

theorem reads_structItem {inner : Parse TypeExpr} (hi : Reads Anywhere inner (.rule .type))
    (doc : Option String) : Reads P (Parse.structItem inner doc) Grammar.structItem := by
  refine reads_eat (by decide) inhabited_type hi.map ?_ fun _ _ h => h.left
  refine Reads.mono ((reads_consume (by decide)).bind (by simp) fun name => ?_)
    fun _ _ h => h.assoc.assoc.right
  refine (reads_eaten (by decide)).bind (by simp) fun optional => ?_
  exact (reads_consume (by decide)).discard.bind inhabited_type fun _ => hi.last

theorem reads_variantValue : Reads P variantValue (opt (kind .equals ++ token isVariantValue)) := by
  have hvalue : IsInhabited (token isVariantValue) :=
    @inhabited_token _ ⟨.integer, "0", .start⟩ (by decide)
  refine reads_opt (by decide) hvalue ⟨fun ts x rest hts _ h => ?_, fun ts cause token rest hts _ h => ?_⟩
  · rw [current_bind] at h
    split at h
    · next hint =>
      cases hx : Number.readInteger ts.current.value with
      | error fault =>
        rw [hx] at h
        cases h
      | ok n =>
        rw [hx] at h
        cases h
        have hv : isVariantValue ts.current = true := by
          rw [isVariantValue, hint, hx]
          rfl
        exact spans_token_behind hts (by rw [eq_of_beq hint]; decide) hv
    · cases h
  · rw [current_bind] at h
    split at h
    · cases hx : Number.readInteger ts.current.value <;> rw [hx] at h <;> cases h
    · cases h
      exact ⟨rfl, hts, [], rfl, completable_nil hvalue⟩

theorem reads_variant (doc : Option String) : Reads P (Parse.variant doc) Grammar.variant :=
  (reads_consume (by decide)).bind inhabited_opt fun _ => reads_variantValue.last

/-! ## Declarations -/

theorem inhabited_structItem : IsInhabited Grammar.structItem :=
  (inhabited_kind.append inhabited_type).left

theorem inhabited_variant : IsInhabited Grammar.variant :=
  inhabited_kind.append inhabited_opt

theorem inhabited_body : IsInhabited (Grammar.body e) := by
  simp [Grammar.body, newlines]

theorem reads_structType : Reads P (structType rounds) (.rule .struct) := by
  refine Reads.mono (reads_current fun t => ?_) fun _ _ h => spans_rule_iff.2 h
  refine (reads_consume (by decide)).discard.bind inhabited_body fun _ => ?_
  exact (reads_body (reads_structItem (reads_typeExpr rounds)) inhabited_structItem).last

theorem reads_enumType : Reads P (enumType rounds) (.rule .enum) := by
  refine Reads.mono (reads_current fun t => ?_) fun _ _ h => spans_rule_iff.2 h
  refine (reads_consume (by decide)).discard.bind inhabited_body fun _ => ?_
  exact (reads_body reads_variant inhabited_variant).last

theorem reads_named {word sign : Token.Kind} {names : Parse (List String)}
    {f : Position → String → List String → TypeExpr → α} (hword : word ≠ .eof) (hsign : sign ≠ .eof)
    (hnames : Reads Anywhere names (opt e)) :
    Reads P (named rounds word sign names f)
      (kind word ++ kind .identifier ++ opt e ++ kind sign ++ rule .type) := by
  refine Reads.mono (reads_current fun t => ?_) fun _ _ h => h.assoc.assoc.assoc
  refine (reads_consume hword).discard.bind (by simp) fun _ => ?_
  refine (reads_consume (by decide)).bind (by simp) fun name => ?_
  refine hnames.bind (by simp) fun found => ?_
  exact (reads_consume hsign).discard.bind inhabited_type fun _ => (reads_typeExpr rounds).last

theorem reads_typeParameters : Reads P (typeParameters rounds)
    (opt (kind .leftAngle ++ commaList (kind .identifier) ++ kind .rightAngle)) :=
  reads_bracketed (reads_consume (by decide)) (by decide) (by decide)

theorem reads_dispatchIndices : Reads P (dispatchIndices rounds)
    (opt (kind .leftBracket ++ commaList (kind .identifier) ++ kind .rightBracket)) :=
  reads_bracketed (reads_consumeOr (by decide)) (by decide) (by decide)

theorem reads_typeAlias : Reads P (typeAlias rounds) (.rule .alias) := by
  rw [typeAlias_eq_named]
  exact (reads_named (by decide) (by decide) reads_typeParameters).mono fun _ _ h => spans_rule_iff.2 h

theorem reads_dispatchStatement : Reads P (dispatchStatement rounds) (.rule .dispatch) :=
  (reads_named (by decide) (by decide) reads_dispatchIndices).mono fun _ _ h => spans_rule_iff.2 h

/-- Behind the word for an import nothing can be completed. -/
theorem reads_useStatement : Reads (fun j => j = .use ∧ P j) (useStatement rounds) e := by
  refine ⟨fun ts x rest _ _ h => absurd h useStatement_ne_done, fun ts cause token rest hts hk hfail => ?_⟩
  obtain ⟨hcons, hbehind⟩ := hts.behind (by rw [hk.1]; decide)
  rw [useStatement, discard_bind_of_done (consume_done_iff.2 ⟨hk.1, rfl, rfl⟩)] at hfail
  have hpath : Reads Anywhere (discard (Parse.path rounds) >>= fun _ =>
      (throw .importAlias : Parse Declaration)) (Grammar.path ++ opt (kind .use)) :=
    reads_path.discard.bind inhabited_opt fun _ => reads_throw (by simp)
  have hblames := hpath.completes ts.behind cause token rest hbehind trivial hfail
  obtain ⟨w, hw, -⟩ := hblames.completable
  refine ⟨hblames.current, hblames.ended, ts.current :: w, ?_, ?_⟩
  · rw [List.cons_append, ← hw, ← hcons]
  · intro huse
    exact absurd hk.1 (huse ts.current List.mem_cons_self)

theorem inhabited_declaration : IsInhabited (rule .declaration) :=
  (IsInhabited.rule (n := .struct) (inhabited_kind.append inhabited_body)).left.left.left.rule

theorem reads_declaration (doc : Option String) :
    Reads P (declaration rounds doc) (.rule .declaration) := by
  apply reads_current
  intro t
  cases t.kind
  case struct => exact reads_structType.map.mono fun _ _ h => spans_rule_iff.2 h.left.left.left
  case enum => exact reads_enumType.map.mono fun _ _ h => spans_rule_iff.2 h.right.left.left
  case type => exact reads_typeAlias.last.mono fun _ _ h => spans_rule_iff.2 h.right.left
  case use => exact reads_useStatement
  case dispatch => exact reads_dispatchStatement.mono fun _ _ h => spans_rule_iff.2 h.right
  all_goals exact reads_fail inhabited_declaration

/-! ## Documents -/

theorem reads_docLines :
    Reads (fun j => j = .docComment ∧ P j) docLines (oneOrMore (kind .docComment)) := by
  refine ⟨fun ts lines rest hts hk h => ?_, Tolerant.completes fun ts cause token rest h => ?_⟩
  · obtain ⟨docs, rfl, hd, hn, -⟩ := docLines_done h
    obtain ⟨hmany, hrest⟩ := spans_run (by decide) hts hd
    rcases spans_many_iff_cons.1 hmany with hnil | ⟨next, hfirst, hmany⟩
    · rw [hnil] at hk
      exact absurd hk.1 hn
    · exact ⟨hfirst.append hmany, hrest⟩
  · fun_induction docLines ts generalizing rest with
    | case1 => cases h
    | case2 t u ts hk fault rest' hs ih =>
      cases h
      exact ih rest' hs
    | case3 => cases h
    | case4 => cases h
    | case5 => cases h

theorem reads_declarationDoc :
    Reads P declarationDoc (opt (oneOrMore (kind .docComment) ++ newlines)) := by
  refine reads_sees ?_ (reads_pure spans_opt_nil)
  refine (reads_docLines.bind inhabited_many fun lines => ?_).mono fun _ _ h => h.opt
  exact reads_skipNewlines.last

/-- A declaration with its documentation and the line breaks behind it. -/
theorem reads_declarationLine :
    Reads P (declarationDoc >>= fun doc => declaration rounds doc >>= fun decl =>
      skipNewlines >>= fun _ => pure (some decl)) declarationLines := by
  have hline := inhabited_declaration.append (@inhabited_many (kind .newline))
  refine Reads.mono (reads_declarationDoc.bind hline fun doc => ?_) fun _ _ h => h.assoc
  exact (reads_declaration doc).bind inhabited_many fun _ => reads_skipNewlines.last

theorem reads_declarations :
    Reads P (repeatWhile rounds (· != .eof) (declaration? rounds)) (newlines ++ many declarationLines) :=
  reads_lines reads_declarationLine

theorem blames_of_document {cause : ParseCause} {token : Token} (hts : Ended ts)
    (h : document rounds ts = .failed (.misplaced cause token) rest) :
    Blames (newlines ++ many declarationLines) token ts rest := by
  have hreads : Reads Anywhere (document rounds) (newlines ++ many declarationLines) :=
    reads_declarations.last
  exact hreads.completes ts cause token rest hts trivial h

theorem spans_eof (hts : Ended ts) (hk : ts.current.kind = .eof) : Spans rules (kind .eof) ts [] := by
  obtain ⟨front, last, rfl, hlast, hfront⟩ := hts
  cases front with
  | nil => exact spans_kind_iff.2 ⟨last, rfl, hlast⟩
  | cons t front => exact absurd hk (hfront t List.mem_cons_self)

theorem spans_of_document {doc : Document} (hts : Ended ts)
    (h : document rounds ts = .done doc rest) : Spans rules (rules .document) ts [] := by
  obtain ⟨declarations, mid, hd, -⟩ := bind_done_iff.1 h
  obtain ⟨hlines, hmid⟩ := reads_declarations.parsed ts declarations mid hts hd
  exact hlines.append (spans_eof hmid (by simpa using (chain_of_repeatWhile hd).stops))

/-- **The parser accepts exactly its grammar.** A list of tokens in which the end of the text is the
last token, and no token before it, makes a document if and only if the grammar derives it. -/
theorem ofTokens_ok_iff_isDocument {ts : List Token} (hts : TokenStream.Ended ts) :
    (∃ doc, Document.ofTokens ts = .ok doc) ↔ IsDocument ts := by
  rw [IsDocument, ← spans_nil_iff, spans_rule_iff]
  constructor
  · rintro ⟨doc, h⟩
    cases hrun : bounded document ts with
    | done doc' rest => exact spans_of_document hts hrun
    | failed fault rest =>
      rw [Document.ofTokens, hrun] at h
      cases h
  · intro h
    obtain ⟨doc, rest, hrun⟩ := document_of_spans h (Nat.lt_succ_self _)
    refine ⟨doc, ?_⟩
    have hb : bounded document ts = .done doc rest := hrun
    rw [Document.ofTokens, hb]
    rfl

/-- A documented alias with a type parameter, whose type is a union of a tuple and of strings: the
commas that may stand in front of a closing token do so, and a member of the tuple has a range. -/
theorem isDocument_documented_alias :
    let front := [(Token.Kind.newline, "\\n"), (.docComment, "pairs"), (.newline, "\\n"),
      (.type, "type"), (.identifier, "Pair"), (.leftAngle, "<"), (.identifier, "T"), (.comma, ","),
      (.rightAngle, ">"), (.equals, "="), (.leftParen, "("), (.int, "int"), (.atSign, "@"),
      (.integer, "1"), (.rangeExclusive, "..<"), (.float, "2.5"), (.comma, ","),
      (.identifier, "a"), (.doubleColon, "::"), (.identifier, "b"), (.leftAngle, "<"),
      (.identifier, "T"), (.rightAngle, ">"), (.leftBracket, "["), (.keyKey, "%key"),
      (.rightBracket, "]"), (.comma, ","), (.rightParen, ")"), (.pipe, "|"),
      (.stringType, "string"), (.newline, "\\n")].map fun t => Token.mk t.1 t.2 .start
    let ts := front ++ [Token.eofAt .start]
    TokenStream.Ended ts ∧ (∃ doc, Document.ofTokens ts = .ok doc) ∧ IsDocument ts := by
  intro front ts
  have hts : TokenStream.Ended ts := ⟨front, _, rfl, rfl, by decide⟩
  have hdoc : ∃ doc, Document.ofTokens ts = .ok doc := ⟨_, rfl⟩
  exact ⟨hts, hdoc, (ofTokens_ok_iff_isDocument hts).1 hdoc⟩

end McdocSchema.Grammar
