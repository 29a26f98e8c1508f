import McdocSchema.Proofs.Acceptance

/-!
# Derived documents are parsed

Bodies and documents are sequences of items with line breaks between them, up to a closing token. The
parsers take such a sequence apart in another way than the grammar: a round passes the line breaks in
front of an item as well, and a round in front of the closing token gives nothing. `exists_chain_lines`
carries the one over to the other for both.
-/

namespace McdocSchema.Grammar

open Ebnf Parse TokenStream

variable {α : Type} {ts mid rest : TokenStream} {rounds n : Nat}

/-! ## Items between line breaks -/

theorem skipNewlines_of_spans (h : Spans rules newlines ts rest) (hr : rest ≠ [])
    (hn : rest.current.kind ≠ .newline) : skipNewlines ts = .done () rest := by
  obtain ⟨lines, rfl, hl⟩ := spans_many_kind_iff.1 h
  exact skipNewlines_append hl hr hn

theorem newline_of_spans_newlines (h : Spans rules newlines ts rest) :
    ts = rest ∨ ts.current.kind = .newline ∧ rest.length < ts.length := by
  rcases spans_many_iff_cons.1 h with rfl | ⟨next, hnext, hmany⟩
  · exact .inl rfl
  · have hstarts : Starts rules (kind .newline) (· = .newline) := starts_kind (by rfl)
    obtain ⟨hk, hlt⟩ := hstarts ts next hnext
    exact .inr ⟨hk, Nat.lt_of_le_of_lt hmany.length_le hlt⟩

/-- Items with line breaks around them are the rounds of a chain that ends at the closing token. -/
theorem exists_chain_lines {step : Parse α} {e : Ebnf Rule} {close : Token.Kind}
    {first : Token.Kind → Prop} (hclose : close ≠ .newline) (hfirst : Starts rules e first)
    (hne : ∀ k, first k → k ≠ close)
    (hnone : ∀ ts rest : TokenStream, Spans rules newlines ts rest → rest ≠ [] →
      rest.current.kind = close → ∃ a, step ts = .done a rest)
    (hsome : ∀ ts mid rest : TokenStream, ts.length < n → Spans rules newlines ts mid →
      Spans rules e mid rest → rest ≠ [] → rest.current.kind = close ∨ first rest.current.kind →
      ∃ a, step ts = .done a rest)
    (hlen : ts.length < n) (hlines : Spans rules newlines ts mid)
    (hmany : Spans rules (.many e) mid rest) (hr : rest ≠ []) (hk : rest.current.kind = close) :
    ∃ as, Chain (· != close) step ts as rest ∧ as.length + rest.length ≤ ts.length := by
  have hnil : Chain (· != close) step rest [] rest := .nil (by simpa using hk)
  rw [spans_many_iff] at hmany
  -- Line breaks stand in front of the first item only: behind an item they belong to it.
  induction hmany using Relation.ReflTransGen.head_induction_on generalizing ts with
  | refl =>
    rcases newline_of_spans_newlines hlines with rfl | ⟨hnl, hlt⟩
    · exact ⟨[], hnil, by simp⟩
    · obtain ⟨a, ha⟩ := hnone ts rest hlines hr hk
      have hgo : (ts.current.kind != close) = true := by
        rw [hnl]
        simpa using Ne.symm hclose
      refine ⟨[a], .cons hgo ha hnil, ?_⟩
      simp only [List.length_cons, List.length_nil]
      omega
  | @head mid next hitem hmany ih =>
    have hmany := spans_many_iff.2 hmany
    have hnext : next.current.kind = close ∨ first next.current.kind := by
      rcases spans_many_iff_cons.1 hmany with rfl | ⟨last, hlast, -⟩
      · exact .inl hk
      · exact .inr (hfirst next last hlast).1
    obtain ⟨hstart, hlt⟩ := hfirst mid next hitem
    have hle := hlines.length_le
    have hgo : (ts.current.kind != close) = true := by
      rcases newline_of_spans_newlines hlines with rfl | ⟨hnl, -⟩
      · simpa using hne _ hstart
      · rw [hnl]
        simpa using Ne.symm hclose
    obtain ⟨a, ha⟩ := hsome ts mid next hlen hlines hitem (Spans.ne_nil hmany hr) hnext
    obtain ⟨as, hchain, hl⟩ := ih (by omega) (spans_many_nil next)
    refine ⟨a :: as, .cons hgo ha hchain, ?_⟩
    rw [List.length_cons]
    omega

/-! ## Bodies -/

/-- The kinds of tokens with which a member of a body starts. -/
def startsMember (k : Token.Kind) : Prop :=
  k = .docComment ∨ k = .ellipsis ∨ k = .identifier

/-- The kinds of tokens that may follow what is written of a member in front of its comma. -/
def endsMember (k : Token.Kind) : Prop :=
  k = .comma ∨ k = .newline ∨ k = .rightBrace ∨ startsMember k

/-- A member of a body, with its documentation, its comma and the line breaks behind them. -/
def memberLines (item : Ebnf Rule) : Ebnf Rule :=
  opt (kind .docComment ++ newlines) ++ item ++ opt (kind .comma) ++ newlines

theorem endsMember_of_close {k : Token.Kind} (h : k = .rightBrace ∨ startsMember k) :
    endsMember k ∧ k ≠ .newline ∧ k ≠ .comma := by
  refine ⟨.inr (.inr h), ?_, ?_⟩
  · rintro rfl
    simp [startsMember] at h
  · rintro rfl
    simp [startsMember] at h

/-- A member is read, and its item is what the parser of items gives where it starts. -/
theorem member_of_spans {item : Option String → Parse α} {e : Ebnf Rule}
    (hitem : ∀ doc, Accepts (item doc) e endsMember n) (hstart : Starts rules e startsMember)
    (hnd : Starts rules e (· ≠ .docComment)) (hlen : ts.length < n)
    (hlines : Spans rules newlines ts mid) (h : Spans rules (memberLines e) mid rest)
    (hr : rest ≠ []) (hf : rest.current.kind = .rightBrace ∨ startsMember rest.current.kind) :
    ∃ a doc afterDoc afterItem, Spans rules e afterDoc afterItem ∧
      item doc afterDoc = .done a afterItem ∧ member item ts = .done (some a) rest := by
  obtain ⟨hend, hnl, hcm⟩ := endsMember_of_close hf
  obtain ⟨afterComma, h, hbreaks⟩ := spans_append_iff.1 h
  obtain ⟨afterItem, h, hcomma⟩ := spans_append_iff.1 h
  obtain ⟨afterDoc, hdoc, hi⟩ := spans_append_iff.1 h
  have hneComma : afterComma ≠ [] := Spans.ne_nil hbreaks hr
  have hneItem : afterItem ≠ [] := Spans.ne_nil hcomma hneComma
  have hneDoc : afterDoc ≠ [] := Spans.ne_nil hi hneItem
  have hneMid : mid ≠ [] := Spans.ne_nil hdoc hneDoc
  obtain ⟨hstartDoc, -⟩ := hstart afterDoc afterItem hi
  obtain ⟨hnotDoc, -⟩ := hnd afterDoc afterItem hi
  obtain ⟨-, hnlDoc, -⟩ := endsMember_of_close (.inr hstartDoc)
  -- What follows the comma, and what follows the item.
  have hcommaKind : afterComma.current.kind ≠ .comma ∧ endsMember afterComma.current.kind := by
    rcases newline_of_spans_newlines hbreaks with rfl | ⟨hk, -⟩
    · exact ⟨hcm, hend⟩
    · rw [hk]
      exact ⟨by decide, .inr (.inl rfl)⟩
  have hitemKind : endsMember afterItem.current.kind := by
    rcases spans_opt_iff.1 hcomma with hc | rfl
    · obtain ⟨c, rfl, hck⟩ := spans_kind_iff.1 hc
      exact .inl hck
    · exact hcommaKind.2
  have heat : ∃ eaten, eat .comma afterItem = .done eaten afterComma := by
    rcases spans_opt_iff.1 hcomma with hc | rfl
    · obtain ⟨c, rfl, hck⟩ := spans_kind_iff.1 hc
      exact ⟨true, eat_comma_cons hck hneComma⟩
    · exact ⟨false, eat_of_ne hcommaKind.1⟩
  have hmid : mid.current.kind ≠ .rightBrace ∧ mid.current.kind ≠ .newline ∧
      ∃ doc, memberDoc mid = .done doc afterDoc := by
    rcases spans_opt_iff.1 hdoc with hd | rfl
    · obtain ⟨next, hcomment, hbreak⟩ := spans_append_iff.1 hd
      obtain ⟨t, rfl, ht⟩ := spans_kind_iff.1 hcomment
      have hn := skipNewlines_of_spans hbreak hneDoc hnlDoc
      rw [current_cons, ht]
      exact ⟨by decide, by decide, _, memberDoc_cons ht (Spans.ne_nil hbreak hneDoc) hn⟩
    · refine ⟨?_, hnlDoc, none, memberDoc_of_ne hnotDoc⟩
      intro hb
      rw [hb] at hstartDoc
      simp [startsMember] at hstartDoc
  obtain ⟨hbrace, hnlMid, doc, hmd⟩ := hmid
  obtain ⟨eaten, heaten⟩ := heat
  have hle₁ := hlines.length_le
  have hle₂ := hdoc.length_le
  have hskip := skipNewlines_of_spans hlines hneMid hnlMid
  obtain ⟨a, ha⟩ := hitem doc afterDoc afterItem (by omega) hi hneItem hitemKind
  have hbreak := skipNewlines_of_spans hbreaks hr hnl
  exact ⟨a, doc, afterDoc, afterItem, hi, ha, member_some hskip hbrace hmd ha heaten hbreak⟩

theorem accepts_body {item : Option String → Parse α} {e : Ebnf Rule} (hn : n ≤ rounds)
    (hitem : ∀ doc, Accepts (item doc) e endsMember n) (hstart : Starts rules e startsMember)
    (hnd : Starts rules e (· ≠ .docComment)) :
    Accepts (Parse.body rounds item) (Grammar.body e) (fun _ => True) n := by
  intro ts rest hlen h hr _
  obtain ⟨mid, h, hclose⟩ := spans_append_iff.1 h
  obtain ⟨next, h, hmany⟩ := spans_append_iff.1 h
  obtain ⟨last, hopen, hlines⟩ := spans_append_iff.1 h
  obtain ⟨t, rfl, ht⟩ := spans_kind_iff.1 hopen
  obtain ⟨u, rfl, hu⟩ := spans_kind_iff.1 hclose
  have hfirst : Starts rules (memberLines e) startsMember :=
    (Starts.opt_append (starts_kind (.inl rfl)).append hstart).append.append
  have hnext : next ≠ [] := Spans.ne_nil hmany (by simp)
  rw [List.length_cons] at hlen
  obtain ⟨members, hchain, hl⟩ := exists_chain_lines (by decide) hfirst
    (fun k hk hb => by simp [startsMember, hb] at hk)
    (fun ts rest hs hr hk =>
      ⟨none, member_none (skipNewlines_of_spans hs hr (by rw [hk]; decide)) hk⟩)
    (fun ts mid rest hlen hlines h hr hf => by
      obtain ⟨a, _, _, _, -, -, hrun⟩ := member_of_spans hitem hstart hnd hlen hlines h hr hf
      exact ⟨some a, hrun⟩)
    (Nat.lt_of_succ_lt hlen) hlines hmany (by simp) hu
  exact ⟨_, body_cons ht (Spans.ne_nil hlines hnext) hchain (by omega) hu hr⟩

/-! ## Structs and enumerations -/

theorem accepts_structItem (doc : Option String) :
    Accepts (Parse.structItem (typeExpr n) doc) Grammar.structItem endsMember n := by
  intro ts rest hlen h hr hf
  have hcont : continuesType rest.current.kind = false := by
    rcases hf with h | h | h | h | h | h <;> rw [h] <;> rfl
  rcases spans_or_iff.1 h with h | h
  · obtain ⟨mid, hdots, htype⟩ := spans_append_iff.1 h
    obtain ⟨t, rfl, ht⟩ := spans_kind_iff.1 hdots
    obtain ⟨type, hi⟩ := accepts_typeExpr n mid rest (Nat.lt_of_succ_lt hlen) htype hr hcont
    exact ⟨_, structItem_spread ht (Spans.ne_nil htype hr) hi⟩
  · obtain ⟨mid, h, htype⟩ := spans_append_iff.1 h
    obtain ⟨next, h, hcolon⟩ := spans_append_iff.1 h
    obtain ⟨last, hname, hquestion⟩ := spans_append_iff.1 h
    obtain ⟨t, rfl, ht⟩ := spans_kind_iff.1 hname
    obtain ⟨u, rfl, hu⟩ := spans_kind_iff.1 hcolon
    have hne : mid ≠ [] := Spans.ne_nil htype hr
    have hle := hquestion.length_le
    simp only [List.length_cons] at hlen hle
    obtain ⟨type, hi⟩ := accepts_typeExpr n mid rest (by omega) htype hr hcont
    rcases spans_opt_iff.1 hquestion with hq | rfl
    · obtain ⟨v, rfl, hv⟩ := spans_kind_iff.1 hq
      exact ⟨_, structItem_optional ht hv hu hne hi⟩
    · exact ⟨_, structItem_field ht hu hne hi⟩

theorem starts_structItem :
    Starts rules Grammar.structItem fun k => k = .ellipsis ∨ k = .identifier :=
  (starts_kind (.inl rfl)).append.or (starts_kind (.inr rfl)).append.append.append

theorem accepts_structType (hn : n ≤ rounds) :
    Accepts (structType rounds) (.rule .struct) (fun _ => True) n := by
  intro ts rest hlen h hr _
  obtain ⟨mid, hword, hbody⟩ := spans_append_iff.1 (spans_rule_iff.1 h)
  obtain ⟨t, rfl, ht⟩ := spans_kind_iff.1 hword
  have hitem : ∀ doc, Accepts (Parse.structItem (typeExpr rounds) doc) Grammar.structItem
      endsMember n := fun doc ts rest hlen =>
    accepts_structItem doc ts rest (Nat.lt_of_lt_of_le hlen hn)
  obtain ⟨members, hm⟩ := accepts_body hn hitem (starts_structItem.mono fun _ h => .inr h)
    (starts_structItem.mono fun k h hd => by simp [hd] at h) mid rest (Nat.lt_of_succ_lt hlen)
    hbody hr trivial
  exact ⟨_, structType_cons ht (Spans.ne_nil hbody hr) hm⟩

theorem readInteger_of_isVariantValue {t : Token} (h : isVariantValue t = true) :
    t.kind = .integer ∧ ∃ x, Number.readInteger t.value = .ok x := by
  rw [isVariantValue, Bool.and_eq_true] at h
  refine ⟨eq_of_beq h.1, ?_⟩
  cases hx : Number.readInteger t.value with
  | ok x => exact ⟨x, rfl⟩
  | error fault =>
    rw [hx] at h
    cases h.2

theorem accepts_variant (doc : Option String) :
    Accepts (Parse.variant doc) Grammar.variant endsMember n := by
  intro ts rest hlen h hr hf
  obtain ⟨mid, hname, hvalue⟩ := spans_append_iff.1 h
  obtain ⟨t, rfl, ht⟩ := spans_kind_iff.1 hname
  rcases spans_opt_iff.1 hvalue with hv | rfl
  · obtain ⟨next, hequals, hnumber⟩ := spans_append_iff.1 hv
    obtain ⟨u, rfl, hu⟩ := spans_kind_iff.1 hequals
    obtain ⟨v, rfl, hint⟩ := spans_token_iff.1 hnumber
    obtain ⟨hk, x, hx⟩ := readInteger_of_isVariantValue hint
    exact ⟨_, variant_value ht hu hk hx hr⟩
  · refine ⟨_, variant_plain ht hr ?_⟩
    rcases hf with h | h | h | h | h | h <;> rw [h] <;> decide

theorem accepts_enumType (hn : n ≤ rounds) :
    Accepts (enumType rounds) (.rule .enum) (fun _ => True) n := by
  intro ts rest hlen h hr _
  obtain ⟨mid, hword, hbody⟩ := spans_append_iff.1 (spans_rule_iff.1 h)
  obtain ⟨t, rfl, ht⟩ := spans_kind_iff.1 hword
  have hstarts : Starts rules Grammar.variant (· = .identifier) := (starts_kind (by rfl)).append
  obtain ⟨variants, hv⟩ := accepts_body hn accepts_variant
    (hstarts.mono fun _ h => .inr (.inr h)) (hstarts.mono fun k h hd => by simp [hd] at h)
    mid rest (Nat.lt_of_succ_lt hlen) hbody hr trivial
  exact ⟨_, enumType_cons ht (Spans.ne_nil hbody hr) hv⟩

/-! ## Aliases and dispatches -/

theorem accepts_identifier {cause : Token.Kind → ParseCause} :
    Accepts (consumeOr .identifier cause) (kind .identifier) (fun _ => True) n := by
  intro ts rest _ h hr _
  obtain ⟨t, rfl, ht⟩ := spans_kind_iff.1 h
  exact ⟨t, consumeOr_cons ht hr⟩

theorem accepts_typeParameters (hn : n ≤ rounds) :
    Accepts (typeParameters rounds)
      (opt (kind .leftAngle ++ commaList (kind .identifier) ++ kind .rightAngle))
      (· ≠ .leftAngle) n := by
  rw [typeParameters_eq_bracketed]
  exact accepts_bracketed hn accepts_identifier (starts_kind (by decide)) trivial trivial
    (by decide)

theorem accepts_dispatchIndices (hn : n ≤ rounds) :
    Accepts (dispatchIndices rounds)
      (opt (kind .leftBracket ++ commaList (kind .identifier) ++ kind .rightBracket))
      (· ≠ .leftBracket) n := by
  rw [dispatchIndices_eq_bracketed]
  exact accepts_bracketed hn accepts_identifier (starts_kind (by decide)) trivial trivial
    (by decide)

/-- A word, a name, names between brackets, a sign that opens no such list, and a type. -/
theorem accepts_named {word sign opener : Token.Kind} {names : Parse (List String)} {e : Ebnf Rule}
    {f : Position → String → List String → TypeExpr → α} (hn : n ≤ rounds)
    (hnames : Accepts names e (· ≠ opener) n) (hsign : sign ≠ opener) :
    Accepts (named rounds word sign names f)
      (kind word ++ kind .identifier ++ e ++ kind sign ++ rule .type) (continuesType · = false) n := by
  intro ts rest hlen h hr hf
  obtain ⟨mid, h, htype⟩ := spans_append_iff.1 h
  obtain ⟨next, h, hto⟩ := spans_append_iff.1 h
  obtain ⟨last, h, hlist⟩ := spans_append_iff.1 h
  obtain ⟨first, hword, hname⟩ := spans_append_iff.1 h
  obtain ⟨t, rfl, ht⟩ := spans_kind_iff.1 hword
  obtain ⟨u, rfl, hu⟩ := spans_kind_iff.1 hname
  obtain ⟨v, rfl, hv⟩ := spans_kind_iff.1 hto
  have hle := hlist.length_le
  simp only [List.length_cons] at hlen hle
  obtain ⟨found, hp⟩ := hnames last _ (by omega) hlist (by simp) (by rwa [current_cons, hv])
  obtain ⟨target, hi⟩ := accepts_typeExpr rounds mid rest (by omega) htype hr hf
  exact ⟨_, named_cons ht hu (Spans.ne_nil hlist (by simp)) hp hv (Spans.ne_nil htype hr) hi⟩

theorem accepts_typeAlias (hn : n ≤ rounds) :
    Accepts (typeAlias rounds) (.rule .alias) (continuesType · = false) n := by
  intro ts rest hlen h
  rw [typeAlias_eq_named]
  exact accepts_named hn (accepts_typeParameters hn) (by decide) ts rest hlen (spans_rule_iff.1 h)

theorem accepts_dispatchStatement (hn : n ≤ rounds) :
    Accepts (dispatchStatement rounds) (.rule .dispatch) (continuesType · = false) n := by
  intro ts rest hlen h
  exact accepts_named hn (accepts_dispatchIndices hn) (by decide) ts rest hlen (spans_rule_iff.1 h)

/-! ## Documents -/

/-- The kinds of tokens with which a declaration starts, an import included. -/
def startsDeclaration (k : Token.Kind) : Prop :=
  k = .struct ∨ k = .enum ∨ k = .type ∨ k = .dispatch ∨ k = .use

/-- The kinds of tokens that may follow a declaration. -/
def endsDeclaration (k : Token.Kind) : Prop :=
  k = .newline ∨ k = .eof ∨ k = .docComment ∨ startsDeclaration k

/-- A declaration with its documentation and the line breaks behind them. -/
def declarationLines : Ebnf Rule :=
  opt (oneOrMore (kind .docComment) ++ newlines) ++ rule .declaration ++ newlines

theorem starts_declaration : Starts rules (.rule .declaration) startsDeclaration := by
  have hstruct : Starts rules (.rule .struct) startsDeclaration :=
    (starts_kind (.inl rfl)).append.rule
  have henum : Starts rules (.rule .enum) startsDeclaration :=
    (starts_kind (.inr (.inl rfl))).append.rule
  have halias : Starts rules (.rule .alias) startsDeclaration :=
    (starts_kind (.inr (.inr (.inl rfl)))).append.append.append.append.rule
  have hdispatch : Starts rules (.rule .dispatch) startsDeclaration :=
    (starts_kind (.inr (.inr (.inr (.inl rfl))))).append.append.append.append.rule
  exact (((hstruct.or henum).or halias).or hdispatch).rule

theorem starts_declarationLines :
    Starts rules declarationLines fun k => k = .docComment ∨ startsDeclaration k :=
  (Starts.opt_append (starts_kind (.inl rfl)).append.append
    (starts_declaration.mono fun _ h => .inr h)).append

theorem accepts_declaration (hn : n ≤ rounds) (doc : Option String) :
    Accepts (declaration rounds doc) (.rule .declaration) endsDeclaration n := by
  intro ts rest hlen h hr hf
  have hcont : continuesType rest.current.kind = false := by
    rcases hf with h | h | h | h | h | h | h | h <;> rw [h] <;> rfl
  rw [spans_rule_iff, rules] at h
  simp only [spans_or_iff] at h
  rcases h with ((h | h) | h) | h
  · have hstarts : Starts rules (.rule .struct) (· = .struct) := (starts_kind (by rfl)).append.rule
    obtain ⟨type, ht⟩ := accepts_structType hn ts rest hlen h hr trivial
    exact ⟨_, declaration_struct (hstarts ts rest h).1 ht⟩
  · have hstarts : Starts rules (.rule .enum) (· = .enum) := (starts_kind (by rfl)).append.rule
    obtain ⟨type, ht⟩ := accepts_enumType hn ts rest hlen h hr trivial
    exact ⟨_, declaration_enum (hstarts ts rest h).1 ht⟩
  · have hstarts : Starts rules (.rule .alias) (· = .type) :=
      (starts_kind (by rfl)).append.append.append.append.rule
    obtain ⟨decl, hd⟩ := accepts_typeAlias hn ts rest hlen h hr hcont
    exact ⟨_, declaration_alias (hstarts ts rest h).1 hd⟩
  · have hstarts : Starts rules (.rule .dispatch) (· = .dispatch) :=
      (starts_kind (by rfl)).append.append.append.append.rule
    obtain ⟨decl, hd⟩ := accepts_dispatchStatement hn ts rest hlen h hr hcont
    exact ⟨_, declaration_dispatch (hstarts ts rest h).1 hd⟩

theorem ne_of_startsDeclaration {k : Token.Kind} (h : startsDeclaration k) :
    k ≠ .newline ∧ k ≠ .docComment ∧ k ≠ .eof := by
  rcases h with rfl | rfl | rfl | rfl | rfl <;> decide

theorem declarationDoc_of_spans
    (h : Spans rules (opt (oneOrMore (kind .docComment) ++ newlines)) ts rest) (hr : rest ≠ [])
    (hf : startsDeclaration rest.current.kind) :
    ts.current.kind ≠ .eof ∧ ts.current.kind ≠ .newline ∧
      ∃ doc, declarationDoc ts = .done doc rest := by
  obtain ⟨hnl, hnotDoc, hnotEof⟩ := ne_of_startsDeclaration hf
  rcases spans_opt_iff.1 h with h | rfl
  · obtain ⟨afterLines, hsome, hbreak⟩ := spans_append_iff.1 h
    obtain ⟨next, hfirst, hmany⟩ := spans_append_iff.1 hsome
    obtain ⟨docs, hdocs, hall⟩ := spans_many_kind_iff.1 (hfirst.many_cons hmany)
    have hneLines : afterLines ≠ [] := Spans.ne_nil hbreak hr
    have hkLines : afterLines.current.kind ≠ .docComment := by
      rcases newline_of_spans_newlines hbreak with rfl | ⟨hk, -⟩
      · exact hnotDoc
      · rw [hk]
        decide
    have hlinesRun := docLines_append hall hneLines hkLines
    rw [← hdocs] at hlinesRun
    obtain ⟨t, rfl, ht⟩ := spans_kind_iff.1 hfirst
    have hskip := skipNewlines_of_spans hbreak hr hnl
    refine ⟨?_, ?_, _, declarationDoc_of_lines ht hlinesRun hskip⟩
    · rw [current_cons, ht]
      decide
    · rw [current_cons, ht]
      decide
  · exact ⟨hnotEof, hnl, none, declarationDoc_of_ne hnotDoc⟩

theorem declaration?_of_spans (hn : n ≤ rounds) (hlen : ts.length < n)
    (hlines : Spans rules newlines ts mid) (h : Spans rules declarationLines mid rest)
    (hr : rest ≠ [])
    (hf : rest.current.kind = .eof ∨
      rest.current.kind = .docComment ∨ startsDeclaration rest.current.kind) :
    ∃ decl, declaration? rounds ts = .done (some decl) rest := by
  obtain ⟨afterDecl, h, hbreaks⟩ := spans_append_iff.1 h
  obtain ⟨afterDoc, hdoc, hdecl⟩ := spans_append_iff.1 h
  have hneDecl : afterDecl ≠ [] := Spans.ne_nil hbreaks hr
  have hneDoc : afterDoc ≠ [] := Spans.ne_nil hdecl hneDecl
  have hneMid : mid ≠ [] := Spans.ne_nil hdoc hneDoc
  obtain ⟨hstart, -⟩ := starts_declaration afterDoc afterDecl hdecl
  have hnl : rest.current.kind ≠ .newline := by
    rcases hf with h | h | h
    · rw [h]
      decide
    · rw [h]
      decide
    · exact (ne_of_startsDeclaration h).1
  have hend : endsDeclaration afterDecl.current.kind := by
    rcases newline_of_spans_newlines hbreaks with rfl | ⟨hk, -⟩
    · exact .inr hf
    · exact .inl hk
  obtain ⟨hneEof, hnlMid, doc, hmd⟩ := declarationDoc_of_spans hdoc hneDoc hstart
  have hle₁ := hlines.length_le
  have hle₂ := hdoc.length_le
  have hskip := skipNewlines_of_spans hlines hneMid hnlMid
  obtain ⟨decl, hd⟩ := accepts_declaration hn doc afterDoc afterDecl (by omega) hdecl hneDecl hend
  have hbreak := skipNewlines_of_spans hbreaks hr hnl
  exact ⟨_, declaration?_some hskip hneEof hmd hd hbreak⟩

/-- A derived document is parsed up to the end of the text. -/
theorem document_of_spans (h : Spans rules (rules .document) ts []) (hlen : ts.length < rounds) :
    ∃ doc rest, document rounds ts = .done doc rest := by
  obtain ⟨mid, h, heof⟩ := spans_append_iff.1 h
  obtain ⟨next, hlines, hmany⟩ := spans_append_iff.1 h
  obtain ⟨e, rfl, he⟩ := spans_kind_iff.1 heof
  obtain ⟨declarations, hchain, hl⟩ := exists_chain_lines (by decide) starts_declarationLines
    (fun k hk hb => by simp [startsDeclaration, hb] at hk)
    (fun ts rest hs hr hk =>
      ⟨none, declaration?_none (skipNewlines_of_spans hs hr (by rw [hk]; decide)) hk⟩)
    (fun ts mid rest hlen hlines h hr hf => by
      obtain ⟨decl, hrun⟩ := declaration?_of_spans (Nat.le_refl rounds) hlen hlines h hr hf
      exact ⟨some decl, hrun⟩)
    hlen hlines hmany (by simp) he
  exact ⟨_, _, document_of_chain hchain (by omega)⟩

end McdocSchema.Grammar
