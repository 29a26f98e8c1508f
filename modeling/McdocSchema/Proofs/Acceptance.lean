import McdocSchema.Proofs.DeclarationRuns
import McdocSchema.Proofs.Grammar

/-!
# What the grammar derives is parsed

Every parser decides by the kind of the current token. `Accepts p e follow n` says that the parser `p` passes
what the expression `e` derives in front of a token whose kind satisfies `follow`, in streams shorter than
`n`. The bound is the one on nesting and repetition: every round and every level passes a token.
-/

namespace McdocSchema.Grammar

open Ebnf Parse TokenStream

/-! ## Tokens that start and continue a type -/

def startsType : Token.Kind → Bool
  | .any | .booleanType | .stringType | .byte | .short | .int | .long | .floatType | .double
  | .integer | .float | .string | .boolean | .leftBracket | .leftParen | .identifier => true
  | _ => false

/-- The kinds of tokens that an alternative of a type goes on with. -/
def continuesPrimary : Token.Kind → Bool
  | .atSign | .integer | .float | .range | .rangeExclusive | .exclusiveRange
  | .exclusiveRangeExclusive | .doubleColon | .leftAngle | .leftBracket => true
  | _ => false

/-- The kinds of tokens that a type goes on with. -/
def continuesType (k : Token.Kind) : Bool :=
  continuesPrimary k || k == .pipe

variable {α : Type} {ts rest : TokenStream} {rounds n : Nat}
variable {k : Token.Kind} {t : Token}

/-- A token of one of the kinds `k` is not of a kind that is none of them. -/
theorem ne_of_continuesPrimary {k k' : Token.Kind} (hk : continuesPrimary k = false)
    (hk' : continuesPrimary k' = true) : k ≠ k' := by
  rintro rfl
  rw [hk] at hk'
  cases hk'

theorem isNumber_eq_false (hk : continuesPrimary k = false) :
    k.isNumber = false := by
  revert hk
  cases k <;> decide

theorem continuesPrimary_of_continuesType (hk : continuesType k = false) :
    continuesPrimary k = false ∧ k ≠ .pipe := by
  rw [continuesType, Bool.or_eq_false_iff] at hk
  exact ⟨hk.1, by simpa using hk.2⟩

theorem startsType_of_isNumericWord (h : isNumericWord t = true) :
    startsType t.kind = true := by
  revert h
  unfold isNumericWord
  cases t.kind <;> decide

theorem startsType_of_isLiteral (h : isLiteral t = true) :
    startsType t.kind = true := by
  revert h
  unfold isLiteral
  cases t.kind <;> decide

theorem starts_primary : Starts rules (.rule .primary) (startsType · = true) := by
  have hparen : Starts rules parenthesized (startsType · = true) :=
    ((starts_kind (by rfl)).append.or (starts_kind (by rfl)).append.append).or
      (starts_kind (by rfl)).append.append.append
  have hreference : Starts rules reference (startsType · = true) :=
    (starts_kind (by rfl)).append.append.append
  apply Starts.rule
  exact (((((((starts_kind (by rfl)).or (starts_kind (by rfl))).or (starts_kind (by rfl)).append).or
    (starts_token fun _ => startsType_of_isNumericWord).append).or
    (starts_token fun _ => startsType_of_isLiteral)).or
    (starts_kind (by rfl)).append.append.append).or hparen).or hreference

theorem starts_type : Starts rules (.rule .type) (startsType · = true) :=
  starts_primary.append.rule

/-! ## Parsers that accept an expression -/

variable {e : Ebnf Rule} {follow : Token.Kind → Prop}

/-- The parser passes what the expression derives in front of a token with the property `follow`, in
streams shorter than `n`. -/
def Accepts (p : Parse α) (e : Ebnf Rule) (follow : Token.Kind → Prop) (n : Nat) : Prop :=
  ∀ ts rest : TokenStream, ts.length < n → Spans rules e ts rest → rest ≠ [] → follow rest.current.kind →
    ∃ a, p ts = .done a rest

theorem Spans.ne_nil (h : Spans rules e ts rest) (hr : rest ≠ []) : ts ≠ [] := by
  obtain ⟨w, rfl, -⟩ := h
  simp [hr]

/-- The items of a repetition are rounds of a chain, in front of the rounds that follow them. -/
theorem exists_chain_append {step : Parse α} {goesOn : Token.Kind → Bool}
    {mid : TokenStream} {bs : List α} (hstep : Accepts step e follow n)
    (hfirst : Starts rules e fun k => goesOn k = true ∧ follow k) (hlen : ts.length < n)
    (h : Spans rules (.many e) ts mid) (hm : mid ≠ []) (hf : follow mid.current.kind)
    (htail : Chain goesOn step mid bs rest) :
    ∃ as, Chain goesOn step ts (as ++ bs) rest ∧ as.length + mid.length ≤ ts.length := by
  rw [spans_many_iff] at h
  induction h using Relation.ReflTransGen.head_induction_on with
  | refl => exact ⟨[], htail, by simp⟩
  | @head ts next hitem hmany ih =>
    have hmany := spans_many_iff.2 hmany
    have hnext : follow next.current.kind := by
      rcases spans_many_iff_cons.1 hmany with rfl | ⟨last, hlast, -⟩
      · exact hf
      · exact (hfirst next last hlast).1.2
    obtain ⟨⟨hgo, -⟩, hlt⟩ := hfirst ts next hitem
    obtain ⟨a, ha⟩ := hstep ts next hlen hitem (Spans.ne_nil hmany hm) hnext
    obtain ⟨as, hc, has⟩ := ih (by omega)
    refine ⟨a :: as, .cons hgo ha hc, ?_⟩
    rw [List.length_cons]
    omega

/-- The items of a repetition are the rounds of a chain. -/
theorem exists_chain {step : Parse α} {goesOn : Token.Kind → Bool}
    (hstep : Accepts step e follow n)
    (hfirst : Starts rules e fun k => goesOn k = true ∧ follow k) (hlen : ts.length < n)
    (h : Spans rules (.many e) ts rest) (hr : rest ≠ []) (hf : follow rest.current.kind)
    (hg : goesOn rest.current.kind = false) :
    ∃ as, Chain goesOn step ts as rest ∧ as.length + rest.length ≤ ts.length := by
  obtain ⟨as, hc, hl⟩ := exists_chain_append hstep hfirst hlen h hr hf (.nil hg)
  rw [List.append_nil] at hc
  exact ⟨as, hc, hl⟩

/-! ## Ranges -/

theorem readReal_of_isBound (h : isBound t = true) :
    t.kind.isNumber = true ∧ ∃ x, Number.readReal t.value = .ok x := by
  rw [isBound, Bool.and_eq_true] at h
  refine ⟨h.1, ?_⟩
  cases hx : Number.readReal t.value with
  | ok x => exact ⟨x, rfl⟩
  | error fault =>
    rw [hx] at h
    cases h.2

theorem accepts_bound? : Accepts bound? (opt (token isBound)) (·.isNumber = false) n := by
  intro ts rest _ h hr hf
  rcases spans_opt_iff.1 h with h | rfl
  · obtain ⟨t, rfl, ht⟩ := spans_token_iff.1 h
    obtain ⟨hk, x, hx⟩ := readReal_of_isBound ht
    exact ⟨some x, bound?_cons hk hx hr⟩
  · exact ⟨none, bound?_of_not_isNumber hf⟩

theorem exists_cons_of_spans_or {k k' : Token.Kind}
    (h : Spans rules (kind k ||| kind k') ts rest) :
    ∃ t, ts = t :: rest ∧ (t.kind = k ∨ t.kind = k') := by
  rcases spans_or_iff.1 h with h | h
  · obtain ⟨t, rfl, ht⟩ := spans_kind_iff.1 h
    exact ⟨t, rfl, .inl ht⟩
  · obtain ⟨t, rfl, ht⟩ := spans_kind_iff.1 h
    exact ⟨t, rfl, .inr ht⟩

theorem accepts_numberRange : Accepts numberRange bounds (continuesPrimary · = false) n := by
  intro ts rest hlen h hr hf
  have hnum := isNumber_eq_false hf
  rcases spans_opt_iff.1 h with h | rfl
  · rcases spans_or_iff.1 h with h | h
    · obtain ⟨mid, hmin, hd⟩ := spans_append_iff.1 h
      obtain ⟨t, rfl, ht⟩ := spans_token_iff.1 hmin
      obtain ⟨hk, x, hx⟩ := readReal_of_isBound ht
      rcases spans_opt_iff.1 hd with hd | rfl
      · obtain ⟨next, hd, hmax⟩ := spans_append_iff.1 hd
        obtain ⟨u, rfl, hu⟩ := exists_cons_of_spans_or hd
        obtain ⟨y, hy⟩ := accepts_bound? next rest (Nat.lt_succ_self _) hmax hr hnum
        exact ⟨_, numberRange_min_max hk hx hu (Spans.ne_nil hmax hr) hy⟩
      · exact ⟨_, numberRange_min hk hx hr (ne_of_continuesPrimary hf rfl)
          (ne_of_continuesPrimary hf rfl)⟩
    · obtain ⟨mid, hd, hmax⟩ := spans_append_iff.1 h
      obtain ⟨u, rfl, hu⟩ := exists_cons_of_spans_or hd
      obtain ⟨y, hy⟩ := accepts_bound? mid rest (Nat.lt_succ_self _) hmax hr hnum
      exact ⟨_, numberRange_max hu (Spans.ne_nil hmax hr) hy⟩
  · exact ⟨_, numberRange_none hnum (ne_of_continuesPrimary hf rfl)
      (ne_of_continuesPrimary hf rfl)⟩

theorem accepts_range? : Accepts range? (opt (rule .range)) (continuesPrimary · = false) n := by
  intro ts rest hlen h hr hf
  rcases spans_opt_iff.1 h with h | rfl
  · obtain ⟨mid, hat, hb⟩ := spans_append_iff.1 (spans_rule_iff.1 h)
    obtain ⟨t, rfl, ht⟩ := spans_kind_iff.1 hat
    obtain ⟨r, hrange⟩ := accepts_numberRange mid rest (Nat.lt_succ_self _) hb hr hf
    exact ⟨some r, range?_cons ht (Spans.ne_nil hb hr) hrange⟩
  · exact ⟨none, range?_of_ne (ne_of_continuesPrimary hf rfl)⟩

/-! ## Paths and indices -/

theorem accepts_pathStep :
    Accepts pathStep (kind .doubleColon ++ kind .identifier) (fun _ => True) n := by
  intro ts rest _ h hr _
  obtain ⟨mid, hcolon, hname⟩ := spans_append_iff.1 h
  obtain ⟨t, rfl, -⟩ := spans_kind_iff.1 hcolon
  obtain ⟨u, rfl, hu⟩ := spans_kind_iff.1 hname
  exact ⟨u.value, pathStep_cons hu hr⟩

theorem accepts_path (hn : n ≤ rounds) :
    Accepts (Parse.path rounds) Grammar.path (· ≠ .doubleColon) n := by
  intro ts rest hlen h hr hf
  obtain ⟨mid, hname, hmany⟩ := spans_append_iff.1 h
  obtain ⟨t, rfl, ht⟩ := spans_kind_iff.1 hname
  have hfirst : Starts rules (kind .doubleColon ++ kind .identifier)
      fun k => (k == .doubleColon) = true ∧ True := (starts_kind (by decide)).append
  rw [List.length_cons] at hlen
  obtain ⟨names, hc, hl⟩ := exists_chain accepts_pathStep hfirst (Nat.lt_of_succ_lt hlen) hmany hr
    trivial (by simpa using hf)
  exact ⟨_, path_cons ht (Spans.ne_nil hmany hr) hc (by omega)⟩

theorem accepts_index :
    Accepts index (kind .leftBracket ++ token isIndexKey ++ kind .rightBracket)
      (fun _ => True) n := by
  intro ts rest _ h hr _
  obtain ⟨mid, h, hclose⟩ := spans_append_iff.1 h
  obtain ⟨next, hopen, hkey⟩ := spans_append_iff.1 h
  obtain ⟨t, rfl, -⟩ := spans_kind_iff.1 hopen
  obtain ⟨u, rfl, hu⟩ := spans_token_iff.1 hkey
  obtain ⟨v, rfl, hv⟩ := spans_kind_iff.1 hclose
  refine ⟨_, index_cons ?_ hv hr⟩
  simpa [isIndexKey] using hu

theorem starts_index :
    Starts rules (kind .leftBracket ++ token isIndexKey ++ kind .rightBracket)
      fun k => (k == .leftBracket) = true ∧ True :=
  (starts_kind (by decide)).append.append

/-! ## Lists between commas -/

/-- The items between commas are the rounds of a chain that ends in front of the closing token. -/
theorem exists_chain_commaList {β : Type} {item : Parse α} {close : Token.Kind}
    (cause : ParseCause) (f : α → β)
    (hitem : Accepts item e follow n) (hfirst : Starts rules e (· ≠ close))
    (hcomma : follow .comma) (hclose : follow close) (hne : close ≠ .comma) (hlen : ts.length < n)
    (h : Spans rules (commaList e) ts rest) (hr : rest ≠ []) (hk : rest.current.kind = close) :
    ∃ bs, Chain (· != close) (listStep close cause item f) ts bs rest ∧
      bs.length + rest.length ≤ ts.length := by
  have hnil : Chain (· != close) (listStep close cause item f) rest [] rest :=
    .nil (by simpa using hk)
  rcases spans_opt_iff.1 h with hlist | rfl
  · obtain ⟨mid, hfront, htail⟩ := spans_append_iff.1 hlist
    obtain ⟨next, hi, hmany⟩ := spans_append_iff.1 hfront
    rw [spans_many_iff] at hmany
    clear h hlist hfront
    -- The chain goes back from the last item; `ts` is where the item in front of `next` starts.
    induction hmany using Relation.ReflTransGen.head_induction_on generalizing ts with
    | refl =>
      obtain ⟨hstart, hlt⟩ := hfirst ts mid hi
      rcases spans_opt_iff.1 htail with hcm | rfl
      · obtain ⟨c, rfl, hc⟩ := spans_kind_iff.1 hcm
        obtain ⟨a, ha⟩ := hitem ts _ hlen hi (by simp) (by rwa [current_cons, hc])
        refine ⟨[f a], .cons (by simpa using hstart) (listStep_comma ha hc hr) hnil, ?_⟩
        simp only [List.length_cons, List.length_nil] at hlt ⊢
        omega
      · obtain ⟨a, ha⟩ := hitem ts _ hlen hi hr (by rwa [hk])
        refine ⟨[f a], .cons (by simpa using hstart) (listStep_close ha hk hne) hnil, ?_⟩
        simp only [List.length_cons, List.length_nil]
        omega
    | @head next last hstep hmany ih =>
      obtain ⟨behindComma, hcm, hi'⟩ := spans_append_iff.1 hstep
      obtain ⟨c, rfl, hc⟩ := spans_kind_iff.1 hcm
      obtain ⟨hstart, hlt⟩ := hfirst ts _ hi
      rw [List.length_cons] at hlt
      have hlast : last ≠ [] :=
        Spans.ne_nil (spans_many_iff.2 hmany) (Spans.ne_nil htail hr)
      obtain ⟨a, ha⟩ := hitem ts _ hlen hi (by simp) (by rwa [current_cons, hc])
      obtain ⟨bs, hchain, hbs⟩ := ih (by omega) hi'
      refine ⟨f a :: bs, .cons (by simpa using hstart)
        (listStep_comma ha hc (Spans.ne_nil hi' hlast)) hchain, ?_⟩
      rw [List.length_cons]
      omega
  · exact ⟨[], hnil, by simp⟩

theorem accepts_bracketed {β : Type} {item : Parse α} {f : α → β}
    {opening close : Token.Kind} {cause : ParseCause} (hn : n ≤ rounds)
    (hitem : Accepts item e follow n) (hfirst : Starts rules e (· ≠ close))
    (hcomma : follow .comma) (hclose : follow close) (hne : close ≠ .comma) :
    Accepts (bracketed rounds opening close cause item f)
      (opt (kind opening ++ commaList e ++ kind close)) (· ≠ opening) n := by
  intro ts rest hlen h hr hf
  rcases spans_opt_iff.1 h with h | rfl
  · obtain ⟨mid, h, hend⟩ := spans_append_iff.1 h
    obtain ⟨next, hopen, hlist⟩ := spans_append_iff.1 h
    obtain ⟨t, rfl, ht⟩ := spans_kind_iff.1 hopen
    obtain ⟨u, rfl, hu⟩ := spans_kind_iff.1 hend
    rw [List.length_cons] at hlen
    obtain ⟨items, hc, hl⟩ := exists_chain_commaList cause f hitem hfirst hcomma hclose hne
      (Nat.lt_of_succ_lt hlen) hlist (by simp) hu
    exact ⟨items, bracketed_cons ht (Spans.ne_nil hlist (by simp)) hc (by omega) hu hr⟩
  · exact ⟨[], bracketed_of_ne hf⟩

/-! ## Forms of types -/

variable {inner : Parse TypeExpr}

theorem ne_of_startsType {k k' : Token.Kind} (hk : startsType k = true)
    (hk' : startsType k' = false) : k ≠ k' := by
  rintro rfl
  rw [hk] at hk'
  cases hk'

theorem starts_type_ne (hk : startsType k = false) :
    Starts rules (.rule .type) (· ≠ k) :=
  starts_type.mono fun _ h => ne_of_startsType h hk

theorem accepts_typeArguments (hn : n ≤ rounds)
    (hi : Accepts inner (.rule .type) (continuesType · = false) n) :
    Accepts (typeArguments rounds inner)
      (opt (kind .leftAngle ++ commaList (rule .type) ++ kind .rightAngle)) (· ≠ .leftAngle) n := by
  rw [typeArguments_eq_bracketed]
  exact accepts_bracketed hn hi (starts_type_ne rfl) rfl rfl (by decide)

theorem accepts_listType (hi : Accepts inner (.rule .type) (continuesType · = false) n) :
    Accepts (listType inner)
      (kind .leftBracket ++ rule .type ++ kind .rightBracket ++ opt (rule .range))
      (continuesPrimary · = false) (n + 1) := by
  intro ts rest hlen h hr hf
  obtain ⟨mid, h, hrange⟩ := spans_append_iff.1 h
  obtain ⟨next, h, hclose⟩ := spans_append_iff.1 h
  obtain ⟨last, hopen, htype⟩ := spans_append_iff.1 h
  obtain ⟨t, rfl, ht⟩ := spans_kind_iff.1 hopen
  obtain ⟨u, rfl, hu⟩ := spans_kind_iff.1 hclose
  have hmid : mid ≠ [] := Spans.ne_nil hrange hr
  obtain ⟨element, he⟩ := hi last _ (Nat.lt_of_succ_lt_succ hlen) htype (by simp)
    (by rw [current_cons, hu]; rfl)
  obtain ⟨size, hs⟩ := accepts_range? mid rest (Nat.lt_succ_self _) hrange hr hf
  exact ⟨_, listType_cons ht (Spans.ne_nil htype (by simp)) he hu hmid hs⟩

theorem accepts_tupleMember (hi : Accepts inner (.rule .type) (continuesType · = false) n) :
    Accepts (tupleMember inner) (kind .comma ++ rule .type) (continuesType · = false) (n + 1) := by
  intro ts rest hlen h hr hf
  obtain ⟨mid, hcomma, htype⟩ := spans_append_iff.1 h
  obtain ⟨t, rfl, -⟩ := spans_kind_iff.1 hcomma
  obtain ⟨type, ht⟩ := hi mid rest (Nat.lt_of_succ_lt_succ hlen) htype hr hf
  have hstart : mid.current.kind ≠ .rightParen := (starts_type_ne rfl mid rest htype).1
  exact ⟨_, tupleMember_some (Spans.ne_nil htype hr) hstart ht⟩

/-- The members of a tuple behind the first one, and perhaps a comma behind the last one. -/
theorem exists_chain_tuple {mid : TokenStream}
    (hi : Accepts inner (.rule .type) (continuesType · = false) n) (hlen : ts.length < n + 1)
    (hmany : Spans rules (.many (kind .comma ++ rule .type)) ts mid)
    (hcomma : Spans rules (opt (kind .comma)) mid rest) (hr : rest ≠ [])
    (hk : rest.current.kind = .rightParen) :
    ∃ others, Chain (· == .comma) (tupleMember inner) ts others rest ∧
      others.length + rest.length ≤ ts.length := by
  have hnil : Chain (· == .comma) (tupleMember inner) rest [] rest := .nil (by rw [hk]; rfl)
  have hfirst : Starts rules (kind .comma ++ rule .type)
      fun k => (k == .comma) = true ∧ continuesType k = false := (starts_kind (by decide)).append
  rcases spans_opt_iff.1 hcomma with hc | rfl
  · obtain ⟨c, rfl, hck⟩ := spans_kind_iff.1 hc
    have htail : Chain (· == .comma) (tupleMember inner) (c :: rest) [none] rest :=
      .cons (by rw [current_cons, hck]; rfl) (tupleMember_none hr hk) hnil
    obtain ⟨as, hchain, hl⟩ := exists_chain_append (accepts_tupleMember hi) hfirst hlen hmany
      (by simp) (by rw [current_cons, hck]; rfl) htail
    refine ⟨as ++ [none], hchain, ?_⟩
    simp only [List.length_append, List.length_cons, List.length_nil] at hl ⊢
    omega
  · exact exists_chain (accepts_tupleMember hi) hfirst hlen hmany hr (by rw [hk]; rfl)
      (by rw [hk]; rfl)

theorem accepts_parenthesizedType (hn : n ≤ rounds)
    (hi : Accepts inner (.rule .type) (continuesType · = false) n) :
    Accepts (parenthesizedType rounds inner) parenthesized (fun _ => True) (n + 1) := by
  intro ts rest hlen h hr _
  rcases spans_or_iff.1 h with h | h
  · rcases spans_or_iff.1 h with h | h
    · obtain ⟨mid, hopen, hclose⟩ := spans_append_iff.1 h
      obtain ⟨t, rfl, ht⟩ := spans_kind_iff.1 hopen
      obtain ⟨u, rfl, hu⟩ := spans_kind_iff.1 hclose
      exact ⟨_, parenthesizedType_empty ht hu hr⟩
    · obtain ⟨mid, h, hclose⟩ := spans_append_iff.1 h
      obtain ⟨next, hopen, htype⟩ := spans_append_iff.1 h
      obtain ⟨t, rfl, ht⟩ := spans_kind_iff.1 hopen
      obtain ⟨u, rfl, hu⟩ := spans_kind_iff.1 hclose
      have hstart : next.current.kind ≠ .rightParen := (starts_type_ne rfl next _ htype).1
      obtain ⟨type, hty⟩ := hi next _ (Nat.lt_of_succ_lt_succ hlen) htype (by simp)
        (by rw [current_cons, hu]; rfl)
      exact ⟨_, parenthesizedType_group ht (Spans.ne_nil htype (by simp)) hstart hty hu hr⟩
  · obtain ⟨mid, h, hclose⟩ := spans_append_iff.1 h
    obtain ⟨next, h, hothers⟩ := spans_append_iff.1 h
    obtain ⟨last, hopen, htype⟩ := spans_append_iff.1 h
    obtain ⟨t, rfl, ht⟩ := spans_kind_iff.1 hopen
    obtain ⟨u, rfl, hu⟩ := spans_kind_iff.1 hclose
    have hstart : last.current.kind ≠ .rightParen := (starts_type_ne rfl last _ htype).1
    obtain ⟨-, hlt⟩ := starts_type last _ htype
    rw [List.length_cons] at hlen
    -- Both forms are members behind commas and perhaps a comma, with a comma in front.
    obtain ⟨behindMembers, hmany, hcomma, hcm⟩ : ∃ behindMembers : TokenStream,
        Spans rules (.many (kind .comma ++ rule .type)) next behindMembers ∧
        Spans rules (opt (kind .comma)) behindMembers (u :: rest) ∧
        next.current.kind = .comma := by
      rcases spans_or_iff.1 hothers with ho | ho
      · obtain ⟨behindMembers, hsome, hcomma⟩ := spans_append_iff.1 ho
        obtain ⟨second, hfirst, hmany⟩ := spans_append_iff.1 hsome
        have hstarts : Starts rules (kind .comma ++ rule .type) (· = .comma) :=
          (starts_kind (by rfl)).append
        exact ⟨behindMembers, hfirst.many_cons hmany, hcomma, (hstarts _ _ hfirst).1⟩
      · obtain ⟨c, rfl, hc⟩ := spans_kind_iff.1 ho
        exact ⟨_, spans_many_nil _, spans_opt_iff.2 (.inl ho), hc⟩
    obtain ⟨others, hchain, hl⟩ := exists_chain_tuple hi (by omega) hmany hcomma (by simp) hu
    have hnext : next ≠ [] := Spans.ne_nil hothers (by simp)
    obtain ⟨first, hf⟩ := hi last next (Nat.lt_of_succ_lt_succ hlen) htype hnext (by rw [hcm]; rfl)
    exact ⟨_, parenthesizedType_tuple ht (Spans.ne_nil htype hnext) hstart hf hcm hchain
      (by omega) hu hr⟩

theorem accepts_referenceType (hn : n + 1 ≤ rounds)
    (hi : Accepts inner (.rule .type) (continuesType · = false) n) :
    Accepts (referenceType rounds inner) reference (continuesPrimary · = false) (n + 1) := by
  intro ts rest hlen h hr hf
  obtain ⟨mid, h, hindices⟩ := spans_append_iff.1 h
  obtain ⟨next, hpath, harguments⟩ := spans_append_iff.1 h
  have hmid : mid ≠ [] := Spans.ne_nil hindices hr
  have hnext : next ≠ [] := Spans.ne_nil harguments hmid
  -- The next token decides whether there are indices, and so what follows the arguments.
  have hfollow : continuesPrimary mid.current.kind = false ∨ mid.current.kind = .leftBracket := by
    rcases spans_many_iff_cons.1 hindices with rfl | ⟨last, hindex, -⟩
    · exact .inl hf
    · exact .inr (by simpa using (starts_index mid last hindex).1)
  have hangle : mid.current.kind ≠ .leftAngle := by
    rcases hfollow with h | h
    · exact ne_of_continuesPrimary h rfl
    · rw [h]
      decide
  have hcolon : next.current.kind ≠ .doubleColon := by
    rcases spans_opt_iff.1 harguments with ha | rfl
    · have hstarts : Starts rules
          (kind .leftAngle ++ commaList (rule .type) ++ kind .rightAngle) (· = .leftAngle) :=
        (starts_kind (by rfl)).append.append
      rw [(hstarts next mid ha).1]
      decide
    · rcases hfollow with h | h
      · exact ne_of_continuesPrimary h rfl
      · rw [h]
        decide
  have hstarts : Starts rules Grammar.path (· = .identifier) := (starts_kind (by rfl)).append
  obtain ⟨-, hlt⟩ := hstarts ts next hpath
  obtain ⟨name, hname⟩ := accepts_path hn ts next hlen hpath hnext hcolon
  obtain ⟨arguments, ha⟩ := accepts_typeArguments (Nat.le_of_succ_le hn) hi next mid (by omega)
    harguments hmid hangle
  have hmidlen := harguments.length_le
  by_cases hb : mid.current.kind = .leftBracket
  · obtain ⟨indices, hchain, hl⟩ := exists_chain accepts_index starts_index (Nat.lt_succ_self _)
      hindices hr trivial (by simpa using ne_of_continuesPrimary hf rfl)
    exact ⟨_, referenceType_indexed hname ha hb hchain (by omega)⟩
  · have hend : mid = rest := by
      rcases spans_many_iff_cons.1 hindices with rfl | ⟨last, hindex, -⟩
      · rfl
      · exact absurd (by simpa using (starts_index mid last hindex).1) hb
    rw [hend] at ha hb
    exact ⟨_, referenceType_plain hname ha hb⟩

theorem isNumericType_cases (h : k.isNumericType = true) :
    k = .byte ∨ k = .short ∨ k = .int ∨ k = .long ∨ k = .floatType ∨ k = .double := by
  revert h
  cases k <;> decide

theorem primaryType_numeric {mid : TokenStream} {range : Option NumberRange}
    (ht : isNumericWord t = true) (hne : mid ≠ []) (hr : range? mid = .done range rest) :
    primaryType rounds inner (t :: mid) = .done (.numeric t.pos t.value range) rest := by
  have hrun : (advance >>= fun _ => range? >>= fun r => pure (TypeExpr.numeric t.pos t.value r) :
      Parse TypeExpr) (t :: mid) = .done (.numeric t.pos t.value range) rest := by
    rw [advance_bind, behind_cons hne, bind_of_done hr, pure_apply]
  rw [primaryType, current_bind, current_cons]
  rcases isNumericType_cases ht with h | h | h | h | h | h <;> rw [h] <;> exact hrun

theorem literal_cons {value : Literal} {pos : Position} (hr : rest ≠ []) :
    literal value pos (t :: rest) = .done (.literal pos value none) rest := by
  rw [literal, advance_bind, behind_cons hr, pure_apply]

theorem primaryType_literal (ht : isLiteral t = true) (hr : rest ≠ []) :
    ∃ value, primaryType rounds inner (t :: rest) = .done (.literal t.pos value none) rest := by
  have hk : t.kind = .integer ∨ t.kind = .float ∨ t.kind = .string ∨ t.kind = .boolean := by
    revert ht
    unfold isLiteral
    cases t.kind <;> decide
  rw [primaryType, current_bind, current_cons]
  rcases hk with h | h | h | h <;> rw [h] <;> exact ⟨_, literal_cons hr⟩

theorem accepts_primaryType (hn : n + 1 ≤ rounds)
    (hi : Accepts inner (.rule .type) (continuesType · = false) n) :
    Accepts (primaryType rounds inner) (.rule .primary) (continuesPrimary · = false) (n + 1) := by
  intro ts rest hlen h hr hf
  rw [spans_rule_iff, rules] at h
  simp only [spans_or_iff] at h
  -- The forms in the order of the rule; the first token leads the parser to the same one.
  rcases h with ((((((h | h) | h) | h) | h) | h) | h) | h
  · obtain ⟨t, rfl, ht⟩ := spans_kind_iff.1 h
    exact ⟨_, primaryType_any ht hr⟩
  · obtain ⟨t, rfl, ht⟩ := spans_kind_iff.1 h
    exact ⟨_, primaryType_boolean ht hr⟩
  · obtain ⟨mid, hword, hrange⟩ := spans_append_iff.1 h
    obtain ⟨t, rfl, ht⟩ := spans_kind_iff.1 hword
    obtain ⟨length, hl⟩ := accepts_range? mid rest (Nat.lt_succ_self _) hrange hr hf
    exact ⟨_, primaryType_string ht (Spans.ne_nil hrange hr) hl⟩
  · obtain ⟨mid, hword, hrange⟩ := spans_append_iff.1 h
    obtain ⟨t, rfl, ht⟩ := spans_token_iff.1 hword
    obtain ⟨range, hl⟩ := accepts_range? mid rest (Nat.lt_succ_self _) hrange hr hf
    exact ⟨_, primaryType_numeric ht (Spans.ne_nil hrange hr) hl⟩
  · obtain ⟨t, rfl, ht⟩ := spans_token_iff.1 h
    obtain ⟨value, hv⟩ := primaryType_literal ht hr
    exact ⟨_, hv⟩
  · have hstarts : Starts rules
        (kind .leftBracket ++ rule .type ++ kind .rightBracket ++ opt (rule .range))
        (· = .leftBracket) := (starts_kind (by rfl)).append.append.append
    rw [primaryType_leftBracket (hstarts ts rest h).1]
    exact accepts_listType hi ts rest hlen h hr hf
  · have hstarts : Starts rules parenthesized (· = .leftParen) :=
      ((starts_kind (by rfl)).append.or (starts_kind (by rfl)).append.append).or
        (starts_kind (by rfl)).append.append.append
    rw [primaryType_leftParen (hstarts ts rest h).1]
    exact accepts_parenthesizedType (Nat.le_of_succ_le hn) hi ts rest hlen h hr trivial
  · have hstarts : Starts rules reference (· = .identifier) :=
      (starts_kind (by rfl)).append.append.append
    rw [primaryType_identifier (hstarts ts rest h).1]
    exact accepts_referenceType hn hi ts rest hlen h hr hf

theorem accepts_unionType (hn : n + 1 ≤ rounds)
    (hi : Accepts inner (.rule .type) (continuesType · = false) n) :
    Accepts (unionType rounds inner) (.rule .type) (continuesType · = false) (n + 1) := by
  intro ts rest hlen h hr hf
  obtain ⟨hprimary, hpipe⟩ := continuesPrimary_of_continuesType hf
  obtain ⟨mid, hfirst, hmany⟩ := spans_append_iff.1 (spans_rule_iff.1 h)
  have hstarts : Starts rules (kind .pipe ++ rule .primary)
      fun k => (k == .pipe) = true ∧ continuesPrimary k = false :=
    (starts_kind (by decide)).append
  have hstep : Accepts (unionStep rounds inner) (kind .pipe ++ rule .primary)
      (continuesPrimary · = false) (n + 1) := by
    intro ts rest hlen h hr hf
    obtain ⟨mid, hbar, hp⟩ := spans_append_iff.1 h
    obtain ⟨t, rfl, -⟩ := spans_kind_iff.1 hbar
    obtain ⟨type, ht⟩ := accepts_primaryType hn hi mid rest (Nat.lt_of_succ_lt hlen) hp hr hf
    exact ⟨type, unionStep_cons (Spans.ne_nil hp hr) ht⟩
  have hmid : mid ≠ [] := Spans.ne_nil hmany hr
  obtain ⟨-, hlt⟩ := starts_primary ts mid hfirst
  rcases spans_many_iff_cons.1 hmany with rfl | ⟨next, hnext, -⟩
  · obtain ⟨type, ht⟩ := accepts_primaryType hn hi ts mid hlen hfirst hmid hprimary
    exact ⟨type, unionType_single ht hpipe⟩
  · obtain ⟨⟨hbar, hcont⟩, -⟩ := hstarts mid next hnext
    obtain ⟨type, ht⟩ := accepts_primaryType hn hi ts mid hlen hfirst hmid hcont
    obtain ⟨others, hchain, hl⟩ := exists_chain hstep hstarts (by omega) hmany hr hprimary
      (by simpa using hpipe)
    exact ⟨_, unionType_several ht (eq_of_beq hbar) hchain (by omega)⟩

/-- Types are parsed, whatever their nesting: each level of it passes a token. -/
theorem accepts_typeExpr (n : Nat) :
    Accepts (typeExpr n) (.rule .type) (continuesType · = false) n := by
  induction n with
  | zero =>
    intro ts rest hlen
    exact absurd hlen (Nat.not_lt_zero _)
  | succ n ih => exact accepts_unionType (Nat.le_refl _) ih

end McdocSchema.Grammar
