import McdocSchema.Proofs.Derivation
import McdocSchema.Proofs.EditedTexts

/-!
# Every label is written

Each label of a document is the one at some spot among its tokens, where the parser has read its
documentation and its name (`Spot.exists_opens`). The rounds of a repetition are cut in front of the one
that has read the value in question; those before it are the items that are counted. So the name of every
label is one of the tokens, and if this token is replaced by another name, then the label has that name
(`exists_label`).
-/

namespace McdocSchema

open Parse TokenStream Ebnf

namespace Grammar

variable {α : Type} {ts mid rest : TokenStream} {rounds : Nat} {reader : Parse (Option String)}
  {item : Option String → Parse α}

/-! ## Rounds -/

/-- The value has been read at the start of the stream, behind its documentation. -/
def IsRead (reader : Parse (Option String)) (item : Option String → Parse α) (ts : TokenStream)
    (a : α) : Prop :=
  Ended ts ∧ ∃ doc next rest, reader ts = .done doc next ∧ Ended next ∧ item doc next = .done a rest

/-- What a round has read: nothing in front of the closing token, or a value with the line breaks in front
of it and behind it. -/
def ReadsLines (close : Token.Kind) (reader : Parse (Option String)) (item : Option String → Parse α)
    (lines : α → Ebnf Rule) (ts : TokenStream) (x : Option α) (rest : TokenStream) : Prop :=
  Ended rest ∧ (x = none ∧ rest.current.kind = close ∨
    ∃ a mid, x = some a ∧ Spans rules newlines ts mid ∧ IsRead reader item mid a ∧
      Spans rules (lines a ++ newlines) mid rest)

theorem readsLines_member {e : α → Ebnf Rule} {x : Option α}
    (hitem : ∀ doc ts a rest, Ended ts → item doc ts = .done a rest →
      Spans rules (e a) ts rest ∧ Ended rest)
    (hts : Ended ts) (h : member item ts = .done x rest) :
    ReadsLines .rightBrace memberDoc item
      (fun a => opt (kind .docComment ++ newlines) ++ e a ++ opt (kind .comma)) ts x rest := by
  obtain ⟨_, ts₁, hs, h⟩ := bind_done_iff.1 h
  obtain ⟨hlines, h₁⟩ := parsed_skipNewlines _ _ _ hts hs
  rw [sees_bind] at h
  by_cases hk : ts₁.current.kind = .rightBrace
  · rw [if_pos (by simpa using hk)] at h
    obtain ⟨rfl, rfl⟩ := pure_done_iff.1 h
    exact ⟨h₁, .inl ⟨rfl, hk⟩⟩
  · rw [if_neg (by simpa using hk)] at h
    obtain ⟨doc, ts₂, hd, h⟩ := bind_done_iff.1 h
    obtain ⟨hdoc, h₂⟩ := reads_memberDoc.parsed _ _ _ h₁ hd
    obtain ⟨a, ts₃, ha, h⟩ := bind_done_iff.1 h
    obtain ⟨hspan, h₃⟩ := hitem doc _ _ _ h₂ ha
    obtain ⟨eaten, ts₄, he, h⟩ := discard_bind_done_iff.1 h
    obtain ⟨hcomma, h₄⟩ := (reads_eaten (by decide)).parsed _ _ _ h₃ he
    obtain ⟨_, ts₅, hs', hp⟩ := bind_done_iff.1 h
    obtain ⟨hbreaks, h₅⟩ := parsed_skipNewlines _ _ _ h₄ hs'
    obtain ⟨rfl, rfl⟩ := pure_done_iff.1 hp
    exact ⟨h₅, .inr ⟨a, ts₁, rfl, hlines, ⟨h₁, doc, ts₂, ts₃, hd, h₂, ha⟩,
      ((hdoc.append hspan).append hcomma).append hbreaks⟩⟩

theorem readsLines_declaration? {x : Option Declaration} (hts : Ended ts)
    (h : declaration? rounds ts = .done x rest) :
    ReadsLines .eof declarationDoc (declaration rounds) (fun _ => declarationDocs ++ rule .declaration) ts x
      rest := by
  obtain ⟨_, ts₁, hs, h⟩ := bind_done_iff.1 h
  obtain ⟨hlines, h₁⟩ := parsed_skipNewlines _ _ _ hts hs
  rw [sees_bind] at h
  by_cases hk : ts₁.current.kind = .eof
  · rw [if_pos (by simpa using hk)] at h
    obtain ⟨rfl, rfl⟩ := pure_done_iff.1 h
    exact ⟨h₁, .inl ⟨rfl, hk⟩⟩
  · rw [if_neg (by simpa using hk)] at h
    obtain ⟨doc, ts₂, hd, h⟩ := bind_done_iff.1 h
    obtain ⟨hdoc, h₂⟩ := reads_declarationDoc.parsed _ _ _ h₁ hd
    obtain ⟨decl, ts₃, hn, h⟩ := bind_done_iff.1 h
    obtain ⟨hdecl, h₃⟩ := (reads_declaration doc).parsed _ _ _ h₂ hn
    obtain ⟨_, ts₄, hs', hp⟩ := bind_done_iff.1 h
    obtain ⟨hbreaks, h₄⟩ := parsed_skipNewlines _ _ _ h₃ hs'
    obtain ⟨rfl, rfl⟩ := pure_done_iff.1 hp
    exact ⟨h₄, .inr ⟨decl, ts₁, rfl, hlines, ⟨h₁, doc, ts₂, ts₃, hd, h₂, hn⟩,
      (hdoc.append hdecl).append hbreaks⟩⟩

/-- The rounds in front of the one that has read `a` are items, some of which are counted. -/
theorem exists_isRead (counts : α → Bool) {step : Parse (Option α)} {close : Token.Kind}
    {lines : α → Ebnf Rule} {R : Bool → TokenStream → TokenStream → Prop} {found : List (Option α)}
    {front back : List α} {a : α}
    (hstep : ∀ ts x rest, Ended ts → step ts = .done x rest → ReadsLines close reader item lines ts x rest)
    (hR : ∀ a ts rest, Spans rules (lines a ++ newlines) ts rest → R (counts a) ts rest)
    (hts : Ended ts) (hc : Chain (· != close) step ts found rest)
    (h : found.reduceOption = front ++ a :: back) :
    ∃ first last, Spans rules newlines ts first ∧
      Counted (R false) (R true) (front.countP counts) first last ∧ IsRead reader item last a := by
  induction hc generalizing front with
  | nil _ => simp at h
  | @cons ts mid rest x found _ hs hc ih =>
    obtain ⟨hmid, ⟨rfl, hclose⟩ | ⟨b, next, rfl, hlines, hread, hspan⟩⟩ := hstep _ _ _ hts hs
    · -- A round without a value is the last one.
      cases hc with
      | nil _ => simp at h
      | cons hg _ _ =>
        rw [hclose] at hg
        simp at hg
    · rw [List.reduceOption_cons_of_some] at h
      cases front with
      | nil =>
        obtain ⟨rfl, -⟩ := List.cons.inj h
        exact ⟨next, next, hlines, .nil next, hread⟩
      | cons c front =>
        obtain ⟨rfl, htail⟩ := List.cons.inj h
        obtain ⟨first, last, hbreaks, hcounted, hlast⟩ := ih hmid htail
        -- The line breaks in front of the next item belong to this one.
        obtain ⟨afterItem, hitem, hmore⟩ := spans_append_iff.1 hspan
        have hround := hR b _ _ (hitem.append (hmore.many_append hbreaks))
        refine ⟨next, last, hlines, ?_, hlast⟩
        rw [List.countP_cons]
        cases hb : counts b with
        | false =>
          rw [hb] at hround
          simpa using Counted.skip hround hcounted
        | true =>
          rw [hb] at hround
          simpa using Counted.cons hround hcounted

/-! ## Bodies -/

theorem exists_isRead_of_body (counts : α → Bool) {e : α → Ebnf Rule}
    {R : Bool → TokenStream → TokenStream → Prop} {members front back : List α} {a : α}
    (hitem : ∀ doc ts a rest, Ended ts → item doc ts = .done a rest →
      Spans rules (e a) ts rest ∧ Ended rest)
    (hR : ∀ a ts rest, Spans rules (memberLines (e a)) ts rest → R (counts a) ts rest)
    (hts : Ended ts) (h : Parse.body rounds item ts = .done members rest)
    (hsplit : members = front ++ a :: back) :
    ∃ first last, Spans rules (kind .leftBrace ++ newlines) ts first ∧
      Counted (R false) (R true) (front.countP counts) first last ∧ IsRead memberDoc item last a := by
  obtain ⟨_, ts₁, hopen, h⟩ := discard_bind_done_iff.1 h
  obtain ⟨hbrace, h₁⟩ := (reads_consume (by decide)).parsed _ _ _ hts hopen
  obtain ⟨found, ts₂, hfound, h⟩ := bind_done_iff.1 h
  obtain ⟨_, _, -, h⟩ := discard_bind_done_iff.1 h
  obtain ⟨rfl, -⟩ := pure_done_iff.1 h
  obtain ⟨first, last, hlines, hcounted, hread⟩ := exists_isRead counts
    (fun _ _ _ => readsLines_member hitem) hR h₁ (chain_of_repeatWhile hfound) hsplit
  exact ⟨first, last, hbrace.append hlines, hcounted, hread⟩

theorem spans_structItem {doc : Option String} {a : Field TypeExpr ⊕ TypeExpr} (hts : Ended ts)
    (h : Parse.structItem (typeExpr rounds) doc ts = .done a rest) :
    Spans rules (bif a.isLeft then field else spread) ts rest ∧ Ended rest := by
  obtain ⟨hspan, hrest⟩ := (reads_structItem (reads_typeExpr rounds) doc).parsed _ _ _ hts h
  refine ⟨?_, hrest⟩
  rcases spans_or_iff.1 hspan with hspread | hfield
  · obtain ⟨_, hdots, -⟩ := spans_append_iff.1 hspread
    obtain ⟨t, rfl, ht⟩ := spans_kind_iff.1 hdots
    obtain ⟨type, rfl⟩ := structItem_spread_done ht h
    exact hspread
  · obtain ⟨hk, -⟩ := starts_field _ _ hfield
    obtain ⟨t, more, rfl⟩ := List.exists_cons_of_ne_nil hts.ne_nil
    obtain ⟨f, rfl, -, -⟩ := structItem_done hk h
    exact hfield

theorem exists_split_of_getElem? {l : List α} {a : α} {j : Nat} (h : l[j]? = some a) :
    ∃ front back, l = front ++ a :: back ∧ front.length = j := by
  obtain ⟨hlt, rfl⟩ := List.getElem?_eq_some_iff.1 h
  refine ⟨l.take j, l.drop (j + 1), ?_, List.length_take_of_le (Nat.le_of_lt hlt)⟩
  rw [← List.drop_eq_getElem_cons hlt, List.take_append_drop]

theorem exists_split_of_getLeft? {items : List (Field TypeExpr ⊕ TypeExpr)} {f : Field TypeExpr} {j : Nat}
    (h : (items.filterMap Sum.getLeft?)[j]? = some f) :
    ∃ front back, items = front ++ .inl f :: back ∧ front.countP Sum.isLeft = j := by
  induction items generalizing j with
  | nil => simp at h
  | cons item items ih =>
    cases item with
    | inr type =>
      obtain ⟨front, back, rfl, rfl⟩ := ih h
      exact ⟨.inr type :: front, back, rfl, rfl⟩
    | inl first =>
      cases j with
      | zero =>
        cases h
        exact ⟨[], items, rfl, rfl⟩
      | succ j =>
        obtain ⟨front, back, rfl, rfl⟩ := ih h
        exact ⟨.inl first :: front, back, rfl, List.countP_cons_of_pos rfl⟩

/-! ## Declarations -/

/-- What a declaration with labels is, by its word. -/
theorem declaration_done {doc : Option String} {decl : Declaration}
    (h : declaration rounds doc ts = .done decl rest) :
    (∃ type, structType rounds ts = .done type rest ∧ decl = .anonymous type) ∨
    (∃ type, enumType rounds ts = .done type rest ∧ decl = .anonymous type) ∨
    (∃ named, typeAlias rounds ts = .done named rest ∧ decl = .alias { named with doc := doc }) ∨
    ∀ member, decl.label? member = none := by
  rw [declaration, current_bind] at h
  cases hk : ts.current.kind <;> rw [hk] at h
  case struct =>
    obtain ⟨type, htype, rfl⟩ := map_done_iff.1 h
    exact .inl ⟨type, htype, rfl⟩
  case enum =>
    obtain ⟨type, htype, rfl⟩ := map_done_iff.1 h
    exact .inr (.inl ⟨type, htype, rfl⟩)
  case type =>
    obtain ⟨named, mid, hnamed, h⟩ := bind_done_iff.1 h
    obtain ⟨rfl, rfl⟩ := pure_done_iff.1 h
    exact .inr (.inr (.inl ⟨named, hnamed, rfl⟩))
  case dispatch =>
    obtain ⟨_, _, -, h⟩ := bind_done_iff.1 h
    obtain ⟨_, _, -, h⟩ := discard_bind_done_iff.1 h
    obtain ⟨_, _, -, h⟩ := bind_done_iff.1 h
    obtain ⟨_, _, -, h⟩ := bind_done_iff.1 h
    obtain ⟨_, _, -, h⟩ := discard_bind_done_iff.1 h
    obtain ⟨_, _, -, h⟩ := bind_done_iff.1 h
    obtain ⟨rfl, -⟩ := pure_done_iff.1 h
    exact .inr (.inr (.inr fun member => by cases member <;> rfl))
  case use => exact absurd h useStatement_ne_done
  all_goals cases h

theorem names_of_typeAlias {named : Alias} {i : Nat} (hts : Ended ts)
    (h : typeAlias rounds ts = .done named rest) : Spot.Names ⟨i, none⟩ named.name ts := by
  rw [typeAlias, current_bind] at h
  obtain ⟨_, ts₁, hword, h⟩ := discard_bind_done_iff.1 h
  obtain ⟨hspan, h₁⟩ := (reads_consume (by decide)).parsed _ _ _ hts hword
  obtain ⟨word, rfl, hk⟩ := spans_kind_iff.1 hspan
  obtain ⟨name, ts₂, hname, h⟩ := bind_done_iff.1 h
  obtain ⟨hspan, -⟩ := (reads_consume (by decide)).parsed _ _ _ h₁ hname
  obtain ⟨t, rfl, ht⟩ := spans_kind_iff.1 hspan
  obtain ⟨-, rfl, -⟩ := consume_done_iff.1 hname
  obtain ⟨_, _, -, h⟩ := bind_done_iff.1 h
  obtain ⟨_, _, -, h⟩ := discard_bind_done_iff.1 h
  obtain ⟨_, _, -, h⟩ := bind_done_iff.1 h
  obtain ⟨rfl, -⟩ := pure_done_iff.1 h
  exact ⟨word, t, ts₂, rfl, hk, ht, rfl⟩

end Grammar

open Grammar

namespace Spot

variable {spot : Spot} {ts mid rest : TokenStream} {rounds : Nat} {label : Label}

def IsReadAt (spot : Spot) (label : Label) (ts : TokenStream) : Prop :=
  ∃ mid next, spot.Opens ts mid ∧ spot.reader mid = .done label.doc next ∧ spot.Names label.name next

theorem isReadAt_field {decls : TokenStream} {i j : Nat} {type : TypeExpr} (hdecls : Declares i ts decls)
    (hdocs : Spans rules declarationDocs decls mid) (hmid : Ended mid)
    (htype : structType rounds mid = .done type rest)
    (hlabel : (Declaration.anonymous type).label? (some j) = some label) :
    IsReadAt ⟨i, some j⟩ label ts := by
  rw [structType, current_bind] at htype
  obtain ⟨_, ts₁, hword, h⟩ := discard_bind_done_iff.1 htype
  obtain ⟨hstruct, h₁⟩ := (reads_consume (by decide)).parsed _ _ _ hmid hword
  obtain ⟨members, _, hbody, h⟩ := bind_done_iff.1 h
  obtain ⟨rfl, -⟩ := pure_done_iff.1 h
  obtain ⟨f, hf, rfl⟩ := Option.map_eq_some_iff.1 hlabel
  obtain ⟨front, back, rfl, rfl⟩ := exists_split_of_getLeft? hf
  obtain ⟨first, last, hopen, hcounted, -, doc, next, _, hdoc, hnext, hitem⟩ :=
    exists_isRead_of_body Sum.isLeft (R := fun b => Spans rules (memberLines (bif b then field else spread)))
      (fun _ _ _ _ => spans_structItem) (fun _ _ _ hspan => hspan) h₁ hbody rfl
  obtain ⟨hspan, -⟩ := spans_structItem hnext hitem
  obtain ⟨hk, -⟩ := starts_field _ _ hspan
  obtain ⟨t, more, rfl⟩ := List.exists_cons_of_ne_nil hnext.ne_nil
  obtain ⟨_, hsame, hname, rfl⟩ := structItem_done hk hitem
  cases hsame
  refine ⟨last, _, .field hdecls ?_ hcounted, hdoc, t, more, rfl, hk, hname.symm⟩
  obtain ⟨afterBrace, hbrace, hlines⟩ := spans_append_iff.1 hopen
  exact ((hdocs.append hstruct).append hbrace).append hlines

theorem isReadAt_variant {decls : TokenStream} {i j : Nat} {type : TypeExpr}
    (hdecls : Declares i ts decls) (hdocs : Spans rules declarationDocs decls mid) (hmid : Ended mid)
    (htype : enumType rounds mid = .done type rest)
    (hlabel : (Declaration.anonymous type).label? (some j) = some label) :
    IsReadAt ⟨i, some j⟩ label ts := by
  rw [enumType, current_bind] at htype
  obtain ⟨_, ts₁, hword, h⟩ := discard_bind_done_iff.1 htype
  obtain ⟨henum, h₁⟩ := (reads_consume (by decide)).parsed _ _ _ hmid hword
  obtain ⟨variants, _, hbody, h⟩ := bind_done_iff.1 h
  obtain ⟨rfl, -⟩ := pure_done_iff.1 h
  obtain ⟨v, hv, rfl⟩ := Option.map_eq_some_iff.1 hlabel
  obtain ⟨front, back, rfl, rfl⟩ := exists_split_of_getElem? hv
  obtain ⟨first, last, hopen, hcounted, -, doc, next, _, hdoc, hnext, hitem⟩ :=
    exists_isRead_of_body (fun _ => true) (e := fun _ => Grammar.variant)
      (R := fun b => bif b then Spans rules (memberLines Grammar.variant) else fun _ _ => False)
      (fun doc ts v rest => (reads_variant doc).parsed ts v rest) (fun _ _ _ hspan => hspan) h₁ hbody rfl
  rw [List.countP_true] at hcounted
  obtain ⟨named, _, hname, hitem⟩ := bind_done_iff.1 hitem
  obtain ⟨hk, rfl, -⟩ := consume_done_iff.1 hname
  obtain ⟨_, _, -, hitem⟩ := bind_done_iff.1 hitem
  obtain ⟨rfl, -⟩ := pure_done_iff.1 hitem
  obtain ⟨t, more, rfl⟩ := List.exists_cons_of_ne_nil hnext.ne_nil
  refine ⟨last, _, .variant hdecls ?_ hcounted, hdoc, t, more, rfl, hk, rfl⟩
  obtain ⟨afterBrace, hbrace, hlines⟩ := spans_append_iff.1 hopen
  exact ((hdocs.append henum).append hbrace).append hlines

/-- **Every label is read at its spot.** -/
theorem exists_opens {doc : Document} (hts : Ended ts) (h : document rounds ts = .done doc rest)
    (hlabel : doc.label? spot = some label) : spot.IsReadAt label ts := by
  obtain ⟨found, _, hfound, h⟩ := bind_done_iff.1 h
  obtain ⟨rfl, -⟩ := pure_done_iff.1 h
  obtain ⟨i, member⟩ := spot
  obtain ⟨decl, hdecl, hlabel⟩ := Option.bind_eq_some_iff.1 hlabel
  obtain ⟨front, back, hsplit, rfl⟩ := exists_split_of_getElem? hdecl
  obtain ⟨first, last, hlines, hcounted, hlast, doc, next, _, hdoc, hnext, hrun⟩ :=
    exists_isRead (fun _ => true)
      (R := fun b => bif b then Spans rules declarationLines else fun _ _ => False)
      (fun _ _ _ => readsLines_declaration?) (fun _ _ _ hspan => hspan) hts (chain_of_repeatWhile hfound)
      hsplit
  rw [List.countP_true] at hcounted
  have hdecls : Declares front.length ts last := ⟨first, hlines, hcounted⟩
  obtain ⟨hdocs, -⟩ := reads_declarationDoc.parsed _ _ _ hlast hdoc
  rcases declaration_done hrun with ⟨type, htype, rfl⟩ | ⟨type, htype, rfl⟩ | ⟨named, hnamed, rfl⟩ | hnone
  · cases member with
    | none => cases hlabel
    | some j => exact isReadAt_field hdecls hdocs hnext htype hlabel
  · cases member with
    | none => cases hlabel
    | some j => exact isReadAt_variant hdecls hdocs hnext htype hlabel
  · cases member with
    | none =>
      cases hlabel
      exact ⟨last, next, .alias hdecls, hdoc, names_of_typeAlias hnext hnamed⟩
    | some j => cases hlabel
  · rw [hnone member] at hlabel
    cases hlabel

end Spot

/-! ## Another name in a label -/

open Edit

/-- The documentation at a spot is read before and after an edit. -/
theorem Edit.carries_reader {e : Edit} {P : Token.Kind → Prop} (spot : Spot) :
    e.Carries P e.Docs spot.reader spot.reader := by
  obtain ⟨make, hreader⟩ := spot.exists_isDocReader
  have hpure : spot.reader >>= pure = spot.reader := by
    funext ts
    rw [bind_apply]
    cases spot.reader ts <;> rfl
  have hcarries : e.Carries P e.Docs (spot.reader >>= pure) (spot.reader >>= pure) :=
    carries_documented hreader fun m doc doc' h => carries_pure h
  rwa [hpure] at hcarries

namespace Spot

variable {spot : Spot} {name : String} {ts mid next : TokenStream} {comment : Option String}

theorem exists_append_of_reader (hmid : Ended mid) (h : spot.reader mid = .done comment next) :
    ∃ docs, mid = docs ++ next := by
  obtain ⟨i, member⟩ := spot
  cases member with
  | none =>
    obtain ⟨⟨docs, rfl, -⟩, -⟩ := Grammar.reads_declarationDoc.parsed _ _ _ hmid h
    exact ⟨docs, rfl⟩
  | some j =>
    obtain ⟨⟨docs, rfl, -⟩, -⟩ := Grammar.reads_memberDoc.parsed _ _ _ hmid h
    exact ⟨docs, rfl⟩

theorem starts_of_reader (hmid : spot.reader mid = .done comment next) (hname : spot.Names name next) :
    spot.starts mid.current.kind := by
  by_cases hk : mid.current.kind = .docComment
  · exact .inl hk
  · rw [reader_of_ne hk] at hmid
    cases hmid
    exact .inr hname.current.2

theorem ne_nil_of_reader (hmid : spot.reader mid = .done comment next) (hname : spot.Names name next) :
    mid ≠ [] := by
  rintro rfl
  rw [reader_of_ne (by decide)] at hmid
  cases hmid
  exact hname.current.1 rfl

/-- Another name does not change the documentation that is read at a spot. -/
theorem reader_of_streams {n : Nat} {old new : String} {before after ts' : TokenStream}
    (hstreams : (rename old new before after).Streams n ts ts')
    (h : spot.reader ts = .done comment next) :
    ∃ next', spot.reader ts' = .done comment next' ∧ next' <:+ after ∧ next.length = next'.length := by
  have houtcome := carries_reader (P := Anywhere) spot n ts ts' hstreams trivial comment next h
  generalize ho : spot.reader ts' = outcome at houtcome
  cases houtcome with
  | done hn hdocs hnext =>
    cases hdocs with
    | same => exact ⟨_, rfl, hnext.along.2⟩
    | annotated he => cases he
  | stuck cause hn hstray => cases hstray

/-- The token of the name at a spot, and others in its place. -/
theorem Names.exists_token (h : spot.Names name ts) :
    ∃ lead t vs, ts = lead ++ t :: vs ∧ t.kind = .identifier ∧ t.value = name ∧
      ∀ (t' : Token) (vs' : TokenStream), t'.kind = .identifier →
        spot.Names t'.value (lead ++ t' :: vs') := by
  obtain ⟨i, member⟩ := spot
  cases member with
  | none =>
    obtain ⟨word, t, vs, rfl, hword, ht, hname⟩ := h
    exact ⟨[word], t, vs, rfl, ht, hname, fun t' vs' ht' => ⟨word, t', vs', rfl, hword, ht', rfl⟩⟩
  | some j =>
    obtain ⟨t, vs, rfl, ht, hname⟩ := h
    exact ⟨[], t, vs, rfl, ht, hname, fun t' vs' ht' => ⟨t', vs', rfl, ht', rfl⟩⟩

end Spot

section Tokens

variable {ts : TokenStream} {doc : Document} {spot : Spot} {label : Label}

/-- Every label has its name among the tokens, and with another name there the label has that name. -/
theorem exists_label (hend : Ended ts) (hdocs : DocsEnded ts) (hdoc : Document.ofTokens ts = .ok doc)
    (hlabel : doc.label? spot = some label) :
    ∃ (us : TokenStream) (t : Token) (vs : TokenStream), ts = us ++ t :: vs ∧ t.kind = .identifier ∧
      t.value = label.name ∧ ∀ (t' : Token) (vs' : TokenStream) (doc' : Document), t'.kind = .identifier →
        vs'.map Token.form = vs.map Token.form → Document.ofTokens (us ++ t' :: vs') = .ok doc' →
          doc'.label? spot = some ⟨t'.value, label.doc⟩ := by
  obtain ⟨rest, hrun⟩ := ofTokens_ok_iff.1 hdoc
  obtain ⟨mid, next, hopens, hread, hname⟩ := Spot.exists_opens hend hrun hlabel
  obtain ⟨front, rfl, hfront⟩ := Spot.isAboutFront_opens spot _ _ hopens
  have hmid : Ended mid :=
    hend.of_suffix (List.suffix_append front mid) (Spot.ne_nil_of_reader hread hname)
  obtain ⟨docs, rfl⟩ := Spot.exists_append_of_reader hmid hread
  obtain ⟨lead, t, vs, rfl, hk, hvalue, hnames⟩ := hname.exists_token
  have hsplit : ∀ (t : Token) (vs : TokenStream),
      front ++ (docs ++ (lead ++ t :: vs)) = front ++ docs ++ lead ++ t :: vs := by simp
  rw [hsplit] at hend hdocs
  refine ⟨front ++ docs ++ lead, t, vs, hsplit t vs, hk, hvalue, ?_⟩
  intro t' vs' doc' hk' hforms hdoc'
  -- The documentation that is read at the spot does not change.
  have hread' : spot.reader (docs ++ (lead ++ t' :: vs')) = .done label.doc (lead ++ t' :: vs') := by
    have hws : docs ++ lead <:+ front ++ docs ++ lead := by
      rw [List.append_assoc]
      exact List.suffix_append _ _
    have hstreams := streams_of_rename hend hdocs hforms hws hk hk'
    rw [← List.append_assoc] at hread
    obtain ⟨next', hread', hsuffix, hlength⟩ := Spot.reader_of_streams hstreams hread
    have hbehind : lead ++ t' :: vs' <:+ front ++ docs ++ lead ++ t' :: vs' := by
      rw [← hsplit, ← List.append_assoc]
      exact List.suffix_append _ _
    have hlength' : (lead ++ t' :: vs').length = next'.length := by
      rw [← hlength, List.length_append, List.length_append, List.length_cons, List.length_cons,
        length_eq_of_forms hforms]
    rw [← List.append_assoc, hread', eq_of_suffix_of_length hbehind hsuffix hlength']
  obtain ⟨rest', hrun'⟩ := ofTokens_ok_iff.1 hdoc'
  rw [← hsplit] at hrun'
  have hname' := hnames t' vs' hk'
  exact (hfront _).label?_of_document (Nat.lt_succ_self _) (Spot.ne_nil_of_reader hread' hname')
    (Spot.starts_of_reader hread' hname') hread' hname' hrun'

end Tokens

theorem modify_eq_self {α : Type} {l : List α} {i : Nat} {a : α} {f : α → α} (h : l[i]? = some a)
    (hf : f a = a) : l.modify i f = l := by
  apply List.ext_getElem?
  intro j
  rw [List.getElem?_modify]
  by_cases hij : i = j
  · subst hij
    rw [h]
    simp [hf]
  · simp [hij]

theorem Declaration.setLabel_self {decl : Declaration} {member : Option Nat} {label : Label}
    (h : decl.label? member = some label) : decl.setLabel label member = decl := by
  cases decl with
  | «alias» named =>
    cases member with
    | none =>
      cases h
      rfl
    | some => cases h
  | anonymous type =>
    cases type with
    | struct pos fields spreads =>
      cases member with
      | none => cases h
      | some j =>
        obtain ⟨f, hf, rfl⟩ := Option.map_eq_some_iff.1 h
        rw [setLabel, modify_eq_self hf rfl]
    | «enum» pos variants =>
      cases member with
      | none => cases h
      | some j =>
        obtain ⟨v, hv, rfl⟩ := Option.map_eq_some_iff.1 h
        rw [setLabel, modify_eq_self hv rfl]
    | _ => cases member <;> cases h
  | _ => cases member <;> cases h

theorem Document.setLabel_self {doc : Document} {spot : Spot} {label : Label}
    (h : doc.label? spot = some label) : doc.setLabel spot label = doc := by
  obtain ⟨decl, hdecl, hlabel⟩ := Option.bind_eq_some_iff.1 h
  rw [setLabel, modify_eq_self hdecl (Declaration.setLabel_self hlabel)]

end McdocSchema
