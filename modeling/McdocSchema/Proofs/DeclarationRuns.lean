import McdocSchema.Proofs.TypeRuns

/-!
# Run rules for declarations

The rules for bodies, declarations and documents. The members of a body and the declarations of a
document are read alike: line breaks, then a member unless the closing token stands there, and line
breaks again. The rules for both keep to that shape.
-/

namespace McdocSchema.Parse

open TokenStream

variable {α : Type} {rounds : Nat} {t u v : Token} {ts mid last rest : TokenStream}

/-! ## Bodies -/

variable {item : Option String → Parse α} {doc : Option String} {type : TypeExpr}

theorem memberDoc_of_ne (h : ts.current.kind ≠ .docComment) : memberDoc ts = .done none ts := by
  rw [memberDoc, current_bind, eat_bind_of_ne h]
  rfl

theorem memberDoc_cons (ht : t.kind = .docComment) (hne : ts ≠ [])
    (h : skipNewlines ts = .done () rest) : memberDoc (t :: ts) = .done (some t.value) rest := by
  rw [memberDoc, current_bind, current_cons, eat_bind_of_eq (by rw [current_cons, ht]), if_pos rfl,
    behind_cons hne, bind_of_done h, pure_apply]

theorem member_none (h : skipNewlines ts = .done () rest)
    (hk : rest.current.kind = .rightBrace) : member item ts = .done none rest := by
  rw [member, bind_of_done h, sees_bind, hk]
  rfl

theorem member_some {a : α}
    {eaten : Bool} {behindItem behindComma : TokenStream} (h : skipNewlines ts = .done () mid)
    (hk : mid.current.kind ≠ .rightBrace) (hd : memberDoc mid = .done doc last)
    (hi : item doc last = .done a behindItem) (hc : eat .comma behindItem = .done eaten behindComma)
    (hn : skipNewlines behindComma = .done () rest) : member item ts = .done (some a) rest := by
  rw [member, bind_of_done h, sees_bind, if_neg (by simpa using hk), bind_of_done hd,
    bind_of_done hi, discard_bind_of_done hc, bind_of_done hn, pure_apply]

theorem body_cons {members : List (Option α)}
    (ht : t.kind = .leftBrace) (hne : ts ≠ [])
    (hc : Chain (· != .rightBrace) (member item) ts members (u :: rest))
    (hn : members.length ≤ rounds) (hu : u.kind = .rightBrace) (hr : rest ≠ []) :
    body rounds item (t :: ts) = .done members.reduceOption rest := by
  rw [body, discard_bind_of_done (consume_cons ht hne), bind_of_done (hc.repeatWhile hn),
    discard_bind_of_done (consume_cons hu hr), pure_apply]

theorem eat_comma_cons (ht : t.kind = .comma) (hr : rest ≠ []) :
    eat .comma (t :: rest) = .done true rest := by
  simp [eat, ht, behind_cons hr]

theorem eat_of_ne {k : Token.Kind} (h : ts.current.kind ≠ k) : eat k ts = .done false ts := by
  simp [eat, h]

theorem structItem_spread {inner : Parse TypeExpr}
    (ht : t.kind = .ellipsis) (hne : ts ≠ []) (hi : inner ts = .done type rest) :
    structItem inner doc (t :: ts) = .done (.inr type) rest := by
  rw [structItem, eat_bind_of_eq (by rw [current_cons, ht]), if_pos rfl, behind_cons hne]
  exact map_of_done hi

theorem structItem_field {inner : Parse TypeExpr}
    (ht : t.kind = .identifier) (hu : u.kind = .colon) (hne : ts ≠ [])
    (hi : inner ts = .done type rest) :
    structItem inner doc (t :: u :: ts) = .done (.inl ⟨t.value, type, false, doc⟩) rest := by
  have hq : eat .question (u :: ts) = .done false (u :: ts) :=
    eat_of_ne (by rw [current_cons, hu]; decide)
  rw [structItem, eat_bind_of_ne (by rw [current_cons, ht]; decide), if_neg (by simp),
    bind_of_done (consume_cons ht (by simp)), bind_of_done hq,
    discard_bind_of_done (consume_cons hu hne), bind_of_done hi, pure_apply]

theorem structItem_optional {inner : Parse TypeExpr}
    (ht : t.kind = .identifier) (hv : v.kind = .question) (hu : u.kind = .colon) (hne : ts ≠ [])
    (hi : inner ts = .done type rest) :
    structItem inner doc (t :: v :: u :: ts) = .done (.inl ⟨t.value, type, true, doc⟩) rest := by
  have hq : eat .question (v :: u :: ts) = .done true (u :: ts) := by
    simp [eat, hv, behind]
  rw [structItem, eat_bind_of_ne (by rw [current_cons, ht]; decide), if_neg (by simp),
    bind_of_done (consume_cons ht (by simp)), bind_of_done hq,
    discard_bind_of_done (consume_cons hu hne), bind_of_done hi, pure_apply]

theorem filterMap_getLeft?_map {β γ δ : Type} (f : α → γ) (f' : β → δ) (members : List (α ⊕ β)) :
    (members.map (Sum.map f f')).filterMap Sum.getLeft? =
      (members.filterMap Sum.getLeft?).map f := by
  induction members with
  | nil => rfl
  | cons m members ih => cases m <;> simp [List.filterMap_cons, ih]

theorem filterMap_getRight?_map {β γ δ : Type} (f : α → γ) (f' : β → δ) (members : List (α ⊕ β)) :
    (members.map (Sum.map f f')).filterMap Sum.getRight? =
      (members.filterMap Sum.getRight?).map f' := by
  induction members with
  | nil => rfl
  | cons m members ih => cases m <;> simp [List.filterMap_cons, ih]

theorem structType_cons {members : List (Field TypeExpr ⊕ TypeExpr)} (ht : t.kind = .struct)
    (hne : ts ≠ []) (hb : body rounds (structItem (typeExpr rounds)) ts = .done members rest) :
    structType rounds (t :: ts) =
      .done (.struct t.pos (members.filterMap Sum.getLeft?) (members.filterMap Sum.getRight?))
        rest := by
  rw [structType, current_bind, current_cons, discard_bind_of_done (consume_cons ht hne),
    bind_of_done hb, pure_apply]

theorem variant_plain (ht : t.kind = .identifier) (hr : rest ≠ [])
    (hk : rest.current.kind ≠ .equals) :
    variant doc (t :: rest) = .done ⟨t.value, none, doc⟩ rest := by
  have hv : variantValue rest = .done none rest := by
    rw [variantValue, eat_bind_of_ne hk]
    rfl
  rw [variant, bind_of_done (consume_cons ht hr), bind_of_done hv, pure_apply]

theorem variant_value {n : Int} (ht : t.kind = .identifier)
    (hu : u.kind = .equals) (hv : v.kind = .integer) (hn : Number.readInteger v.value = .ok n)
    (hr : rest ≠ []) :
    variant doc (t :: u :: v :: rest) = .done ⟨t.value, some n, doc⟩ rest := by
  have hval : variantValue (u :: v :: rest) = .done (some n) rest := by
    rw [variantValue, eat_bind_of_eq (by rw [current_cons, hu]), if_pos rfl,
      behind_cons (by simp), current_bind, current_cons, hv, if_pos (by decide), hn]
    show (advance >>= fun _ => pure (some n)) (v :: rest) = _
    rw [advance_bind, behind_cons hr, pure_apply]
  rw [variant, bind_of_done (consume_cons ht (by simp)), bind_of_done hval, pure_apply]

theorem enumType_cons {variants : List Variant} (ht : t.kind = .enum) (hne : ts ≠ [])
    (hb : body rounds variant ts = .done variants rest) :
    enumType rounds (t :: ts) = .done (.enum t.pos variants) rest := by
  rw [enumType, current_bind, current_cons, discard_bind_of_done (consume_cons ht hne),
    bind_of_done hb, pure_apply]

variable {node : TypeExpr}

theorem structType_done (h : structType rounds ts = .done node rest) :
    ts.current.kind = .struct ∧ ∃ members, body rounds (structItem (typeExpr rounds)) ts.behind =
      .done members rest ∧ node = .struct ts.current.pos (members.filterMap Sum.getLeft?)
        (members.filterMap Sum.getRight?) := by
  rw [structType, current_bind] at h
  obtain ⟨_, _, hword, h⟩ := discard_bind_done_iff.1 h
  obtain ⟨hk, -, rfl⟩ := consume_done_iff.1 hword
  obtain ⟨members, last, hmembers, h⟩ := bind_done_iff.1 h
  obtain ⟨rfl, rfl⟩ := pure_done_iff.1 h
  exact ⟨hk, members, hmembers, rfl⟩

theorem enumType_done (h : enumType rounds ts = .done node rest) :
    ts.current.kind = .enum ∧ ∃ variants, body rounds variant ts.behind = .done variants rest ∧
      node = .enum ts.current.pos variants := by
  rw [enumType, current_bind] at h
  obtain ⟨_, _, hword, h⟩ := discard_bind_done_iff.1 h
  obtain ⟨hk, -, rfl⟩ := consume_done_iff.1 hword
  obtain ⟨variants, last, hvariants, h⟩ := bind_done_iff.1 h
  obtain ⟨rfl, rfl⟩ := pure_done_iff.1 h
  exact ⟨hk, variants, hvariants, rfl⟩

/-! ## Aliases and dispatches -/

theorem typeParameters_eq_bracketed :
    typeParameters rounds = bracketed rounds .leftAngle .rightAngle .parameterEnd
      (consume .identifier) Token.value := rfl

/-- An index of a dispatch: an identifier, with a fault of its own. -/
def dispatchIndex : Parse Token := consumeOr .identifier fun _ => .dispatchIndex

theorem dispatchIndices_eq_bracketed :
    dispatchIndices rounds = bracketed rounds .leftBracket .rightBracket .dispatchEnd
      dispatchIndex Token.value := rfl

/-- A word, a name, names between brackets, a sign and a type: the form of an alias and of a dispatch. -/
def named {α : Type} (rounds : Nat) (word sign : Token.Kind) (names : Parse (List String))
    (f : Position → String → List String → TypeExpr → α) : Parse α := do
  let t ← current
  discard (consume word)
  let name ← consume .identifier
  let found ← names
  discard (consume sign)
  let target ← typeExpr rounds
  pure (f t.pos name.value found target)

theorem typeAlias_eq_named : typeAlias rounds =
    named rounds .type .equals (typeParameters rounds) fun pos name parameters target =>
      ⟨pos, name, parameters, target, none⟩ := rfl

theorem dispatchStatement_eq_named : dispatchStatement rounds =
    named rounds .dispatch .to (dispatchIndices rounds) .dispatch := rfl

section

variable {α : Type} {word sign : Token.Kind} {names : Parse (List String)}
  {f : Position → String → List String → TypeExpr → α}

theorem named_cons {found : List String} {target : TypeExpr} (ht : t.kind = word)
    (hu : u.kind = .identifier) (hne : ts ≠ []) (hnames : names ts = .done found (v :: mid))
    (hv : v.kind = sign) (hm : mid ≠ []) (hi : typeExpr rounds mid = .done target rest) :
    named rounds word sign names f (t :: u :: ts) = .done (f t.pos u.value found target) rest := by
  rw [named, current_bind, current_cons, discard_bind_of_done (consume_cons ht (by simp)),
    bind_of_done (consume_cons hu hne), bind_of_done hnames, discard_bind_of_done (consume_cons hv hm),
    bind_of_done hi, pure_apply]

theorem named_done {a : α} (h : named rounds word sign names f ts = .done a rest) :
    ts.current.kind = word ∧ ts.behind.current.kind = .identifier ∧
      ∃ found target, a = f ts.current.pos ts.behind.current.value found target := by
  rw [named, current_bind] at h
  obtain ⟨_, _, hword, h⟩ := discard_bind_done_iff.1 h
  obtain ⟨hk, -, rfl⟩ := consume_done_iff.1 hword
  obtain ⟨_, _, hname, h⟩ := bind_done_iff.1 h
  obtain ⟨hk', rfl, -⟩ := consume_done_iff.1 hname
  obtain ⟨found, _, -, h⟩ := bind_done_iff.1 h
  obtain ⟨_, _, -, h⟩ := discard_bind_done_iff.1 h
  obtain ⟨target, _, -, h⟩ := bind_done_iff.1 h
  obtain ⟨rfl, -⟩ := pure_done_iff.1 h
  exact ⟨hk, hk', found, target, rfl⟩

end

/-! ## Documents -/

/-- The lines of documentation in front of a declaration, joined; none if that is empty. -/
def joinedDoc (lines : List String) : Option String :=
  if ("\n".intercalate lines).isEmpty then none else some ("\n".intercalate lines)

theorem declarationDoc_of_ne (h : ts.current.kind ≠ .docComment) :
    declarationDoc ts = .done none ts := by
  rw [declarationDoc, sees_bind, if_neg (by simpa using h), pure_apply]

theorem declarationDoc_of_lines {lines : List String} (h : ts.current.kind = .docComment)
    (hl : docLines ts = .done lines mid) (hn : skipNewlines mid = .done () rest) :
    declarationDoc ts = .done (joinedDoc lines) rest := by
  rw [declarationDoc, sees_bind, h, if_pos (by decide), bind_of_done hl, bind_of_done hn]
  rfl

theorem declaration_struct
    (hk : ts.current.kind = .struct) (h : structType rounds ts = .done type rest) :
    declaration rounds doc ts = .done (.anonymous type) rest := by
  rw [declaration, current_bind, hk]
  exact map_of_done h

theorem declaration_enum
    (hk : ts.current.kind = .enum) (h : enumType rounds ts = .done type rest) :
    declaration rounds doc ts = .done (.anonymous type) rest := by
  rw [declaration, current_bind, hk]
  exact map_of_done h

theorem declaration_alias {decl : Alias} (hk : ts.current.kind = .type)
    (h : typeAlias rounds ts = .done decl rest) :
    declaration rounds doc ts = .done (.alias { decl with doc := doc }) rest := by
  rw [declaration, current_bind, hk]
  exact bind_of_done h

theorem declaration_dispatch {decl : Declaration}
    (hk : ts.current.kind = .dispatch) (h : dispatchStatement rounds ts = .done decl rest) :
    declaration rounds doc ts = .done decl rest := by
  rw [declaration, current_bind, hk]
  exact h

theorem declaration?_none (h : skipNewlines ts = .done () rest) (hk : rest.current.kind = .eof) :
    declaration? rounds ts = .done none rest := by
  rw [declaration?, bind_of_done h, sees_bind, hk]
  rfl

theorem declaration?_some {decl : Declaration} {behindDecl : TokenStream}
    (h : skipNewlines ts = .done () mid) (hk : mid.current.kind ≠ .eof)
    (hd : declarationDoc mid = .done doc last)
    (hi : declaration rounds doc last = .done decl behindDecl)
    (hn : skipNewlines behindDecl = .done () rest) :
    declaration? rounds ts = .done (some decl) rest := by
  rw [declaration?, bind_of_done h, sees_bind, if_neg (by simpa using hk), bind_of_done hd,
    bind_of_done hi, bind_of_done hn, pure_apply]

theorem document_of_chain {declarations : List (Option Declaration)}
    (hc : Chain (· != .eof) (declaration? rounds) ts declarations rest)
    (hn : declarations.length ≤ rounds) :
    document rounds ts = .done { declarations := declarations.reduceOption } rest := by
  rw [document, bind_of_done (hc.repeatWhile hn), pure_apply]

theorem useStatement_ne_done {decl : Declaration} : useStatement rounds ts ≠ .done decl rest := by
  intro h
  obtain ⟨_, _, -, h⟩ := discard_bind_done_iff.1 h
  obtain ⟨_, _, -, h⟩ := discard_bind_done_iff.1 h
  cases h

theorem ofTokens_ok_iff {doc : Document} :
    Document.ofTokens ts = .ok doc ↔ ∃ rest, document (roundsFor ts) ts = .done doc rest := by
  rw [Document.ofTokens, bounded]
  cases document (roundsFor ts) ts <;> simp [Outcome.toExcept]

theorem ofTokens_error_iff {fault : ParseFault} :
    Document.ofTokens ts = .error fault ↔
      ∃ rest, document (roundsFor ts) ts = .failed fault rest := by
  rw [Document.ofTokens, bounded]
  cases document (roundsFor ts) ts <;> simp [Outcome.toExcept]

end Parse

namespace Document

variable {text : String} {ts : List Token} {doc : Document}

theorem ofString_of_scan (h : Token.scan text = .ok ts) :
    ofString text = (ofTokens ts).mapError .parse := by
  rw [ofString, h]
  cases hts : ofTokens ts <;> simp only [hts] <;> rfl

theorem exists_scan_of_ofString (h : ofString text = .ok doc) :
    ∃ ts, Token.scan text = .ok ts ∧ ofTokens ts = .ok doc := by
  cases hscan : Token.scan text with
  | error fault =>
    rw [ofString, hscan] at h
    cases h
  | ok ts =>
    rw [ofString_of_scan hscan] at h
    cases hts : ofTokens ts with
    | error fault =>
      rw [hts] at h
      cases h
    | ok doc' =>
      rw [hts] at h
      cases h
      exact ⟨ts, rfl, hts⟩

theorem ofTokens_of_ofString (h : Token.scan text = .ok ts) (hdoc : ofString text = .ok doc) :
    ofTokens ts = .ok doc := by
  obtain ⟨ts', hscan, hts⟩ := exists_scan_of_ofString hdoc
  cases h.symm.trans hscan
  exact hts

end McdocSchema.Document
