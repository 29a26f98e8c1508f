import McdocSchema.Proofs.NodeTokens

/-!
# Where nodes stand

The nodes of a document that comes from a text, at any depth, are made of some of its tokens: each parser
gives types of which all nodes are made so (`Parse.AllMade`). No two tokens stand at the same place, and
therefore the position of a node is that of one of its own tokens or it is not. It is for all nodes but the
empty tuple.
-/

namespace McdocSchema

open TokenStream

namespace Parse

open Grammar Ebnf

variable {α : Type} {ts rest : TokenStream} {node : TypeExpr} {rounds n m : Nat}

/-! ## All nodes are made -/

def IsMade (tokens : TokenStream) (node : TypeExpr) : Prop :=
  ∃ ts rest, tokens.ComesTo ts ∧ Makes ts node rest

/-- Whatever occurs in the type is made of some of the tokens. -/
def AllMade (tokens : TokenStream) (type : TypeExpr) : Prop :=
  ∀ node : TypeExpr, node.OccursIn type → IsMade tokens node

theorem allMade_of_parts {tokens : TokenStream} (hnode : IsMade tokens node)
    (hparts : ∀ t ∈ node.parts, AllMade tokens t) : AllMade tokens node := by
  intro u hu
  obtain rfl | ⟨t, ht, hu⟩ := hu.cases_parts
  · exact hnode
  · exact hparts t ht u hu

section

variable {tokens : TokenStream} (hended : Ended tokens)

include hended

theorem comesTo_of_reaches (h : tokens.Reaches ts) : tokens.ComesTo ts :=
  ⟨h.leaves.1, hended.of_suffix h.leaves.1 (h.leaves.2 hended.ne_nil)⟩

theorem made_listType (hi : Gives tokens (typeExpr m) (AllMade tokens)) :
    Gives tokens (listType (typeExpr m)) (AllMade tokens) := by
  intro ts node rest hts h
  refine ⟨?_, (gives_listType (gives_typeExpr m) ts node rest hts h).2⟩
  apply allMade_of_parts ⟨ts, rest, comesTo_of_reaches hended hts, .list h⟩
  obtain ⟨-, element, size, mid, helement, -, -, rfl⟩ := listType_done h
  exact List.forall_mem_singleton.2 (hi _ _ _ hts.behind helement).1

theorem made_parenthesizedType (hi : Gives tokens (typeExpr m) (AllMade tokens)) :
    Gives tokens (parenthesizedType n (typeExpr m)) (AllMade tokens) := by
  intro ts node rest hts h
  refine ⟨?_, (gives_parenthesizedType (gives_typeExpr m) ts node rest hts h).2⟩
  have hcomes := comesTo_of_reaches hended hts
  obtain ⟨-, ⟨hclose, -, hnode⟩ | ⟨-, first, mid, hfirst, hcase⟩⟩ := parenthesizedType_done h
  · apply allMade_of_parts ⟨ts, rest, hcomes, .unit hclose h⟩
    rw [hnode]
    simp [TypeExpr.parts]
  · obtain ⟨hmade, hmid⟩ := hi _ _ _ hts.behind hfirst
    rcases hcase with ⟨hcomma, others, last, hchain, -, -, hnode⟩ | ⟨-, -, rfl⟩
    · apply allMade_of_parts ⟨ts, rest, hcomes, .tuple hfirst hcomma h⟩
      rw [hnode]
      have hmember : Gives tokens (tupleMember (typeExpr m)) fun t => ∀ u ∈ t, AllMade tokens u := by
        rw [tupleMember]
        refine gives_advance.bind fun _ _ => gives_sees.bind fun _ _ => .ite (gives_pure (by simp)) ?_
        exact hi.map fun t ht => by simpa using ht
      refine List.forall_mem_cons.2 ⟨hmade, forall_reduceOption ?_⟩
      -- The chain is the repetition of as many rounds as it has.
      exact (gives_repeatWhile hmember _ _ _ hmid (hchain.repeatWhile le_rfl)).1
    · exact hmade

theorem made_referenceType (hi : Gives tokens (typeExpr m) (AllMade tokens)) :
    Gives tokens (referenceType n (typeExpr m)) (AllMade tokens) := by
  intro ts node rest hts h
  refine ⟨?_, (gives_referenceType (gives_typeExpr m) ts node rest hts h).2⟩
  have hcomes := comesTo_of_reaches hended hts
  obtain ⟨name, mid, arguments, next, hname, harguments, hcase⟩ := referenceType_done h
  have hreference : AllMade tokens (.reference ts.current.pos name arguments) := by
    apply allMade_of_parts ⟨ts, next, hcomes, .reference hname harguments⟩
    exact (gives_bracketed hi _ _ _ (gives_path _ _ _ hts hname).2 harguments).1
  rcases hcase with ⟨hk, indices, -, hnode⟩ | ⟨-, -, rfl⟩
  · apply allMade_of_parts ⟨ts, rest, hcomes, .indexed hname harguments hk h⟩
    rw [hnode]
    exact List.forall_mem_singleton.2 hreference
  · exact hreference

theorem made_primaryType (hi : Gives tokens (typeExpr m) (AllMade tokens)) :
    Gives tokens (primaryType n (typeExpr m)) (AllMade tokens) := by
  intro ts node rest hts h
  by_cases hk : ts.current.kind ∈ [.leftBracket, .leftParen, .identifier]
  · simp only [List.mem_cons, List.not_mem_nil, or_false] at hk
    rcases hk with hk | hk | hk
    · rw [primaryType_leftBracket hk] at h
      exact made_listType hended hi _ _ _ hts h
    · rw [primaryType_leftParen hk] at h
      exact made_parenthesizedType hended hi _ _ _ hts h
    · rw [primaryType_identifier hk] at h
      exact made_referenceType hended hi _ _ _ hts h
  · have hcomes := comesTo_of_reaches hended hts
    refine ⟨allMade_of_parts ⟨ts, rest, hcomes, .word hk h⟩ ?_,
      (gives_primaryType (gives_typeExpr m) ts node rest hts h).2⟩
    obtain ⟨-, -, -, hparts, -⟩ := primaryType_word hcomes.ended hk h
    rw [hparts]
    simp

theorem made_unionType (hi : Gives tokens (typeExpr m) (AllMade tokens)) :
    Gives tokens (unionType n (typeExpr m)) (AllMade tokens) := by
  intro ts node rest hts h
  refine ⟨?_, (gives_unionType (gives_typeExpr m) ts node rest hts h).2⟩
  obtain ⟨first, mid, hfirst, hcase⟩ := unionType_done h
  obtain ⟨hmade, hmid⟩ := made_primaryType hended hi _ _ _ hts hfirst
  rcases hcase with ⟨hk, others, hchain, hnode⟩ | ⟨-, -, rfl⟩
  · apply allMade_of_parts ⟨ts, rest, comesTo_of_reaches hended hts, .union hfirst hk h⟩
    rw [hnode]
    have hstep : Gives tokens (unionStep n (typeExpr m)) (AllMade tokens) :=
      gives_advance.bind fun _ _ => made_primaryType hended hi
    exact List.forall_mem_cons.2
      ⟨hmade, (gives_repeatWhile hstep _ _ _ hmid (hchain.repeatWhile le_rfl)).1⟩
  · exact hmade

theorem made_typeExpr (m : Nat) : Gives tokens (typeExpr m) (AllMade tokens) := by
  induction m with
  | zero => exact gives_throw
  | succ m ih => exact made_unionType hended ih

theorem made_structType : Gives tokens (structType n) (AllMade tokens) := by
  have hitem : ∀ doc, Gives tokens (structItem (typeExpr n) doc)
      (Sum.elim (fun field => AllMade tokens field.type) (AllMade tokens)) := by
    intro doc
    rw [structItem]
    refine gives_eat.bind fun _ _ => .ite ((made_typeExpr hended n).map fun t ht => ht) ?_
    refine gives_consume.bind fun name _ => gives_eat.bind fun optional _ => ?_
    refine gives_consume.discard.bind fun _ _ => (made_typeExpr hended n).bind fun type htype => ?_
    exact gives_pure htype
  intro ts node rest hts h
  refine ⟨?_, (gives_structType ts node rest hts h).2⟩
  apply allMade_of_parts ⟨ts, rest, comesTo_of_reaches hended hts, .struct h⟩
  obtain ⟨-, members, hmembers, rfl⟩ := structType_done h
  have hall := forall_members (gives_body (fun doc _ => hitem doc) _ _ _ hts.behind hmembers).1
  refine List.forall_mem_append.2 ⟨fun t ht => ?_, hall.2⟩
  obtain ⟨field, hfield, rfl⟩ := List.mem_map.1 ht
  exact hall.1 field hfield

theorem made_enumType : Gives tokens (enumType n) (AllMade tokens) := by
  intro ts node rest hts h
  refine ⟨?_, (gives_enumType ts node rest hts h).2⟩
  apply allMade_of_parts ⟨ts, rest, comesTo_of_reaches hended hts, .enum h⟩
  obtain ⟨-, variants, -, rfl⟩ := enumType_done h
  simp [TypeExpr.parts]

end

/-! ## Placed nodes -/

/-- The node is made of tokens of which one has its position. -/
def IsPlaced (tokens : List Token) (node : TypeExpr) : Prop :=
  ∃ front own rest, tokens = front ++ own ++ rest ∧ Makes (own ++ rest) node rest ∧
    ∃ t ∈ own, node.pos? = some t.pos

theorem Makes.pos?_eq (h : Makes ts node rest) : node.pos? = some node.pos := by
  have hsome : node.pos?.isSome = true := by
    cases h with
    | @word n m _ _ _ hk h => exact positioned_primaryType (positioned_typeExpr m) _ _ _ h
    | list h =>
      obtain ⟨-, _, _, _, -, -, -, rfl⟩ := listType_done h
      rfl
    | @unit n m _ _ _ hk h => exact positioned_parenthesizedType (positioned_typeExpr m) _ _ _ h
    | @tuple n m _ _ _ _ _ hfirst hk h =>
      exact positioned_parenthesizedType (positioned_typeExpr m) _ _ _ h
    | reference => rfl
    | indexed hname harguments hk h =>
      obtain ⟨_, _, _, _, -, -, ⟨-, _, -, rfl⟩ | ⟨-, -, rfl⟩⟩ := referenceType_done h <;> rfl
    | @union n m _ _ _ _ _ hfirst hk h =>
      obtain ⟨_, _, hfirst, ⟨-, _, -, rfl⟩ | ⟨-, rfl, rfl⟩⟩ := unionType_done h
      · rfl
      · exact positioned_primaryType (positioned_typeExpr m) _ _ _ hfirst
    | struct h =>
      obtain ⟨-, _, -, rfl⟩ := structType_done h
      rfl
    | enum h =>
      obtain ⟨-, _, -, rfl⟩ := enumType_done h
      rfl
  obtain ⟨pos, hpos⟩ := Option.isSome_iff_exists.1 hsome
  rw [TypeExpr.pos, hpos]
  rfl

section

variable {tokens : TokenStream}

theorem isPlaced_of_isMade (h : IsMade tokens node) (hunit : node.isUnit = false) :
    IsPlaced tokens node := by
  obtain ⟨ts, rest, ⟨⟨front, hfront⟩, hts⟩, hmakes⟩ := h
  obtain ⟨-, -, -, rfl⟩ | ⟨-, hpasses⟩ := hmakes.unit_or_passes hts
  · cases hunit
  · obtain ⟨own, rfl, t, ht, hpos⟩ := hpasses.exists_mem
    refine ⟨front, own, rest, ?_, hmakes, t, ht, ?_⟩
    · rw [List.append_assoc, hfront]
    · rw [hmakes.pos?_eq, hpos]

/-- The empty tuple stands at the token behind it, and no two tokens stand at the same place. -/
theorem not_isPlaced_of_isUnit (hended : Ended tokens)
    (hbefore : tokens.Pairwise fun t u => t.pos.Before u.pos) (hunit : node.isUnit = true) :
    ¬ IsPlaced tokens node := by
  rintro ⟨front, own, rest, rfl, hmakes, t, ht, hpos⟩
  have hown : Ended (own ++ rest) := by
    refine hended.of_suffix ⟨front, (List.append_assoc _ _ _).symm⟩ ?_
    exact List.append_ne_nil_of_left_ne_nil (List.ne_nil_of_mem ht) rest
  obtain ⟨-, -, hrest, rfl⟩ | ⟨hfalse, -⟩ := hmakes.unit_or_passes hown
  · have hended' : Ended rest := by
      rw [hrest]
      exact hown.comesTo_behind.behind.ended
    obtain ⟨u, more, rfl⟩ := List.exists_cons_of_ne_nil hended'.ne_nil
    have hlt : t.pos.Before u.pos :=
      (List.pairwise_append.1 hbefore).2.2 t (List.mem_append_right front ht) u List.mem_cons_self
    exact hlt.ne (Option.some.inj hpos).symm
  · rw [hunit] at hfalse
    cases hfalse

theorem exists_parens_of_isUnit (h : IsMade tokens node) (hunit : node.isUnit = true) :
    ∃ front opening closing rest, tokens = front ++ opening :: closing :: rest ∧
      opening.kind = .leftParen ∧ closing.kind = .rightParen ∧
        Makes (opening :: closing :: rest) node rest ∧
          node.pos? = some (TokenStream.current rest).pos := by
  obtain ⟨ts, rest, ⟨⟨front, rfl⟩, hts⟩, hmakes⟩ := h
  obtain ⟨hopen, hclose, hrest, hnode⟩ | ⟨hfalse, -⟩ := hmakes.unit_or_passes hts
  · obtain ⟨hcons, hbehind⟩ := hts.behind (by rw [hopen]; decide)
    obtain ⟨hcons', -⟩ := hbehind.behind (by rw [hclose]; decide)
    rw [← hrest] at hcons'
    rw [hcons'] at hcons
    refine ⟨front, ts.current, ts.behind.current, rest, by rw [← hcons], hopen, hclose, ?_, ?_⟩
    · rwa [← hcons]
    · rw [hnode]
      rfl
  · rw [hunit] at hfalse
    cases hfalse

end

/-- **Every node but the empty tuple stands at one of its own tokens.** In a document that comes from a
text, a node of a type, at any depth, is made of tokens of which one has its position if and only if it is
not the empty tuple. That one stands at the token behind its parentheses. -/
theorem node_isPlaced_iff {text : String} {tokens : List Token} {doc : Document} {decl : Declaration}
    {root node : TypeExpr} (hscan : Token.scan text = .ok tokens)
    (hdoc : Document.ofTokens tokens = .ok doc) (hdecl : decl ∈ doc.declarations)
    (hroot : root ∈ decl.nodes) (hnode : node.OccursIn root) :
    (IsPlaced tokens node ↔ node.isUnit = false) ∧
      (node.isUnit = true → ∃ front opening closing rest, tokens = front ++ opening :: closing :: rest ∧
        opening.kind = .leftParen ∧ closing.kind = .rightParen ∧
          Makes (opening :: closing :: rest) node rest ∧
            node.pos? = some (TokenStream.current rest).pos) := by
  have hended := Token.scan_ended hscan
  have hall := (isPrintable_of_ofTokens (Token.scan_legible hscan) hdoc (made_typeExpr hended)
    (fun _ => made_structType hended) fun _ => made_enumType hended).2
  have hmade : IsMade tokens node := hall decl hdecl root hroot node hnode
  refine ⟨⟨fun hplaced => ?_, isPlaced_of_isMade hmade⟩, exists_parens_of_isUnit hmade⟩
  by_contra hunit
  rw [Bool.not_eq_false] at hunit
  exact not_isPlaced_of_isUnit hended (Token.pairwise_of_scan hscan) hunit hplaced

/-- A union and the tuple in it stand at the comma behind their first member, the empty tuple, which has
no place of its own. -/
theorem node_isPlaced_iff_nested :
    let tokens : List Token := [⟨.type, "type", ⟨1, 1⟩⟩, ⟨.identifier, "X", ⟨1, 6⟩⟩, ⟨.equals, "=", ⟨1, 8⟩⟩,
      ⟨.leftParen, "(", ⟨1, 10⟩⟩, ⟨.leftParen, "(", ⟨1, 11⟩⟩, ⟨.rightParen, ")", ⟨1, 12⟩⟩,
      ⟨.comma, ",", ⟨1, 13⟩⟩, ⟨.any, "any", ⟨1, 15⟩⟩, ⟨.rightParen, ")", ⟨1, 18⟩⟩, ⟨.pipe, "|", ⟨1, 20⟩⟩,
      ⟨.any, "any", ⟨1, 22⟩⟩, .eofAt ⟨1, 25⟩]
    let unit : TypeExpr := .tuple ⟨1, 13⟩ []
    let root : TypeExpr := .union ⟨1, 13⟩ [.tuple ⟨1, 13⟩ [unit, .any ⟨1, 15⟩], .any ⟨1, 22⟩]
    Token.scan "type X = ((), any) | any" = .ok tokens ∧
      Document.ofTokens tokens = .ok { declarations := [.alias ⟨⟨1, 1⟩, "X", [], root, none⟩] } ∧
      IsPlaced tokens root ∧ unit.OccursIn root ∧ ¬ IsPlaced tokens unit := by
  intro tokens unit root
  have hscan : Token.scan "type X = ((), any) | any" = .ok tokens := by
    dsimp only [tokens]
    cbv
  have hdoc : Document.ofTokens tokens =
      .ok { declarations := [.alias ⟨⟨1, 1⟩, "X", [], root, none⟩] } := rfl
  have hunit : unit.OccursIn root :=
    .head (b := .tuple ⟨1, 13⟩ [unit, .any ⟨1, 15⟩]) List.mem_cons_self
      (.single (b := root) List.mem_cons_self)
  have hplaced := node_isPlaced_iff hscan hdoc List.mem_cons_self List.mem_cons_self .refl
  have hunplaced := node_isPlaced_iff hscan hdoc List.mem_cons_self List.mem_cons_self hunit
  refine ⟨hscan, hdoc, hplaced.1.2 rfl, hunit, fun h => ?_⟩
  have hfalse := hunplaced.1.1 h
  cases hfalse

/-- The empty tuple of an alias stands at the end of the text, and its tokens are two parentheses. -/
theorem unit_not_placed :
    let tokens : List Token := [⟨.type, "type", ⟨1, 1⟩⟩, ⟨.identifier, "X", ⟨1, 6⟩⟩, ⟨.equals, "=", ⟨1, 8⟩⟩,
      ⟨.leftParen, "(", ⟨1, 10⟩⟩, ⟨.rightParen, ")", ⟨1, 11⟩⟩, .eofAt ⟨1, 12⟩]
    Token.scan "type X = ()" = .ok tokens ∧
      Document.ofTokens tokens =
        .ok { declarations := [.alias ⟨⟨1, 1⟩, "X", [], .tuple ⟨1, 12⟩ [], none⟩] } ∧
      Makes (tokens.drop 3) (.tuple ⟨1, 12⟩ []) [.eofAt ⟨1, 12⟩] ∧
      ¬ IsPlaced tokens (.tuple ⟨1, 12⟩ []) := by
  intro tokens
  have hscan : Token.scan "type X = ()" = .ok tokens := by
    dsimp only [tokens]
    cbv
  refine ⟨hscan, rfl, .unit (n := 0) (m := 0) rfl rfl, ?_⟩
  exact not_isPlaced_of_isUnit (Token.scan_ended hscan) (Token.pairwise_of_scan hscan) rfl

end Parse

end McdocSchema
