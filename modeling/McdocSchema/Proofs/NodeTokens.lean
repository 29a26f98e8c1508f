import McdocSchema.Proofs.CompiledShape
import McdocSchema.Proofs.Derivation
import McdocSchema.Proofs.EditedTexts

/-!
# The tokens of a node

Every node of a type is made by one of the parsers, of the tokens that this parser passes (`Parse.Makes`).
Parentheses around a type make none, and so they are no tokens of the type. One of the tokens of a node has
its position, with one exception (`Makes.unit_or_passes`): the empty tuple takes its position when both
parentheses have been passed, and it stands at the token behind them.
-/

namespace McdocSchema

open TokenStream

namespace TokenStream

/-- `rest` is left of the stream somewhere, and the end of the text is in it. -/
structure ComesTo (ts rest : TokenStream) : Prop where
  suffix : rest <:+ ts
  ended : Ended rest

variable {ts mid rest : TokenStream}

theorem Ended.comesTo (h : Ended ts) : ts.ComesTo ts := ⟨List.suffix_rfl, h⟩

theorem ComesTo.trans (h : ts.ComesTo mid) (h' : mid.ComesTo rest) : ts.ComesTo rest :=
  ⟨h'.suffix.trans h.suffix, h'.ended⟩

theorem ComesTo.behind (h : ts.ComesTo mid) : ts.ComesTo mid.behind := by
  by_cases hk : mid.current.kind = .eof
  · obtain ⟨front, last, rfl, hlast, hfront⟩ := h.ended
    cases front with
    | nil => exact h
    | cons t front => exact absurd hk (hfront t List.mem_cons_self)
  · obtain ⟨hcons, hended⟩ := h.ended.behind hk
    refine ⟨List.IsSuffix.trans ?_ h.suffix, hended⟩
    nth_rewrite 2 [hcons]
    exact List.suffix_cons _ _

theorem Ended.comesTo_behind (h : Ended ts) : ts.ComesTo ts.behind := h.comesTo.behind

/-- A stream is left at once, or behind its first token. -/
theorem ComesTo.eq_or_behind (h : ts.ComesTo rest) (hts : Ended ts) :
    ts = rest ∨ ts.current.kind ≠ .eof ∧ ts.behind.ComesTo rest := by
  obtain ⟨front, rfl⟩ := h.suffix
  cases front with
  | nil => exact .inl rfl
  | cons t front =>
    obtain ⟨u, rest, rfl⟩ := List.exists_cons_of_ne_nil h.ended.ne_nil
    have hne : t.kind ≠ .eof := hts.ne_eof_of_mem_front t List.mem_cons_self
    refine .inr ⟨hne, ?_⟩
    have hbehind : TokenStream.behind (t :: front ++ u :: rest) = front ++ u :: rest :=
      behind_cons (by simp)
    rw [hbehind]
    exact ⟨List.suffix_append _ _, h.ended⟩

/-- The position of a token that is passed on the way. -/
def Passes (ts rest : TokenStream) (pos : Position) : Prop :=
  ∃ ws, ts.ComesTo ws ∧ ws.current.kind ≠ .eof ∧ ws.behind.ComesTo rest ∧ ws.current.pos = pos

/-- The position of a token that is passed on the way, or of the one that is reached. -/
def Touches (ts rest : TokenStream) (pos : Position) : Prop :=
  ∃ ws, ts.ComesTo ws ∧ ws.ComesTo rest ∧ ws.current.pos = pos

variable {pos : Position}

theorem Passes.exists_mem (h : ts.Passes rest pos) :
    ∃ own, ts = own ++ rest ∧ ∃ t ∈ own, t.pos = pos := by
  obtain ⟨ws, ⟨⟨front, hfront⟩, hws⟩, hk, ⟨⟨mids, hmids⟩, -⟩, hpos⟩ := h
  obtain ⟨hcons, -⟩ := hws.behind hk
  refine ⟨front ++ ws.current :: mids, ?_, ws.current, by simp, hpos⟩
  rw [← hfront, hcons, ← hmids]
  simp

theorem Touches.widen {us : TokenStream} (h : mid.Touches rest pos) (hmid : us.ComesTo mid) :
    us.Touches rest pos := by
  obtain ⟨ws, hws, hrest, hpos⟩ := h
  exact ⟨ws, hmid.trans hws, hrest, hpos⟩

/-- What is touched has been passed once the token that was reached is passed. -/
theorem Touches.passes (h : ts.Touches mid pos) (hk : mid.current.kind ≠ .eof)
    (hrest : mid.behind.ComesTo rest) : ts.Passes rest pos := by
  obtain ⟨ws, hws, hmid, hpos⟩ := h
  obtain rfl | ⟨hne, hbehind⟩ := hmid.eq_or_behind hws.ended
  · exact ⟨ws, hws, hk, hrest, hpos⟩
  · have hnext := (hbehind.trans hmid.ended.comesTo_behind).trans hrest
    exact ⟨ws, hws, hne, hnext, hpos⟩

theorem Passes.touches (h : ts.Passes rest pos) : ts.Touches rest pos := by
  obtain ⟨ws, hws, -, hrest, hpos⟩ := h
  exact ⟨ws, hws, hws.ended.comesTo_behind.trans hrest, hpos⟩

theorem passes_current (hts : Ended ts) (hk : ts.current.kind ≠ .eof) (h : ts.behind.ComesTo rest) :
    ts.Passes rest ts.current.pos :=
  ⟨ts, hts.comesTo, hk, h, rfl⟩

end TokenStream

/-- The node is a tuple without members. -/
def TypeExpr.isUnit : TypeExpr → Bool
  | .tuple _ [] => true
  | _ => false

namespace Grammar

open Ebnf

/-- Tokens that are derived from a grammar are left behind. -/
theorem comesTo_of_spans {e : Ebnf Rule} {ts rest : TokenStream} (h : Spans rules e ts rest ∧ Ended rest) :
    ts.ComesTo rest := by
  obtain ⟨⟨w, hw, -⟩, hended⟩ := h
  exact ⟨⟨w, hw.symm⟩, hended⟩

theorem Reads.comesTo {α : Type} {p : Parse α} {e : Ebnf Rule} (hp : Reads Parse.Anywhere p e) {a : α}
    {us ts rest : TokenStream} (hts : us.ComesTo ts) (h : p ts = .done a rest) : us.ComesTo rest :=
  hts.trans (comesTo_of_spans (hp.parsed ts a rest hts.ended h))

end Grammar

namespace Parse

open Grammar Ebnf

variable {α : Type} {ts us mid rest : TokenStream} {node : TypeExpr} {inner : Parse TypeExpr}
  {rounds n m : Nat} {pos : Position}

/-- The tokens that start neither a list nor a parenthesis nor a reference stand for themselves. -/
theorem primaryType_word (hts : Ended ts) (hk : ts.current.kind ∉ [.leftBracket, .leftParen, .identifier])
    (h : primaryType rounds inner ts = .done node rest) :
    ts.current.kind ≠ .eof ∧ ts.behind.ComesTo rest ∧ node.pos? = some ts.current.pos ∧
      node.parts = [] ∧ node.isUnit = false := by
  have hbehind := hts.comesTo_behind.ended.comesTo
  have hranged : ∀ {f : Option NumberRange → TypeExpr},
      (range? >>= fun r => pure (f r)) ts.behind = .done node rest →
        ts.behind.ComesTo rest ∧ ∃ r, node = f r := by
    intro f h
    obtain ⟨r, last, hr, h⟩ := bind_done_iff.1 h
    obtain ⟨rfl, rfl⟩ := pure_done_iff.1 h
    exact ⟨reads_range?.comesTo hbehind hr, r, rfl⟩
  rw [primaryType, current_bind] at h
  cases hc : ts.current.kind <;> rw [hc] at h hk
  case any | booleanType | integer | float | string | boolean =>
    obtain ⟨rfl, rfl⟩ := pure_done_iff.1 h
    exact ⟨by decide, hbehind, rfl, rfl, rfl⟩
  case stringType | byte | short | int | long | floatType | double =>
    obtain ⟨hrest, r, rfl⟩ := hranged h
    exact ⟨by decide, hrest, rfl, rfl, rfl⟩
  case leftBracket | leftParen | identifier => simp at hk
  all_goals cases h

/-! ## Positions of types -/

theorem comesTo_reference {name : String} {arguments : List TypeExpr} (hts : Ended ts)
    (hi : Reads Anywhere inner (.rule .type)) (hname : path rounds ts = .done name mid)
    (harguments : typeArguments rounds inner mid = .done arguments rest) :
    ts.current.kind = .identifier ∧ ts.behind.ComesTo mid ∧ mid.ComesTo rest := by
  have hmid := reads_path.comesTo hts.comesTo hname
  have hrest := (reads_typeArguments hi).comesTo hmid.ended.comesTo harguments
  rw [path] at hname
  obtain ⟨_, _, hfirst, hname⟩ := bind_done_iff.1 hname
  obtain ⟨hk, -, rfl⟩ := consume_done_iff.1 hfirst
  obtain ⟨others, last, hothers, hname⟩ := bind_done_iff.1 hname
  obtain ⟨-, rfl⟩ := pure_done_iff.1 hname
  have hbehind := hts.comesTo_behind.ended.comesTo
  exact ⟨hk, (reads_repeatWhile reads_pathStep).comesTo hbehind hothers, hrest⟩

/-- The position of a type is that of a token from its first one up to the one behind it. -/
def IsTouching (p : Parse TypeExpr) : Prop :=
  ∀ ts node rest, Ended ts → p ts = .done node rest → ts.Touches rest node.pos

theorem comesTo_behind_of_ne (h : ts.ComesTo rest) (hts : Ended ts)
    (hne : ts.current.kind ≠ rest.current.kind) : ts.behind.ComesTo rest := by
  obtain rfl | ⟨-, hbehind⟩ := h.eq_or_behind hts
  · exact absurd rfl hne
  · exact hbehind

/-- All parentheses with something between them pass the token whose position they have. -/
theorem passes_of_parenthesizedType (hi : Reads Anywhere inner (.rule .type)) (htouch : IsTouching inner)
    (hts : Ended ts) (h : parenthesizedType rounds inner ts = .done node rest)
    (hne : ts.behind.current.kind ≠ .rightParen) : ts.Passes rest node.pos := by
  obtain ⟨-, ⟨hclose, -, -⟩ | ⟨-, first, mid, hfirst, hcase⟩⟩ := parenthesizedType_done h
  · exact absurd hclose hne
  · have hbehind := hts.comesTo_behind
    have hpos := (htouch _ _ _ hbehind.ended hfirst).widen hbehind
    have hmid := hi.comesTo hbehind hfirst
    rcases hcase with ⟨hcomma, others, last, hchain, hlast, rfl, rfl⟩ | ⟨hlast, rfl, rfl⟩
    · have hothers : mid.ComesTo last := comesTo_of_spans <|
        (reads_tupleRest hi).spans mid others last hmid.ended (by rw [hcomma]; rfl)
          (hchain.repeatWhile le_rfl)
      have hpassed : mid.behind.ComesTo last :=
        comesTo_behind_of_ne hothers hmid.ended (by rw [hcomma, hlast]; decide)
      exact hpos.passes (by rw [hcomma]; decide) hpassed.behind
    · exact hpos.passes (by rw [hlast]; decide) hmid.behind.ended.comesTo

theorem isTouching_primaryType (hi : Reads Anywhere inner (.rule .type)) (htouch : IsTouching inner) :
    IsTouching (primaryType rounds inner) := by
  intro ts node rest hts h
  by_cases hk : ts.current.kind ∈ [.leftBracket, .leftParen, .identifier]
  · have hrest := (reads_primaryType hi).comesTo hts.comesTo h
    have hcurrent : node.pos = ts.current.pos → ts.Touches rest node.pos :=
      fun hpos => ⟨ts, hts.comesTo, hrest, hpos.symm⟩
    simp only [List.mem_cons, List.not_mem_nil, or_false] at hk
    rcases hk with hk | hk | hk
    · rw [primaryType_leftBracket hk] at h
      obtain ⟨-, element, size, mid, -, -, -, rfl⟩ := listType_done h
      exact hcurrent rfl
    · rw [primaryType_leftParen hk] at h
      by_cases hempty : ts.behind.current.kind = .rightParen
      · obtain ⟨-, ⟨-, rfl, rfl⟩ | ⟨hne, -⟩⟩ := parenthesizedType_done h
        -- The empty tuple stands at the token that is reached.
        · exact ⟨ts.behind.behind, hrest, hrest.ended.comesTo, rfl⟩
        · exact absurd hempty hne
      · exact (passes_of_parenthesizedType hi htouch hts h hempty).touches
    · rw [primaryType_identifier hk] at h
      obtain ⟨_, _, _, _, -, -, ⟨-, indices, -, rfl⟩ | ⟨-, rfl, rfl⟩⟩ := referenceType_done h
      · exact hcurrent rfl
      · exact hcurrent rfl
  · obtain ⟨hne, hrest, hpos, -, -⟩ := primaryType_word hts hk h
    have hcurrent : node.pos = ts.current.pos := by
      rw [TypeExpr.pos, hpos]
      rfl
    rw [hcurrent]
    exact (passes_current hts hne hrest).touches

/-- A union passes the token whose position it has: at worst this is its first bar. -/
theorem passes_of_unionType {first : TypeExpr} (hi : Reads Anywhere inner (.rule .type))
    (htouch : IsTouching inner) (hts : Ended ts) (hfirst : primaryType rounds inner ts = .done first mid)
    (hk : mid.current.kind = .pipe) (h : unionType rounds inner ts = .done node rest) :
    ts.Passes rest node.pos ∧ ∃ others, node = .union first.pos (first :: others) := by
  obtain ⟨first', mid', hfirst', hcase⟩ := unionType_done h
  rw [hfirst] at hfirst'
  cases hfirst'
  have hmid := (reads_primaryType hi).comesTo hts.comesTo hfirst
  rcases hcase with ⟨-, others, hchain, rfl⟩ | ⟨hne, -, -⟩
  · have hothers : mid.ComesTo rest :=
      (reads_repeatWhile (reads_unionStep hi)).comesTo hmid.ended.comesTo (hchain.repeatWhile le_rfl)
    have hstop : rest.current.kind ≠ .pipe := by simpa using hchain.stops
    have hpassed : mid.behind.ComesTo rest :=
      comesTo_behind_of_ne hothers hmid.ended (by rw [hk]; exact hstop.symm)
    have hpos := isTouching_primaryType hi htouch ts first mid hts hfirst
    exact ⟨hpos.passes (by rw [hk]; decide) hpassed, others, rfl⟩
  · exact absurd hk hne

theorem isTouching_typeExpr (m : Nat) : IsTouching (typeExpr m) := by
  induction m with
  | zero =>
    intro ts node rest _ h
    cases h
  | succ m ih =>
    intro ts node rest hts h
    have hi : Reads Anywhere (typeExpr m) (.rule .type) := reads_typeExpr m
    obtain ⟨first, mid, hfirst, hcase⟩ := unionType_done h
    rcases hcase with ⟨hk, -⟩ | ⟨-, rfl, rfl⟩
    · exact (passes_of_unionType hi ih hts hfirst hk h).1.touches
    · exact isTouching_primaryType hi ih ts node mid hts hfirst

/-! ## Nodes and their tokens -/

/-- A parser that is started at `ts` makes the node and leaves `rest`: the tokens between them are those
that the node is made of. -/
inductive Makes : TokenStream → TypeExpr → TokenStream → Prop
  /-- A word or a literal, perhaps with a range. -/
  | word {n m : Nat} {ts rest : TokenStream} {node : TypeExpr}
      (hk : ts.current.kind ∉ [.leftBracket, .leftParen, .identifier])
      (h : primaryType n (typeExpr m) ts = .done node rest) : Makes ts node rest
  | list {m : Nat} {ts rest : TokenStream} {node : TypeExpr}
      (h : listType (typeExpr m) ts = .done node rest) : Makes ts node rest
  /-- Two parentheses with nothing between them. -/
  | unit {n m : Nat} {ts rest : TokenStream} {node : TypeExpr}
      (hk : ts.behind.current.kind = .rightParen)
      (h : parenthesizedType n (typeExpr m) ts = .done node rest) : Makes ts node rest
  /-- Parentheses with a comma behind the first type. -/
  | tuple {n m : Nat} {ts mid rest : TokenStream} {first node : TypeExpr}
      (hfirst : typeExpr m ts.behind = .done first mid) (hk : mid.current.kind = .comma)
      (h : parenthesizedType n (typeExpr m) ts = .done node rest) : Makes ts node rest
  /-- A path with its arguments, whether indices follow or not. -/
  | reference {n m : Nat} {ts mid rest : TokenStream} {name : String} {arguments : List TypeExpr}
      (hname : path n ts = .done name mid)
      (harguments : typeArguments n (typeExpr m) mid = .done arguments rest) :
      Makes ts (.reference ts.current.pos name arguments) rest
  /-- A reference with indices. -/
  | indexed {n m : Nat} {ts mid next rest : TokenStream} {name : String} {arguments : List TypeExpr}
      {node : TypeExpr} (hname : path n ts = .done name mid)
      (harguments : typeArguments n (typeExpr m) mid = .done arguments next)
      (hk : next.current.kind = .leftBracket)
      (h : referenceType n (typeExpr m) ts = .done node rest) : Makes ts node rest
  /-- Alternatives with a bar behind the first one. -/
  | union {n m : Nat} {ts mid rest : TokenStream} {first node : TypeExpr}
      (hfirst : primaryType n (typeExpr m) ts = .done first mid) (hk : mid.current.kind = .pipe)
      (h : unionType n (typeExpr m) ts = .done node rest) : Makes ts node rest
  | struct {n : Nat} {ts rest : TokenStream} {node : TypeExpr}
      (h : structType n ts = .done node rest) : Makes ts node rest
  | enum {n : Nat} {ts rest : TokenStream} {node : TypeExpr}
      (h : enumType n ts = .done node rest) : Makes ts node rest

theorem typeExpr_ne_done_of_rightParen (hk : ts.current.kind = .rightParen) :
    typeExpr m ts ≠ .done node rest := by
  intro h
  cases m with
  | zero => cases h
  | succ m =>
    obtain ⟨first, mid, hfirst, -⟩ := bind_done_iff.1 h
    rw [primaryType, current_bind, hk] at hfirst
    cases hfirst

/-- The empty tuple is made of two parentheses and stands at the token behind them. Every other node is
made of tokens of which one has its position. -/
theorem Makes.unit_or_passes (hts : Ended ts) (h : Makes ts node rest) :
    (ts.current.kind = .leftParen ∧ ts.behind.current.kind = .rightParen ∧ rest = ts.behind.behind ∧
        node = .tuple rest.current.pos []) ∨
      node.isUnit = false ∧ ts.Passes rest node.pos := by
  have hbehind : ts.behind.ComesTo ts.behind := hts.comesTo_behind.ended.comesTo
  -- Most nodes stand at their first token.
  have hcurrent : ts.current.kind ≠ .eof → ts.behind.ComesTo rest → node.pos = ts.current.pos →
      ts.Passes rest node.pos := by
    intro hne hrest hpos
    rw [hpos]
    exact passes_current hts hne hrest
  cases h with
  | word hk h =>
    obtain ⟨hne, hrest, hpos, -, hunit⟩ := primaryType_word hts hk h
    refine .inr ⟨hunit, hcurrent hne hrest ?_⟩
    rw [TypeExpr.pos, hpos]
    rfl
  | @list m _ _ _ h =>
    obtain ⟨hk, element, size, mid, helement, -, hsize, rfl⟩ := listType_done h
    have hmid := (reads_typeExpr m).comesTo hbehind helement
    exact .inr ⟨rfl, hcurrent (by rw [hk]; decide) (reads_range?.comesTo hmid.behind hsize) rfl⟩
  | unit hk h =>
    obtain ⟨hopen, ⟨-, hrest, hnode⟩ | ⟨hne, -⟩⟩ := parenthesizedType_done h
    · exact .inl ⟨hopen, hk, hrest, hnode⟩
    · exact absurd hk hne
  | @tuple n m _ mid _ first _ hfirst hk h =>
    have hne : ts.behind.current.kind ≠ .rightParen :=
      fun hclose => typeExpr_ne_done_of_rightParen hclose hfirst
    refine .inr ⟨?_, passes_of_parenthesizedType (reads_typeExpr m) (isTouching_typeExpr m) hts h hne⟩
    obtain ⟨-, ⟨hclose, -, -⟩ | ⟨-, first', mid', hfirst', hcase⟩⟩ := parenthesizedType_done h
    · exact absurd hclose hne
    · rw [hfirst] at hfirst'
      cases hfirst'
      rcases hcase with ⟨-, others, last, -, -, -, rfl⟩ | ⟨hclose, -⟩
      · rfl
      · rw [hk] at hclose
        cases hclose
  | @reference n m _ mid _ name arguments hname harguments =>
    obtain ⟨hk, hmid, hrest⟩ := comesTo_reference hts (reads_typeExpr m) hname harguments
    exact .inr ⟨rfl, hcurrent (by rw [hk]; decide) (hmid.trans hrest) rfl⟩
  | @indexed n m _ mid next _ name arguments _ hname harguments hk h =>
    obtain ⟨hident, hmid, hnext⟩ := comesTo_reference hts (reads_typeExpr m) hname harguments
    obtain ⟨_, _, _, _, hname', harguments', hcase⟩ := referenceType_done h
    rw [hname] at hname'
    cases hname'
    rw [harguments] at harguments'
    cases harguments'
    rcases hcase with ⟨-, indices, hchain, rfl⟩ | ⟨hne, -, -⟩
    · have hindices := (reads_repeatWhile reads_index).comesTo hnext.ended.comesTo
        (hchain.repeatWhile le_rfl)
      exact .inr ⟨rfl, hcurrent (by rw [hident]; decide) ((hmid.trans hnext).trans hindices) rfl⟩
    · exact absurd hk hne
  | @union n m _ mid _ first _ hfirst hk h =>
    obtain ⟨hpasses, others, rfl⟩ :=
      passes_of_unionType (reads_typeExpr m) (isTouching_typeExpr m) hts hfirst hk h
    exact .inr ⟨rfl, hpasses⟩
  | @struct n _ _ _ h =>
    obtain ⟨hk, members, hmembers, rfl⟩ := structType_done h
    have hrest := (reads_body (reads_structItem (reads_typeExpr n)) inhabited_structItem).comesTo hbehind hmembers
    exact .inr ⟨rfl, hcurrent (by rw [hk]; decide) hrest rfl⟩
  | @enum n _ _ _ h =>
    obtain ⟨hk, variants, hvariants, rfl⟩ := enumType_done h
    have hrest := (reads_body reads_variant inhabited_variant).comesTo hbehind hvariants
    exact .inr ⟨rfl, hcurrent (by rw [hk]; decide) hrest rfl⟩

end Parse

end McdocSchema
