import Mathlib.Data.List.ReduceOption
import McdocSchema.Proofs.DeclarationRuns
import McdocSchema.Proofs.Legible
import McdocSchema.Proofs.Seam

/-!
# What texts are compiled to

Whatever a text is compiled to can be printed. `Parse.Gives tokens p P` says that the values of a parser have
a property, provided that its tokens are legible. Types are followed through their nesting by induction on
its bound, and documents are assembled from their declarations (`Document.isPrintable_of_ofString`).
-/

namespace McdocSchema

open TokenStream

/-- The outermost types of a declaration. -/
def Declaration.nodes : Declaration → List TypeExpr
  | .alias decl => [decl.target]
  | .anonymous type => [type]
  | .dispatch _ _ _ target => [target]
  | .use .. => []
  | .injection _ _ fields => fields.map Field.type

/-- The stream is left of the tokens, and it is legible. -/
structure TokenStream.Reaches (tokens ts : TokenStream) : Prop where
  leaves : Parse.Leaves tokens ts
  legible : Legible ts

section

variable {tokens ts rest : TokenStream}

theorem TokenStream.Legible.reaches (h : Legible ts) : ts.Reaches ts := ⟨Parse.leaves_refl ts, h⟩

theorem TokenStream.Reaches.of_leaves (h : tokens.Reaches ts) (hrest : Parse.Leaves ts rest) :
    tokens.Reaches rest := by
  obtain ⟨front, rfl⟩ := hrest.1
  exact ⟨h.leaves.trans hrest, h.legible.of_append⟩

theorem TokenStream.Reaches.behind (h : tokens.Reaches ts) : tokens.Reaches ts.behind :=
  h.of_leaves (Parse.leaves_behind ts)

end

namespace Parse

variable {α β : Type} {p q : Parse α} {P : α → Prop} {Q : β → Prop} {k : Token.Kind} {rounds : Nat}
  {tokens ts rest : TokenStream}

/-- The values that the parser gives for legible tokens that are left have the property, and those behind
them are left as well. -/
def Gives (tokens : TokenStream) (p : Parse α) (P : α → Prop) : Prop :=
  ∀ (ts : TokenStream) (a : α) (rest : TokenStream), tokens.Reaches ts → p ts = .done a rest →
    P a ∧ tokens.Reaches rest

/-! ## Putting parsers together -/

theorem Gives.and {Q : α → Prop} (h : Gives tokens p P) (h' : Gives tokens p Q) :
    Gives tokens p fun a => P a ∧ Q a :=
  fun ts a rest hts hrun => ⟨⟨(h ts a rest hts hrun).1, (h' ts a rest hts hrun).1⟩, (h ts a rest hts hrun).2⟩

theorem Gives.mono {Q : α → Prop} (h : Gives tokens p P) (hPQ : ∀ a, P a → Q a) : Gives tokens p Q :=
  fun ts a rest hts hrun => (h ts a rest hts hrun).imp (hPQ a) id

theorem gives_pure {a : α} (h : P a) : Gives tokens (pure a) P := by
  intro ts b rest hts hb
  obtain ⟨rfl, rfl⟩ := pure_done_iff.1 hb
  exact ⟨h, hts⟩

theorem Gives.bind {f : α → Parse β} (hp : Gives tokens p P) (hf : ∀ a, P a → Gives tokens (f a) Q) :
    Gives tokens (p >>= f) Q := by
  intro ts b rest hts hb
  obtain ⟨a, mid, ha, hb⟩ := bind_done_iff.1 hb
  obtain ⟨hP, hmid⟩ := hp ts a mid hts ha
  exact hf a hP mid b rest hmid hb

theorem Gives.map {f : α → β} (hp : Gives tokens p P) (hf : ∀ a, P a → Q (f a)) : Gives tokens (f <$> p) Q :=
  hp.bind fun a ha => gives_pure (hf a ha)

theorem Gives.discard (hp : Gives tokens p P) : Gives tokens (discard p) fun _ => True :=
  hp.map fun _ _ => trivial

theorem Gives.ite {c : Prop} [Decidable c] (hp : Gives tokens p P) (hq : Gives tokens q P) :
    Gives tokens (if c then p else q) P := by
  split
  · exact hp
  · exact hq

theorem gives_throw {fault : ParseFault} : Gives tokens (throw fault) P := by
  intro ts a rest _ h
  cases h

theorem gives_fail {cause : ParseCause} : Gives tokens (fail cause) P := by
  intro ts a rest _ h
  cases h

/-! ## Tokens and repetitions -/

theorem gives_current : Gives tokens current fun t => t.kind.Allows t.value := by
  intro ts t rest hts h
  cases h
  exact ⟨hts.legible.current, hts⟩

theorem gives_advance : Gives tokens advance fun _ => True := by
  intro ts _ rest hts h
  cases h
  exact ⟨trivial, hts.behind⟩

theorem gives_sees : Gives tokens (sees k) fun _ => True := by
  intro ts b rest hts h
  cases h
  exact ⟨trivial, hts⟩

theorem gives_eat : Gives tokens (eat k) fun _ => True := by
  intro ts b rest hts h
  rw [eat] at h
  split at h
  · cases h
    exact ⟨trivial, hts.behind⟩
  · cases h
    exact ⟨trivial, hts⟩

theorem gives_consumeOr {cause : Token.Kind → ParseCause} :
    Gives tokens (consumeOr k cause) fun t => k.Allows t.value := by
  intro ts t rest hts h
  obtain ⟨rfl, rfl, rfl⟩ := consumeOr_done_iff.1 h
  exact ⟨hts.legible.current, hts.behind⟩

theorem gives_consume : Gives tokens (consume k) fun t => k.Allows t.value :=
  gives_consumeOr

theorem gives_skipNewlines : Gives tokens skipNewlines fun _ => True := by
  intro ts _ rest hts h
  have hleaves := leaves_skipNewlines ts
  rw [h] at hleaves
  exact ⟨trivial, hts.of_leaves hleaves⟩

theorem gives_separator {close : Token.Kind} {cause : ParseCause} :
    Gives tokens (separator close cause) fun _ => True := by
  rw [separator]
  exact gives_eat.bind fun _ _ => .ite (gives_pure trivial)
    (gives_sees.bind fun _ _ => .ite (gives_pure trivial) gives_fail)

/-- What the rounds of a repetition give is given by their step. -/
theorem gives_repeatWhile {goesOn : Token.Kind → Bool} (hp : Gives tokens p P) :
    Gives tokens (repeatWhile rounds goesOn p) fun as => ∀ a ∈ as, P a := by
  intro ts as rest hts h
  have hc := chain_of_repeatWhile h
  clear h
  induction hc with
  | nil _ => exact ⟨by simp, hts⟩
  | cons _ hs _ ih =>
    obtain ⟨ha, hmid⟩ := hp _ _ _ hts hs
    obtain ⟨has, hrest⟩ := ih hmid
    exact ⟨List.forall_mem_cons.2 ⟨ha, has⟩, hrest⟩

theorem forall_reduceOption {found : List (Option α)} (h : ∀ a ∈ found, ∀ b ∈ a, P b) :
    ∀ b ∈ found.reduceOption, P b :=
  fun b hb => h _ (List.reduceOption_mem_iff.1 hb) b rfl

theorem ne_nil_of_repeatWhile {goesOn : Token.Kind → Bool} {as : List α}
    (h : repeatWhile rounds goesOn p ts = .done as rest) (hk : goesOn ts.current.kind = true) :
    as ≠ [] := by
  rintro rfl
  cases chain_of_repeatWhile h with
  | nil hstop =>
    rw [hk] at hstop
    cases hstop

/-- A choice by the current token: the first parser starts at a token of the kind. -/
theorem gives_ite_sees
    (hp : ∀ (ts : TokenStream) (a : α) (rest : TokenStream), tokens.Reaches ts → ts.current.kind = k →
      p ts = .done a rest → P a ∧ tokens.Reaches rest)
    (hq : Gives tokens q P) : Gives tokens (sees k >>= fun seen => if seen = true then p else q) P := by
  intro ts a rest hts h
  rw [sees_bind] at h
  by_cases hk : ts.current.kind = k
  · rw [if_pos (by simpa using hk)] at h
    exact hp ts a rest hts hk h
  · rw [if_neg (by simpa using hk)] at h
    exact hq ts a rest hts h

theorem gives_bracketed {item : Parse α} {f : α → β} {opening close : Token.Kind}
    {cause : ParseCause} (hitem : Gives tokens item fun a => Q (f a)) :
    Gives tokens (bracketed rounds opening close cause item f) fun bs => ∀ b ∈ bs, Q b := by
  rw [bracketed]
  refine gives_eat.bind fun _ _ => .ite ?_ (gives_pure (by simp))
  refine (gives_repeatWhile (P := Q) ?_).bind fun bs hbs => ?_
  · exact hitem.bind fun a ha => gives_separator.bind fun _ _ => gives_pure ha
  · exact gives_consume.discard.bind fun _ _ => gives_pure hbs

/-! ## Ranges -/

theorem isBound_of_bound {x : Number.Binary64} (hts : tokens.Reaches ts)
    (hk : ts.current.kind.isNumber = true) (h : bound ts = .done x rest) :
    Number.IsBound x ∧ tokens.Reaches rest := by
  have hallows := hts.legible.current
  have hdigit : ∃ d ∈ ts.current.value.toList, Text.isDigit d = true := by
    cases hc : ts.current.kind <;> rw [hc] at hallows hk
    case integer | float => exact hallows
    all_goals cases hk
  obtain ⟨d, hmem, hd⟩ := hdigit
  rw [bound, current_bind] at h
  cases hx : Number.readReal ts.current.value with
  | error fault =>
    rw [hx] at h
    cases h
  | ok y =>
    rw [hx] at h
    cases h
    exact ⟨Number.isBound_iff.2 (Number.isNumber_of_readReal hd hmem hx), hts.behind⟩

theorem gives_bound? : Gives tokens bound? fun x => ∀ y ∈ x, Number.IsBound y := by
  intro ts x rest hts h
  rw [bound?, current_bind] at h
  by_cases hk : ts.current.kind.isNumber = true
  · rw [if_pos hk] at h
    obtain ⟨y, hy, rfl⟩ := map_done_iff.1 h
    simpa using isBound_of_bound hts hk hy
  · rw [if_neg hk] at h
    cases h
    exact ⟨by simp, hts⟩

theorem gives_numberRange : Gives tokens numberRange NumberRange.IsPrintable := by
  intro ts r rest hts h
  rw [numberRange, current_bind] at h
  by_cases hk : ts.current.kind.isNumber = true
  · rw [if_pos hk] at h
    obtain ⟨min, mid, hmin, h⟩ := bind_done_iff.1 h
    obtain ⟨hbound, hmid⟩ := isBound_of_bound hts hk hmin
    have hrange : ∀ max exclusive, (∀ y ∈ max, Number.IsBound y) →
        NumberRange.IsPrintable ⟨some min, max, false, exclusive⟩ :=
      fun max exclusive hmax => ⟨by simpa using hbound, hmax, fun _ => rfl, by simp⟩
    refine (?_ : Gives tokens _ NumberRange.IsPrintable) _ _ _ hmid h
    refine gives_eat.bind fun _ _ => .ite ?_ (gives_eat.bind fun _ _ => .ite ?_ ?_)
    · exact gives_bound?.bind fun max hmax => gives_pure (hrange max false hmax)
    · exact gives_bound?.bind fun max hmax => gives_pure (hrange max true hmax)
    · exact gives_pure (hrange none false (by simp))
  · rw [if_neg hk] at h
    have hrange : ∀ max exclusive, (∀ y ∈ max, Number.IsBound y) →
        NumberRange.IsPrintable ⟨none, max, true, exclusive⟩ :=
      fun max exclusive hmax => ⟨by simp, hmax, by simp, by simp⟩
    refine (?_ : Gives tokens _ NumberRange.IsPrintable) _ _ _ hts h
    refine gives_eat.bind fun _ _ => .ite ?_ (gives_eat.bind fun _ _ => .ite ?_ ?_)
    · exact gives_bound?.bind fun max hmax => gives_pure (hrange max false hmax)
    · exact gives_bound?.bind fun max hmax => gives_pure (hrange max true hmax)
    · exact gives_pure ⟨by simp, by simp, by simp, fun _ _ => rfl⟩

theorem gives_range? : Gives tokens range? fun r => ∀ x ∈ r, NumberRange.IsPrintable x := by
  rw [range?]
  refine gives_eat.bind fun _ _ => .ite ?_ (gives_pure (by simp))
  exact gives_numberRange.map fun r hr => by simpa using hr

/-! ## Types -/

theorem gives_path : Gives tokens (path rounds) IsPath := by
  rw [path]
  refine gives_consume.bind fun first hfirst => ?_
  refine (gives_repeatWhile (P := fun s => Lexeme.isName s = true) ?_).bind fun others hothers => ?_
  · exact gives_advance.bind fun _ _ => gives_consume.bind fun t ht => gives_pure ht
  · exact gives_pure ⟨first.value :: others, by simp, List.forall_mem_cons.2 ⟨hfirst, hothers⟩, rfl⟩

theorem gives_index : Gives tokens index Index.IsPrintable := by
  rw [index]
  refine gives_advance.bind fun _ _ => gives_current.bind fun t ht => ?_
  split
  · next hk =>
    have hkey : Lexeme.isKey t.value = true := by
      cases hc : t.kind <;> rw [hc] at ht hk
      case identifier => simp [Lexeme.isKey, show Lexeme.isName t.value = true from ht]
      case fallbackKey | noneKey | unknownKey | keyKey | parentKey => exact ht
      all_goals cases hk
    exact gives_advance.bind fun _ _ => gives_consume.discard.bind fun _ _ => gives_pure hkey
  · exact gives_fail

variable {inner : Parse TypeExpr}

theorem gives_listType (hi : Gives tokens inner TypeExpr.IsPrintable) :
    Gives tokens (listType inner) TypeExpr.IsPrintable := by
  rw [listType]
  refine gives_current.bind fun t _ => gives_consume.discard.bind fun _ _ => ?_
  refine hi.bind fun element helement => gives_consume.discard.bind fun _ _ => ?_
  exact gives_range?.bind fun size hsize => gives_pure ⟨helement, hsize⟩

theorem gives_tupleMember (hi : Gives tokens inner TypeExpr.IsPrintable) :
    Gives tokens (tupleMember inner) fun t => ∀ u ∈ t, u.IsPrintable := by
  rw [tupleMember]
  refine gives_advance.bind fun _ _ => gives_sees.bind fun _ _ => .ite (gives_pure (by simp)) ?_
  exact hi.map fun t ht => by simpa using ht

theorem gives_parenthesizedType (hi : Gives tokens inner TypeExpr.IsPrintable) :
    Gives tokens (parenthesizedType rounds inner) TypeExpr.IsPrintable := by
  rw [parenthesizedType]
  refine gives_consume.discard.bind fun _ _ => gives_eat.bind fun _ _ => .ite ?_ ?_
  · exact gives_current.bind fun t _ => gives_pure trivial
  · refine hi.bind fun first hfirst => gives_sees.bind fun _ _ => .ite ?_ ?_
    · refine (gives_repeatWhile (gives_tupleMember hi)).bind fun others hothers => ?_
      refine gives_consume.discard.bind fun _ _ => gives_pure ⟨hfirst, ?_⟩
      exact TypeExpr.arePrintable_iff.2 (forall_reduceOption hothers)
    · exact gives_consume.discard.bind fun _ _ => gives_pure hfirst

theorem gives_referenceType (hi : Gives tokens inner TypeExpr.IsPrintable) :
    Gives tokens (referenceType rounds inner) TypeExpr.IsPrintable := by
  rw [referenceType]
  refine gives_current.bind fun t _ => gives_path.bind fun name hname => ?_
  rw [typeArguments_eq_bracketed]
  refine (gives_bracketed hi).bind fun arguments harguments => ?_
  have hreference : (TypeExpr.reference t.pos name arguments).IsPrintable :=
    ⟨hname, TypeExpr.arePrintable_iff.2 harguments⟩
  refine gives_ite_sees ?_ (gives_pure hreference)
  intro ts type rest hts hk h
  rw [indexedType] at h
  obtain ⟨indices, mid, hindices, h⟩ := bind_done_iff.1 h
  obtain ⟨hall, hmid⟩ := gives_repeatWhile gives_index _ _ _ hts hindices
  obtain ⟨rfl, rfl⟩ := pure_done_iff.1 h
  exact ⟨⟨rfl, hreference, ne_nil_of_repeatWhile hindices (by simp [hk]), hall⟩, hmid⟩

theorem gives_primaryType (hi : Gives tokens inner TypeExpr.IsPrintable) :
    Gives tokens (primaryType rounds inner) TypeExpr.IsPrintable := by
  rw [primaryType]
  refine gives_current.bind fun t ht => ?_
  cases hk : t.kind <;> rw [hk] at ht
  case any => exact gives_advance.bind fun _ _ => gives_pure trivial
  case booleanType => exact gives_advance.bind fun _ _ => gives_pure trivial
  case stringType =>
    exact gives_advance.bind fun _ _ => gives_range?.bind fun length hlength => gives_pure hlength
  case byte | short | int | long | floatType | double =>
    exact gives_advance.bind fun _ _ => gives_range?.bind fun range hrange => gives_pure ⟨ht, hrange⟩
  case integer | float | string | boolean =>
    exact gives_advance.bind fun _ _ => gives_pure ⟨by simp, rfl⟩
  case leftBracket => exact gives_listType hi
  case leftParen => exact gives_parenthesizedType hi
  case identifier => exact gives_referenceType hi
  all_goals exact gives_fail

theorem gives_unionType (hi : Gives tokens inner TypeExpr.IsPrintable) :
    Gives tokens (unionType rounds inner) TypeExpr.IsPrintable := by
  rw [unionType]
  refine (gives_primaryType hi).bind fun first hfirst => gives_ite_sees ?_ (gives_pure hfirst)
  intro ts type rest hts hk h
  obtain ⟨others, mid, hothers, h⟩ := bind_done_iff.1 h
  have hstep : Gives tokens (unionStep rounds inner) TypeExpr.IsPrintable :=
    gives_advance.bind fun _ _ => gives_primaryType hi
  obtain ⟨hall, hmid⟩ := gives_repeatWhile hstep _ _ _ hts hothers
  obtain ⟨rfl, rfl⟩ := pure_done_iff.1 h
  have hpos := List.length_pos_iff.2 (ne_nil_of_repeatWhile hothers (by simp [hk]))
  refine ⟨⟨?_, hfirst, TypeExpr.arePrintable_iff.2 hall⟩, hmid⟩
  rw [List.length_cons]
  omega

theorem gives_typeExpr (n : Nat) : Gives tokens (typeExpr n) TypeExpr.IsPrintable := by
  induction n with
  | zero => exact gives_throw
  | succ n ih => exact gives_unionType ih

/-! ## Bodies -/

theorem gives_memberDoc : Gives tokens memberDoc fun doc => ∀ s ∈ doc, Form.IsLine s := by
  intro ts doc rest hts h
  rw [memberDoc, current_bind] at h
  by_cases hk : ts.current.kind = .docComment
  · rw [eat_bind_of_eq hk, if_pos rfl] at h
    have hline : Form.IsLine ts.current.value := by
      have hallows := hts.legible.current
      rwa [hk] at hallows
    obtain ⟨_, mid, hskip, h⟩ := bind_done_iff.1 h
    obtain ⟨-, hmid⟩ := gives_skipNewlines _ _ _ hts.behind hskip
    obtain ⟨rfl, rfl⟩ := pure_done_iff.1 h
    exact ⟨by simpa using hline, hmid⟩
  · rw [eat_bind_of_ne hk, if_neg (by simp)] at h
    cases h
    exact ⟨by simp, hts⟩

theorem gives_body {item : Option String → Parse α}
    (hitem : ∀ doc, (∀ s ∈ doc, Form.IsLine s) → Gives tokens (item doc) P) :
    Gives tokens (body rounds item) fun as => ∀ a ∈ as, P a := by
  have hmember : Gives tokens (member item) fun a => ∀ b ∈ a, P b := by
    rw [member]
    refine gives_skipNewlines.bind fun _ _ => gives_sees.bind fun _ _ => ?_
    refine .ite (gives_pure (by simp)) (gives_memberDoc.bind fun doc hdoc => ?_)
    refine (hitem doc hdoc).bind fun a ha => gives_eat.discard.bind fun _ _ => ?_
    exact gives_skipNewlines.bind fun _ _ => gives_pure (by simpa using ha)
  rw [body]
  refine gives_consume.discard.bind fun _ _ => ?_
  refine (gives_repeatWhile hmember).bind fun members hmembers => ?_
  exact gives_consume.discard.bind fun _ _ => gives_pure (forall_reduceOption hmembers)

/-- What holds of the members of a struct holds of its fields and of its spreads. -/
theorem forall_members {members : List (α ⊕ β)} (h : ∀ m ∈ members, Sum.elim P Q m) :
    (∀ a ∈ members.filterMap Sum.getLeft?, P a) ∧ ∀ b ∈ members.filterMap Sum.getRight?, Q b := by
  constructor
  · intro a ha
    obtain ⟨m, hm, hleft⟩ := List.mem_filterMap.1 ha
    obtain rfl := Sum.getLeft?_eq_some_iff.1 hleft
    exact h _ hm
  · intro b hb
    obtain ⟨m, hm, hright⟩ := List.mem_filterMap.1 hb
    obtain rfl := Sum.getRight?_eq_some_iff.1 hright
    exact h _ hm

theorem gives_structType :
    Gives tokens (structType rounds) fun t => (Declaration.anonymous t).IsPrintable := by
  have hitem : ∀ doc, (∀ s ∈ doc, Form.IsLine s) → Gives tokens (structItem (typeExpr rounds) doc)
      (Sum.elim Field.IsPrintable TypeExpr.IsPrintable) := by
    intro doc hdoc
    rw [structItem]
    refine gives_eat.bind fun _ _ => .ite ((gives_typeExpr rounds).map fun t ht => ht) ?_
    refine gives_consume.bind fun name hname => gives_eat.bind fun optional _ => ?_
    refine gives_consume.discard.bind fun _ _ => (gives_typeExpr rounds).bind fun type htype => ?_
    exact gives_pure ⟨hname, htype, hdoc⟩
  rw [structType]
  refine gives_current.bind fun t _ => gives_consume.discard.bind fun _ _ => ?_
  refine (gives_body hitem).bind fun members hmembers => gives_pure ?_
  exact ⟨(forall_members hmembers).1, (forall_members hmembers).2⟩

theorem gives_variantValue : Gives tokens variantValue fun v => ∀ n ∈ v,
    (Number.natDigits n.natAbs).length ≤ Number.maxDigits := by
  rw [variantValue]
  refine gives_eat.bind fun _ _ => .ite (gives_current.bind fun t _ => .ite ?_ gives_fail)
    (gives_pure (by simp))
  split
  · next n hn =>
    refine gives_advance.bind fun _ _ => gives_pure ?_
    simpa using Number.length_natDigits_of_readInteger hn
  · exact gives_throw

theorem gives_enumType : Gives tokens (enumType rounds) fun t => (Declaration.anonymous t).IsPrintable := by
  have hitem : ∀ doc, (∀ s ∈ doc, Form.IsLine s) → Gives tokens (variant doc) Variant.IsPrintable := by
    intro doc hdoc
    rw [variant]
    refine gives_consume.bind fun name hname => gives_variantValue.bind fun value hvalue => ?_
    exact gives_pure ⟨hname, hvalue, hdoc⟩
  rw [enumType]
  refine gives_current.bind fun t _ => gives_consume.discard.bind fun _ _ => ?_
  exact (gives_body hitem).bind fun variants hvariants => gives_pure hvariants

/-! ## Declarations -/

theorem gives_named {word sign : Token.Kind} {names : Parse (List String)} {A : List String → Prop}
    {R : TypeExpr → Prop} {f : Position → String → List String → TypeExpr → α}
    (hnames : Gives tokens names A) (hR : Gives tokens (typeExpr rounds) R)
    (hf : ∀ pos name found target, Lexeme.isName name = true → A found → target.IsPrintable → R target →
      P (f pos name found target)) : Gives tokens (named rounds word sign names f) P := by
  rw [named]
  refine gives_current.bind fun t _ => gives_consume.discard.bind fun _ _ => ?_
  refine gives_consume.bind fun name hname => hnames.bind fun found hfound => ?_
  refine gives_consume.discard.bind fun _ _ => ((gives_typeExpr rounds).and hR).bind fun target h => ?_
  exact gives_pure (hf t.pos name.value found target hname hfound h.1 h.2)

theorem gives_declarationDoc :
    Gives tokens declarationDoc fun doc => ∀ s ∈ doc, Form.IsLine s ∧ s ≠ "" := by
  rw [declarationDoc]
  refine gives_ite_sees ?_ (gives_pure (by simp))
  intro ts doc rest hts hk h
  obtain ⟨lines, mid, hlines, h⟩ := bind_done_iff.1 h
  have hleaves := leaves_docLines ts
  rw [hlines] at hleaves
  obtain ⟨docs, rfl, hd, hn, rfl⟩ := docLines_done hlines
  -- There is one comment: the first token is one, and a second one would follow it directly.
  cases docs with
  | nil => exact absurd hk hn
  | cons t docs =>
    cases docs with
    | cons u docs =>
      have hapart := (List.isChain_cons_cons.1 hts.legible.docs_apart).1 (hd t (by simp))
      exact absurd (hd u (by simp)) hapart
    | nil =>
      have hline : Form.IsLine t.value := by
        have hallows := hts.legible.allows t List.mem_cons_self
        rwa [hd t List.mem_cons_self] at hallows
      obtain ⟨_, next, hskip, h⟩ := bind_done_iff.1 h
      obtain ⟨-, hnext⟩ := gives_skipNewlines _ _ _ (hts.of_leaves hleaves) hskip
      obtain ⟨rfl, rfl⟩ := pure_done_iff.1 h
      refine ⟨?_, hnext⟩
      intro s hs
      rw [List.map_singleton, String.intercalate_singleton] at hs
      split at hs
      · cases hs
      · next hne =>
        cases hs
        exact ⟨hline, by simpa using hne⟩

section

variable {R : TypeExpr → Prop} (hR : Gives tokens (typeExpr rounds) R)
  (hstruct : Gives tokens (structType rounds) R) (henum : Gives tokens (enumType rounds) R)

include hR hstruct henum

theorem gives_declaration {doc : Option String} (hdoc : ∀ s ∈ doc, Form.IsLine s ∧ s ≠ "") :
    Gives tokens (declaration rounds doc) fun decl => decl.IsPrintable ∧ ∀ t ∈ decl.nodes, R t := by
  rw [declaration]
  refine gives_current.bind fun t _ => ?_
  split
  · exact (gives_structType.and hstruct).map fun t ht => ⟨ht.1, List.forall_mem_singleton.2 ht.2⟩
  · exact (gives_enumType.and henum).map fun t ht => ⟨ht.1, List.forall_mem_singleton.2 ht.2⟩
  · have hnamed : Gives tokens (typeAlias rounds) fun decl =>
        Alias.IsPrintable { decl with doc := doc } ∧ R decl.target := by
      rw [typeAlias_eq_named, typeParameters_eq_bracketed]
      exact gives_named (gives_bracketed gives_consume) hR fun _ _ _ _ hname hfound htarget h =>
        ⟨⟨hname, hfound, htarget, hdoc⟩, h⟩
    exact hnamed.bind fun decl h => gives_pure ⟨h.1, List.forall_mem_singleton.2 h.2⟩
  · rw [useStatement]
    exact gives_consume.discard.bind fun _ _ => gives_path.discard.bind fun _ _ => gives_throw
  · rw [dispatchStatement_eq_named, dispatchIndices_eq_bracketed]
    exact gives_named (gives_bracketed gives_consumeOr) hR fun _ _ _ _ hname hfound htarget h =>
      ⟨⟨hname, hfound, htarget⟩, List.forall_mem_singleton.2 h⟩
  · exact gives_fail

theorem gives_document : Gives tokens (document rounds) fun doc =>
    doc.IsPrintable ∧ ∀ decl ∈ doc.declarations, ∀ t ∈ decl.nodes, R t := by
  have hdeclaration : Gives tokens (declaration? rounds) fun decl =>
      ∀ d ∈ decl, d.IsPrintable ∧ ∀ t ∈ d.nodes, R t := by
    rw [declaration?]
    refine gives_skipNewlines.bind fun _ _ => gives_sees.bind fun _ _ => ?_
    refine .ite (gives_pure (by simp)) (gives_declarationDoc.bind fun doc hdoc => ?_)
    refine (gives_declaration hR hstruct henum hdoc).bind fun decl hdecl => ?_
    exact gives_skipNewlines.bind fun _ _ => gives_pure (by simpa using hdecl)
  rw [document]
  refine (gives_repeatWhile hdeclaration).bind fun declarations hall => gives_pure ?_
  have hall' := forall_reduceOption hall
  exact ⟨⟨fun decl hd => (hall' decl hd).1, rfl⟩, fun decl hd => (hall' decl hd).2⟩

end

/-- A document of legible tokens can be printed, and its types have what the parsers of types give. -/
theorem isPrintable_of_ofTokens {doc : Document} {R : TypeExpr → Prop} (htokens : Legible tokens)
    (h : Document.ofTokens tokens = .ok doc) (hR : ∀ n, Gives tokens (typeExpr n) R)
    (hstruct : ∀ n, Gives tokens (structType n) R) (henum : ∀ n, Gives tokens (enumType n) R) :
    doc.IsPrintable ∧ ∀ decl ∈ doc.declarations, ∀ t ∈ decl.nodes, R t := by
  obtain ⟨rest, hrun⟩ := ofTokens_ok_iff.1 h
  exact (gives_document (hR _) (hstruct _) (henum _) tokens _ rest htokens.reaches hrun).1

end Parse

/-- Whatever a text is compiled to can be printed. -/
theorem Document.isPrintable_of_ofString {text : String} {doc : Document}
    (h : ofString text = .ok doc) : doc.IsPrintable := by
  obtain ⟨ts, hscan, hparse⟩ := exists_scan_of_ofString h
  exact (Parse.isPrintable_of_ofTokens (R := fun _ => True) (Token.scan_legible hscan) hparse
    (fun n => (Parse.gives_typeExpr n).mono fun _ _ => trivial)
    (fun _ => Parse.gives_structType.mono fun _ _ => trivial)
    (fun _ => Parse.gives_enumType.mono fun _ _ => trivial)).1

end McdocSchema
