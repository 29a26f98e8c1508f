import Mathlib.Data.List.ReduceOption
import McdocSchema.Proofs.Edits

/-!
# Every parser carries an edit

The trees that are read before and after an edit are the same but for positions and for the place of the
edit. The relations follow the trees and add up the grades of their parts. After the edit the tokens make a
document in which the edit is found, or a parser is stuck at the token that the edit brings in
(`Streams.ofTokens`).
-/

namespace McdocSchema.Edit

open Parse TokenStream

/-! ## Trees before and after an edit -/

/-- The text is the path that is read at the start of the stream. -/
def Reads (ts : TokenStream) (text : String) : Prop :=
  ∃ rounds rest, path rounds ts = .done text rest

/-- Paths are read at tokens that belong together and have these positions. -/
def Refers (e : Edit) (p : Position) (s : String) (p' : Position) (s' : String) : Prop :=
  ∃ ts ts', e.Along ts ts' ∧ ts.current.pos = p ∧ ts'.current.pos = p' ∧ Reads ts s ∧ Reads ts' s'

/-- Paths before and after an edit, name by name. -/
def Paths (e : Edit) (n : Nat) (s s' : String) : Prop :=
  ∃ names names', s = "::".intercalate names ∧ s' = "::".intercalate names' ∧
    Lists e.Names n names names'

/-- Keys of indices before and after an edit. -/
inductive Keys (e : Edit) : Nat → Index → Index → Prop
  | key {n : Nat} {s s' : String} (h : e.Names n s s') : Keys e n (.key s) (.key s')

/-- Types before and after an edit. -/
inductive Types (e : Edit) : Nat → TypeExpr → TypeExpr → Prop
  | any {p p' : Position} (hp : e.Moves p p') : Types e 0 (.any p) (.any p')
  | boolean {p p' : Position} (hp : e.Moves p p') : Types e 0 (.boolean p) (.boolean p')
  | string {p p' : Position} (hp : e.Moves p p') (r : Option NumberRange) :
      Types e 0 (.string p r) (.string p' r)
  | numeric {p p' : Position} (hp : e.Moves p p') (name : String) (r : Option NumberRange) :
      Types e 0 (.numeric p name r) (.numeric p' name r)
  | literal {p p' : Position} (hp : e.Moves p p') (value : Literal) :
      Types e 0 (.literal p value none) (.literal p' value none)
  | list {n : Nat} {p p' : Position} {t t' : TypeExpr} (hp : e.Moves p p') (h : Types e n t t')
      (r : Option NumberRange) : Types e n (.list p t r) (.list p' t' r)
  | tuple {n : Nat} {p p' : Position} {ts ts' : List TypeExpr} (hp : e.Moves p p')
      (h : Lists (Types e) n ts ts') : Types e n (.tuple p ts) (.tuple p' ts')
  | union {n : Nat} {p p' : Position} {ts ts' : List TypeExpr} (hp : e.Moves p p')
      (h : Lists (Types e) n ts ts') : Types e n (.union p ts) (.union p' ts')
  | reference {n m k : Nat} {p p' : Position} {s s' : String} {ts ts' : List TypeExpr} (hn : n = m + k)
      (hr : e.Refers p s p' s') (hs : e.Paths m s s') (h : Lists (Types e) k ts ts') :
      Types e n (.reference p s ts) (.reference p' s' ts')
  | indexed {n m k : Nat} {p p' : Position} {t t' : TypeExpr} {keys keys' : List Index}
      (hn : n = m + k) (hp : e.Moves p p') (h : Types e m t t') (hk : Lists e.Keys k keys keys') :
      Types e n (.indexed p t keys) (.indexed p' t' keys')

/-- Fields before and after an edit. -/
inductive Fields (e : Edit) : Nat → Field TypeExpr → Field TypeExpr → Prop
  | field {n m k j : Nat} {name name' : String} {t t' : TypeExpr} {doc doc' : Option String}
      (hn : n = m + k + j) (hname : e.Names m name name') (ht : e.Types k t t')
      (hdoc : e.Docs j doc doc') (optional : Bool) :
      Fields e n ⟨name, t, optional, doc⟩ ⟨name', t', optional, doc'⟩

/-- Variants before and after an edit. -/
inductive Variants (e : Edit) : Nat → Variant → Variant → Prop
  | variant {n m k : Nat} {name name' : String} {doc doc' : Option String} (hn : n = m + k)
      (hname : e.Names m name name') (hdoc : e.Docs k doc doc') (value : Option Int) :
      Variants e n ⟨name, value, doc⟩ ⟨name', value, doc'⟩

/-- Declarations before and after an edit. -/
inductive Declarations (e : Edit) : Nat → Declaration → Declaration → Prop
  | alias {n m k j i : Nat} {p p' : Position} {name name' : String} {ps ps' : List String}
      {t t' : TypeExpr} {doc doc' : Option String} (hn : n = m + k + j + i) (hp : e.Moves p p')
      (hname : e.Names m name name') (hps : Lists e.Names k ps ps') (ht : e.Types j t t')
      (hdoc : e.Docs i doc doc') :
      Declarations e n (.alias ⟨p, name, ps, t, doc⟩) (.alias ⟨p', name', ps', t', doc'⟩)
  | struct {n m k : Nat} {p p' : Position} {fields fields' : List (Field TypeExpr)}
      {spreads spreads' : List TypeExpr} (hn : n = m + k) (hp : e.Moves p p')
      (hf : Lists e.Fields m fields fields') (hs : Lists e.Types k spreads spreads') :
      Declarations e n (.anonymous (.struct p fields spreads))
        (.anonymous (.struct p' fields' spreads'))
  | enum {n : Nat} {p p' : Position} {variants variants' : List Variant} (hp : e.Moves p p')
      (hv : Lists e.Variants n variants variants') :
      Declarations e n (.anonymous (.enum p variants)) (.anonymous (.enum p' variants'))
  | dispatch {n m k j : Nat} {p p' : Position} {name name' : String} {keys keys' : List String}
      {t t' : TypeExpr} (hn : n = m + k + j) (hp : e.Moves p p') (hname : e.Names m name name')
      (hk : Lists e.Names k keys keys') (ht : e.Types j t t') :
      Declarations e n (.dispatch p name keys t) (.dispatch p' name' keys' t')

/-- Documents before and after an edit. -/
structure Documents (e : Edit) (n : Nat) (doc doc' : Document) : Prop where
  pos : doc'.pos = doc.pos
  docs : doc'.docs = doc.docs
  declarations : Lists e.Declarations n doc.declarations doc'.declarations

variable {e : Edit} {P : Token.Kind → Prop} {n m k : Nat} {rounds rounds' : Nat}
  {inner inner' : Parse TypeExpr}

theorem Types.moves {t t' : TypeExpr} (h : e.Types n t t') : e.Moves t.pos t'.pos := by
  cases h with
  | reference _ hr =>
    obtain ⟨ts, ts', ha, rfl, rfl, -, -⟩ := hr
    exact ⟨ts, ts', ha, rfl, rfl⟩
  | indexed _ hp | any hp | boolean hp | string hp | numeric hp | literal hp | list hp | tuple hp
  | union hp => exact hp

/-! ## Ranges -/

theorem carries_bound : e.Carries (fun k => k.isNumber = true) (Still Eq) bound bound := by
  apply carries_current
  · rintro k hk
    constructor <;> rintro rfl <;> cases hk
  · rintro t t' - hvalue -
    rw [hvalue]
    cases Number.readReal t.value with
    | error fault => exact carries_throw
    | ok x =>
      apply (carries_advance ?_).bindStill
      · rintro _ _ -
        exact carries_pure ⟨rfl, rfl⟩
      · rintro k ⟨-, hk⟩
        refine ⟨?_, ?_, ?_⟩ <;> rintro rfl <;> cases hk

/-- A choice by a test of the current token that the edit does not concern. -/
theorem carries_current_if {α β : Type} {T : Nat → α → β → Prop} {p : Parse α} {q : Parse β}
    {f : Token → Parse α} {g : Token → Parse β} (test : Token.Kind → Bool) (hb : Blind test)
    (hname : test .identifier = false)
    (hyes : ∀ t t' : Token, t'.value = t.value → e.Carries (fun k => test k = true) T (f t) (g t'))
    (hno : e.Carries Anywhere T p q) :
    e.Carries P T (current >>= fun t => if test t.kind then f t else p)
      (current >>= fun t => if test t.kind then g t else q) := by
  intro n ts ts' hs _ a rest hrun
  rw [current_bind] at hrun ⊢
  rw [hs.test hb]
  by_cases htest : test ts.current.kind = true
  · rw [if_pos htest] at hrun ⊢
    have hne : ¬ (ts.current.kind = .identifier ∨ ts.current.kind = .type) := by
      intro hk
      rw [hb.type hk, hname] at htest
      cases htest
    obtain ⟨ht, -⟩ := hs.even (fun hk => hne (.inl hk)) fun hk => hne (.inr hk)
    exact hyes _ _ ht.value.eq n ts ts' hs htest a rest hrun
  · rw [if_neg htest] at hrun ⊢
    exact hno n ts ts' hs trivial a rest hrun

theorem carries_bound? : e.Carries P (Still Eq) bound? bound? := by
  apply carries_current_if Token.Kind.isNumber (by decide) rfl
  · rintro t t' -
    exact carries_bound.map fun _ _ _ h => ⟨h.1, congrArg some h.2⟩
  · exact carries_pure ⟨rfl, rfl⟩

theorem carries_delimiter {f : Option Number.Binary64 → NumberRange} :
    e.Carries P (Still Eq) (bound? >>= fun max => pure (f max)) (bound? >>= fun max => pure (f max)) := by
  apply carries_bound?.bindStill
  rintro max _ rfl
  exact carries_pure ⟨rfl, rfl⟩

theorem carries_numberRange : e.Carries P (Still Eq) numberRange numberRange := by
  apply carries_current_if Token.Kind.isNumber (by decide) rfl
  · rintro t t' -
    apply carries_bound.bindStill
    rintro min _ rfl
    apply carries_eat (by decide) (by decide) (fun _ => carries_delimiter)
    apply carries_eat (by decide) (by decide) (fun _ => carries_delimiter)
    exact carries_pure ⟨rfl, rfl⟩
  · apply carries_eat (by decide) (by decide) (fun _ => carries_delimiter)
    apply carries_eat (by decide) (by decide) (fun _ => carries_delimiter)
    exact carries_pure ⟨rfl, rfl⟩

theorem carries_range? : e.Carries P (Still Eq) range? range? := by
  apply carries_eat (by decide) (by decide)
  · intro _
    exact carries_numberRange.map fun _ _ _ h => ⟨h.1, congrArg some h.2⟩
  · exact carries_pure ⟨rfl, rfl⟩

/-! ## Paths and indices -/

theorem carries_pathStep : e.Carries (fun k => (k == .doubleColon) = true) e.Names pathStep pathStep := by
  apply carries_passed rfl rfl rfl
  exact carries_identifier.bind fun m t t' ht => carries_pure ht

theorem carries_path (hr : rounds ≤ rounds') : e.Carries P e.Paths (path rounds) (path rounds') := by
  apply carries_identifier.bind
  intro m first first' hfirst
  apply (carries_repeatWhile (by decide) hr carries_pathStep).bind
  intro k others others' hothers
  exact carries_pure ⟨_, _, rfl, rfl, .cons rfl hfirst hothers⟩

theorem carries_index : e.Carries (fun k => (k == .leftBracket) = true) e.Keys index index := by
  apply carries_passed rfl rfl rfl
  apply carries_take (fun k => k == .identifier || k.isSpecialKey) rfl (by decide)
  intro m t t' ht
  apply (carries_keyword (by decide) (by decide)).next
  exact carries_pure (.key ht)

theorem carries_indexedType {p p' : Position} {s s' : String} {arguments arguments' : List TypeExpr}
    (hr : rounds ≤ rounds')
    (h : e.Types m (.reference p s arguments) (.reference p' s' arguments')) :
    e.Carries P (fun k => e.Types (m + k)) (indexedType rounds (.reference p s arguments))
      (indexedType rounds' (.reference p' s' arguments')) := by
  apply (carries_repeatWhile (by decide) hr carries_index).bind
  intro k keys keys' hkeys
  exact carries_pure (.indexed rfl h.moves h hkeys)

/-! ## Forms with types inside -/

theorem carries_listType (hi : e.Carries Anywhere e.Types inner inner') :
    e.Carries P e.Types (listType inner) (listType inner') := by
  apply carries_pos
  intro t t' hp
  apply (carries_keyword (by decide) (by decide)).next
  apply hi.bind
  intro m element element' helement
  apply (carries_keyword (by decide) (by decide)).next
  apply carries_range?.bindStill
  rintro size _ rfl
  exact carries_pure (.list hp helement size)

/-- Values that may be missing. -/
inductive Options {α β : Type} (T : Nat → α → β → Prop) : Nat → Option α → Option β → Prop
  | none : Options T 0 none none
  | some {n : Nat} {a : α} {b : β} (h : T n a b) : Options T n (some a) (some b)

theorem Lists.reduceOption {α β : Type} {T : Nat → α → β → Prop} {as : List (Option α)}
    {bs : List (Option β)} (h : Lists (Options T) n as bs) :
    Lists T n as.reduceOption bs.reduceOption := by
  induction h with
  | nil => exact .nil
  | cons hn hab _ ih =>
    cases hab with
    | none => rwa [hn, Nat.zero_add]
    | some hab => exact .cons hn hab ih

theorem carries_tupleMember (hi : e.Carries Anywhere e.Types inner inner') :
    e.Carries (fun k => (k == .comma) = true) (Options e.Types) (tupleMember inner)
      (tupleMember inner') := by
  apply carries_passed rfl rfl rfl
  apply carries_sees (by decide)
  · exact carries_pure .none
  · exact hi.at.map fun _ _ _ h => .some h

theorem carries_parenthesizedType (hr : rounds ≤ rounds')
    (hi : e.Carries Anywhere e.Types inner inner') :
    e.Carries P e.Types (parenthesizedType rounds inner) (parenthesizedType rounds' inner') := by
  apply (carries_keyword (by decide) (by decide)).next
  apply carries_eat (by decide) (by decide)
  · intro _
    apply carries_pos
    intro t t' hp
    exact carries_pure (.tuple hp .nil)
  · apply hi.at.bind
    intro m first first' hfirst
    apply carries_sees (by decide)
    · apply (carries_repeatWhile (by decide) hr (carries_tupleMember hi)).bind
      intro k others others' hothers
      apply (carries_keyword (by decide) (by decide)).next
      exact carries_pure (.tuple hfirst.moves (.cons rfl hfirst hothers.reduceOption))
    · apply (carries_keyword (by decide) (by decide)).next
      exact carries_pure hfirst

theorem carries_separator {close : Token.Kind} {cause : ParseCause} (hclose : Blind (· == close)) :
    e.Carries P (Still fun _ _ => True) (separator close cause) (separator close cause) := by
  apply carries_eat (by decide) (by decide)
  · intro _
    exact carries_pure ⟨rfl, trivial⟩
  · apply carries_sees hclose
    · exact carries_pure ⟨rfl, trivial⟩
    · exact carries_fail

theorem carries_bracketed {α α' β β' : Type} {opening close : Token.Kind} {cause : ParseCause}
    {T : Nat → α → α' → Prop} {U : Nat → β → β' → Prop} {item : Parse α} {item' : Parse α'}
    {f : α → β} {f' : α' → β'} (hopen : Blind (· == opening)) (hne : opening ≠ .eof)
    (hclose : Blind (· == close)) (hne' : close ≠ .eof) (hr : rounds ≤ rounds')
    (hitem : e.Carries Anywhere T item item') (hf : ∀ m a b, T m a b → U m (f a) (f' b)) :
    e.Carries P (Lists U) (bracketed rounds opening close cause item f)
      (bracketed rounds' opening close cause item' f') := by
  have hgoes : Blind (· != close) := fun k hk => congrArg (!·) (hclose k hk)
  apply carries_eat hopen hne
  · intro _
    apply (carries_repeatWhile (T := U) hgoes hr ?_).bind
    · intro m items items' hitems
      apply (carries_keyword hne' hclose.ne.1).next
      exact carries_pure hitems
    · apply hitem.at.bind
      intro m a b hab
      apply (carries_separator hclose).next
      exact carries_pure (hf m a b hab)
  · exact carries_pure .nil

theorem carries_placedPath {γ δ : Type} {U : Nat → γ → δ → Prop} {f : Token → String → Parse γ}
    {g : Token → String → Parse δ} (hr : rounds ≤ rounds')
    (h : ∀ m (t t' : Token) s s', e.Refers t.pos s t'.pos s' → e.Paths m s s' →
      e.Carries Anywhere (fun k => U (m + k)) (f t s) (g t' s')) :
    e.Carries P U (current >>= fun t => path rounds >>= f t)
      (current >>= fun t => path rounds' >>= g t) := by
  intro n ts ts' hs _ c rest hrun
  rw [current_bind] at hrun ⊢
  obtain ⟨s, mid, hpath, hf⟩ := bind_done_iff.1 hrun
  have hpath' := carries_path (P := Anywhere) hr n ts ts' hs trivial s mid hpath
  generalize ho : path rounds' ts' = outcome at hpath'
  cases hpath' with
  | @done m k s' mid' hn hpaths hmid =>
    rw [bind_of_done ho]
    have hrefers : e.Refers ts.current.pos s ts'.current.pos s' :=
      ⟨ts, ts', hs.along, rfl, rfl, ⟨rounds, mid, hpath⟩, ⟨rounds', mid', ho⟩⟩
    exact (h m _ _ s s' hrefers hpaths k mid mid' hmid trivial c rest hf).behind hn fun _ _ hU => hU
  | stuck cause hn hstray =>
    rw [bind_apply, ho]
    exact .stuck cause hn hstray

theorem carries_referenceType (hr : rounds ≤ rounds') (hi : e.Carries Anywhere e.Types inner inner') :
    e.Carries P e.Types (referenceType rounds inner) (referenceType rounds' inner') := by
  apply carries_placedPath hr
  intro m t t' s s' hrefers hpaths
  have harguments : e.Carries Anywhere (Lists e.Types) (typeArguments rounds inner)
      (typeArguments rounds' inner') :=
    carries_bracketed (by decide) (by decide) (by decide) (by decide) hr hi fun _ _ _ h => h
  apply harguments.bind
  intro k arguments arguments' harguments
  have hreference : e.Types (m + k) (.reference t.pos s arguments) (.reference t'.pos s' arguments') :=
    .reference rfl hrefers hpaths harguments
  apply carries_sees (by decide)
  · exact (carries_indexedType hr hreference).mono fun j _ _ h => by rwa [← Nat.add_assoc]
  · exact carries_pure (by rwa [Nat.add_zero])

theorem carries_literal {value : Literal} {p p' : Position} (hp : e.Moves p p')
    (hP : ∀ k, P k → k ≠ .identifier ∧ k ≠ .type ∧ k ≠ .eof) :
    e.Carries P e.Types (literal value p) (literal value p') := by
  apply (carries_advance hP).next
  exact carries_pure (.literal hp value)

theorem carries_ranged {f f' : Option NumberRange → TypeExpr} (hf : ∀ r, e.Types 0 (f r) (f' r))
    (hP : ∀ k, P k → k ≠ .identifier ∧ k ≠ .type ∧ k ≠ .eof) :
    e.Carries P e.Types (advance >>= fun _ => range? >>= fun r => pure (f r))
      (advance >>= fun _ => range? >>= fun r => pure (f' r)) := by
  apply (carries_advance hP).next
  apply carries_range?.bindStill
  rintro r _ rfl
  exact carries_pure (hf r)

/-- No type starts with a token that an edit brings in. -/
theorem primaryType_of_stray {ts : TokenStream} (h : ts.current.kind ∈ strayKinds) :
    primaryType rounds inner ts =
      .failed (.misplaced (.unexpectedInType ts.current.kind) ts.current) ts := by
  rw [primaryType, current_bind]
  simp only [strayKinds, wordKinds, List.mem_cons, List.not_mem_nil, or_false] at h
  rcases h with h | h | h | h | h <;> simp only [h] <;> rfl

theorem primaryType_of_type {ts : TokenStream} (h : ts.current.kind = .type) {a : TypeExpr}
    {rest : TokenStream} : primaryType rounds inner ts ≠ .done a rest := by
  rw [primaryType_of_stray (by rw [h]; decide)]
  intro hrun
  cases hrun

theorem carries_primaryType_of_ne (hr : rounds ≤ rounds')
    (hi : e.Carries Anywhere e.Types inner inner') :
    e.Carries (fun k => k ≠ .identifier ∧ k ≠ .type) e.Types (primaryType rounds inner)
      (primaryType rounds' inner') := by
  apply carries_current fun _ hk => hk
  intro t t' hkind hvalue hp
  have hne : t.kind ≠ .eof → ∀ k, k = t.kind ∧ k ≠ .identifier ∧ k ≠ .type →
      k ≠ .identifier ∧ k ≠ .type ∧ k ≠ .eof := by
    rintro hne k ⟨rfl, hi, ht⟩
    exact ⟨hi, ht, hne⟩
  rw [hkind, hvalue]
  cases hk : t.kind <;> rw [hk] at hne
  case any =>
    apply (carries_advance (hne (by decide))).next
    exact carries_pure (.any hp)
  case booleanType =>
    apply (carries_advance (hne (by decide))).next
    exact carries_pure (.boolean hp)
  case stringType => exact carries_ranged (fun r => .string hp r) (hne (by decide))
  case byte | short | int | long | floatType | double =>
    exact carries_ranged (fun r => .numeric hp t.value r) (hne (by decide))
  case integer | float | string | boolean => exact carries_literal hp (hne (by decide))
  case leftBracket => exact carries_listType hi
  case leftParen => exact carries_parenthesizedType hr hi
  case identifier => exact carries_referenceType hr hi
  all_goals exact carries_fail

theorem carries_primaryType (hr : rounds ≤ rounds') (hi : e.Carries Anywhere e.Types inner inner') :
    e.Carries P e.Types (primaryType rounds inner) (primaryType rounds' inner') := by
  intro n ts ts' hs _ a rest hrun
  by_cases htype : ts.current.kind = .type
  · exact absurd hrun (primaryType_of_type htype)
  by_cases hname : ts.current.kind = .identifier
  · cases hs.heads with
    | even htokens =>
      rw [primaryType_identifier hname] at hrun
      rw [primaryType_identifier (htokens.kind.trans hname)]
      exact carries_referenceType (P := Anywhere) hr hi n ts ts' hs trivial a rest hrun
    | odd hstray hcurrent hn _ hkind =>
      rw [primaryType_of_stray (by rwa [hcurrent]), hcurrent]
      exact .stuck _ hn hstray
  · exact carries_primaryType_of_ne hr hi n ts ts' hs ⟨hname, htype⟩ a rest hrun

theorem carries_unionType (hr : rounds ≤ rounds') (hi : e.Carries Anywhere e.Types inner inner') :
    e.Carries P e.Types (unionType rounds inner) (unionType rounds' inner') := by
  apply (carries_primaryType hr hi).bind
  intro m first first' hfirst
  apply carries_sees (by decide)
  · apply (carries_repeatWhile (T := e.Types) (by decide) hr ?_).bind
    · intro k others others' hothers
      exact carries_pure (.union hfirst.moves (.cons rfl hfirst hothers))
    · apply carries_passed rfl rfl rfl
      exact carries_primaryType hr hi
  · exact carries_pure hfirst

theorem carries_typeExpr (hr : rounds ≤ rounds') :
    e.Carries P e.Types (typeExpr rounds) (typeExpr rounds') := by
  induction rounds generalizing rounds' P with
  | zero => exact carries_throw
  | succ rounds ih =>
    obtain ⟨rounds', rfl⟩ : ∃ r, rounds' = r + 1 := ⟨rounds' - 1, by omega⟩
    exact carries_unionType hr (ih (Nat.le_of_succ_le_succ hr))

/-! ## Documentation -/

/-- A parser of the documentation in front of an item: nothing without a comment, and for one comment
what `f` makes of its text, with the line breaks behind it. -/
structure IsDocReader (p : Parse (Option String)) (f : String → Option String) : Prop where
  none_of_ne : ∀ {ts : TokenStream}, ts.current.kind ≠ .docComment → p ts = .done none ts
  of_comment : ∀ {t : Token} {ts : TokenStream}, t.kind = .docComment → ts ≠ [] →
    ts.current.kind ≠ .docComment → p (t :: ts) = (skipNewlines >>= fun _ => pure (f t.value)) ts
  some_of_ne : ∀ {s : String}, s ≠ "" → f s = some s

theorem isDocReader_memberDoc : IsDocReader memberDoc some where
  none_of_ne := memberDoc_of_ne
  of_comment := by
    intro t ts ht hne _
    rw [memberDoc, current_bind, current_cons, eat_bind_of_eq (by rw [current_cons, ht]), if_pos rfl,
      behind_cons hne]
  some_of_ne _ := rfl

theorem isDocReader_declarationDoc :
    IsDocReader declarationDoc fun s => joinedDoc [s] where
  none_of_ne := declarationDoc_of_ne
  of_comment := by
    intro t ts ht hne hnext
    have hlines : docLines ([t] ++ ts) = .done [t.value] ts :=
      docLines_append (by simpa using ht) hne hnext
    rw [List.singleton_append] at hlines
    rw [declarationDoc, sees_bind, current_cons, ht, if_pos (by decide), bind_of_done hlines]
    rfl
  some_of_ne := by
    intro s hs
    rw [joinedDoc, String.intercalate_singleton, if_neg (by simpa using hs)]

/-- An item with its documentation. The comment that an edit puts in front of an item becomes its
documentation, unless it has one. -/
theorem carries_documented {α β : Type} {T : Nat → α → β → Prop} {p : Parse (Option String)}
    {make : String → Option String} {f : Option String → Parse α} {g : Option String → Parse β}
    (hp : IsDocReader p make)
    (hf : ∀ m doc doc', e.Docs m doc doc' →
      e.Carries (fun k => m ≠ 0 → k = .identifier ∨ k = .type) (fun k => T (m + k)) (f doc) (g doc')) :
    e.Carries P T (p >>= f) (p >>= g) := by
  have hsame : ∀ doc, e.Carries Anywhere T (f doc) (g doc) := by
    intro doc
    have := (hf 0 doc doc (.same doc)).restrict (Q := Anywhere) fun _ _ h => absurd rfl h
    exact this.mono fun m _ _ h => by rwa [Nat.zero_add] at h
  intro n ts ts' hs _ a rest hrun
  -- Without documentation in both streams there is nothing to pass.
  have hnone : ts.current.kind ≠ .docComment → ts'.current.kind ≠ .docComment →
      e.Outcomes n T a rest ((p >>= g) ts') := by
    intro hts hts'
    rw [bind_of_done (hp.none_of_ne hts)] at hrun
    rw [bind_of_done (hp.none_of_ne hts')]
    exact hsame none n ts ts' hs trivial a rest hrun
  cases hs with
  | last ht hk _ => exact hnone (by simp [hk]) (by simp [ht.kind, hk])
  | @cons _ m k t t' ts ts' hn ht hk _ hdoc h =>
    by_cases hcomment : t.kind = .docComment
    · have hnext := hdoc hcomment
      obtain ⟨hcurrent, -⟩ := h.even (by rcases hnext with h | h <;> simp [h])
        (by rcases hnext with h | h <;> simp [h])
      have hne : ts.current.kind ≠ .docComment := by rcases hnext with h | h <;> simp [h]
      have hne' : ts'.current.kind ≠ .docComment := by rwa [hcurrent.kind]
      obtain rfl := ht.still (by simp [hcomment])
      rw [bind_apply, hp.of_comment hcomment h.ne_nil.1 hne, ← bind_apply] at hrun
      rw [bind_apply, hp.of_comment (ht.kind.trans hcomment) h.ne_nil.2 hne', ← bind_apply,
        ht.value.eq]
      have hbind : e.Carries Anywhere T
          ((skipNewlines >>= fun _ => pure (make t.value)) >>= f)
          ((skipNewlines >>= fun _ => pure (make t.value)) >>= g) := by
        apply (Carries.bindStill (R := Eq) ?_ ?_)
        · apply carries_skipNewlines.next
          exact carries_pure ⟨rfl, rfl⟩
        · rintro doc _ rfl
          exact hsame doc
      rw [hn, Nat.zero_add]
      exact hbind k ts ts' h trivial a rest hrun
    · exact hnone hcomment (by rwa [current_cons, ht.kind])
  | @forbidden stray t ts ts' he hk hstray h =>
    have hne : stray.kind ≠ .docComment := by
      intro heq
      rw [heq] at hstray
      revert hstray
      decide
    exact hnone (by simp [hk]) hne
  | @annotated stray line t t' ts ts' he hk hstray hv hl h =>
    have hne : t.kind ≠ .docComment := by rcases hk with hk | hk <;> simp [hk]
    have hnone : p (t :: ts) = .done none (t :: ts) := hp.none_of_ne hne
    obtain ⟨hkind, -⟩ : t'.kind = t.kind ∧ True := by
      cases h.heads with
      | even htokens => exact ⟨htokens.kind, trivial⟩
      | odd _ _ hn => cases hn
    have hline : t'.kind ≠ .newline := by
      rw [hkind]
      rcases hk with hk | hk <;> simp [hk]
    have hskip : skipNewlines (line :: t' :: ts') = .done () (t' :: ts') := by
      rw [skipNewlines_cons hl (by simp)]
      exact skipNewlines_of_ne hline
    have hsome : p (stray :: line :: t' :: ts') = .done (some stray.value) (t' :: ts') := by
      rw [hp.of_comment hstray (by simp) (by simp [hl]), bind_of_done hskip, hp.some_of_ne hv,
        pure_apply]
    rw [bind_of_done hnone] at hrun
    rw [bind_of_done hsome]
    exact (hf 1 none _ (.annotated he) 0 _ _ h (fun _ => hk) a rest hrun).behind rfl fun _ _ hT => hT

/-! ## Bodies -/

variable {doc doc' : Option String}

theorem carries_betweenBreaks {α β : Type} {T : Nat → α → β → Prop} {close : Token.Kind}
    {p : Parse (Option α)} {q : Parse (Option β)} (hb : Blind (· == close))
    (h : e.Carries Anywhere (Options T) p q) :
    e.Carries P (Options T)
      (skipNewlines >>= fun _ => sees close >>= fun closed => if closed then pure none else p)
      (skipNewlines >>= fun _ => sees close >>= fun closed => if closed then pure none else q) := by
  apply carries_skipNewlines.next
  apply carries_sees hb
  · exact carries_pure .none
  · exact h.at

theorem carries_member {α β : Type} {T : Nat → α → β → Prop} {item : Option String → Parse α}
    {item' : Option String → Parse β}
    (hitem : ∀ m doc doc', e.Docs m doc doc' →
      e.Carries (fun k => m ≠ 0 → k = .identifier ∨ k = .type) (fun k => T (m + k)) (item doc)
        (item' doc')) :
    e.Carries P (Options T) (member item) (member item') := by
  apply carries_betweenBreaks (by decide)
  apply carries_documented isDocReader_memberDoc
  intro m doc doc' hdoc
  apply (hitem m doc doc' hdoc).bind
  intro k a b hab
  apply ((carries_eaten (by decide) (by decide)).discard fun _ _ _ h => h.1).next
  apply carries_skipNewlines.next
  exact carries_pure (.some hab)

theorem carries_body {α β : Type} {T : Nat → α → β → Prop} {item : Option String → Parse α}
    {item' : Option String → Parse β} (hr : rounds ≤ rounds')
    (hitem : ∀ m doc doc', e.Docs m doc doc' →
      e.Carries (fun k => m ≠ 0 → k = .identifier ∨ k = .type) (fun k => T (m + k)) (item doc)
        (item' doc')) :
    e.Carries P (Lists T) (body rounds item) (body rounds' item') := by
  apply (carries_keyword (by decide) (by decide)).next
  apply (carries_repeatWhile (by decide) hr (carries_member hitem)).bind
  intro m members members' hmembers
  apply (carries_keyword (by decide) (by decide)).next
  exact carries_pure hmembers.reduceOption

/-- Members of a struct: fields and spreads. -/
inductive Items (e : Edit) :
    Nat → Field TypeExpr ⊕ TypeExpr → Field TypeExpr ⊕ TypeExpr → Prop
  | field {n : Nat} {f f' : Field TypeExpr} (h : e.Fields n f f') : Items e n (.inl f) (.inl f')
  | spread {n : Nat} {t t' : TypeExpr} (h : e.Types n t t') : Items e n (.inr t) (.inr t')

theorem Lists.partition {items items' : List (Field TypeExpr ⊕ TypeExpr)}
    (h : Lists e.Items n items items') :
    ∃ m k, n = m + k ∧
      Lists e.Fields m (items.filterMap Sum.getLeft?) (items'.filterMap Sum.getLeft?) ∧
      Lists e.Types k (items.filterMap Sum.getRight?) (items'.filterMap Sum.getRight?) := by
  induction h with
  | nil => exact ⟨0, 0, rfl, .nil, .nil⟩
  | cons hn hitem _ ih =>
    obtain ⟨m, k, hmk, hfields, hspreads⟩ := ih
    cases hitem with
    | field h => exact ⟨_, k, by omega, .cons rfl h hfields, hspreads⟩
    | spread h => exact ⟨m, _, by omega, hfields, .cons rfl h hspreads⟩

theorem carries_structItem (hdoc : e.Docs m doc doc')
    (hi : e.Carries Anywhere e.Types inner inner') :
    e.Carries (fun k => m ≠ 0 → k = .identifier ∨ k = .type) (fun k => e.Items (m + k))
      (structItem inner doc) (structItem inner' doc') := by
  apply carries_eat (by decide) (by decide)
  · intro hm
    -- Only an item that starts with a name has documentation from an edit.
    obtain rfl : m = 0 := by
      by_contra hne
      rcases hm hne with h | h <;> cases h
    exact hi.map fun k _ _ h => .spread (by rwa [Nat.zero_add])
  · apply carries_identifier.bind
    intro i name name' hname
    apply (carries_eaten (by decide) (by decide)).bindStill
    rintro optional _ rfl
    apply (carries_keyword (by decide) (by decide)).next
    apply hi.bind
    intro j type type' htype
    exact carries_pure (.field (.field (by omega) hname htype hdoc optional))

theorem carries_structType (hr : rounds ≤ rounds') :
    e.Carries P (fun n t t' => e.Declarations n (.anonymous t) (.anonymous t')) (structType rounds)
      (structType rounds') := by
  apply carries_pos
  intro t t' hp
  apply (carries_keyword (by decide) (by decide)).next
  apply (carries_body hr fun m doc doc' hdoc => carries_structItem hdoc (carries_typeExpr hr)).bind
  intro m members members' hmembers
  obtain ⟨i, j, hm, hfields, hspreads⟩ := hmembers.partition
  exact carries_pure (.struct hm hp hfields hspreads)

theorem carries_variantValue : e.Carries P (Still Eq) variantValue variantValue := by
  apply carries_eat (by decide) (by decide)
  · intro _
    apply carries_current_if (· == .integer) (by decide) rfl
    · intro t t' hvalue
      rw [hvalue]
      cases Number.readInteger t.value with
      | error fault => exact carries_throw
      | ok x =>
        apply carries_passed rfl rfl rfl
        exact carries_pure ⟨rfl, rfl⟩
    · exact carries_fail
  · exact carries_pure ⟨rfl, rfl⟩

theorem carries_variant (hdoc : e.Docs m doc doc') :
    e.Carries P (fun k => e.Variants (m + k)) (variant doc) (variant doc') := by
  apply carries_identifier.bind
  intro i name name' hname
  apply carries_variantValue.bindStill
  rintro value _ rfl
  exact carries_pure (.variant (by omega) hname hdoc value)

theorem carries_enumType (hr : rounds ≤ rounds') :
    e.Carries P (fun n t t' => e.Declarations n (.anonymous t) (.anonymous t')) (enumType rounds)
      (enumType rounds') := by
  apply carries_pos
  intro t t' hp
  apply (carries_keyword (by decide) (by decide)).next
  apply (carries_body hr fun m doc doc' hdoc => carries_variant hdoc).bind
  intro m variants variants' hvariants
  exact carries_pure (.enum hp hvariants)

/-! ## Declarations -/

theorem carries_named {α β : Type} {T : Nat → α → β → Prop} {word sign : Token.Kind}
    {names names' : Parse (List String)} {f : Position → String → List String → TypeExpr → α}
    {f' : Position → String → List String → TypeExpr → β} (hr : rounds ≤ rounds')
    (hword : word ≠ .eof ∧ word ≠ .identifier) (hsign : sign ≠ .eof ∧ sign ≠ .identifier)
    (hnames : e.Carries Anywhere (Lists e.Names) names names')
    (hf : ∀ i j k p p' name name' found found' target target', e.Moves p p' → e.Names i name name' →
      Lists e.Names j found found' → e.Types k target target' →
      T (i + (j + k)) (f p name found target) (f' p' name' found' target')) :
    e.Carries P T (named rounds word sign names f) (named rounds' word sign names' f') := by
  apply carries_pos
  intro t t' hp
  apply (carries_keyword hword.1 hword.2).next
  apply carries_identifier.bind
  intro i name name' hname
  apply hnames.bind
  intro j found found' hfound
  apply (carries_keyword hsign.1 hsign.2).next
  apply (carries_typeExpr hr).bind
  intro k target target' htarget
  exact carries_pure (hf i j k _ _ _ _ _ _ _ _ hp hname hfound htarget)

theorem carries_typeAlias (hdoc : e.Docs m doc doc')
    (hr : rounds ≤ rounds') :
    e.Carries P
      (fun k a a' => e.Declarations (m + k) (.alias { a with doc := doc })
        (.alias { a' with doc := doc' }))
      (typeAlias rounds) (typeAlias rounds') := by
  rw [typeAlias_eq_named, typeAlias_eq_named, typeParameters_eq_bracketed, typeParameters_eq_bracketed]
  apply carries_named hr (by decide) (by decide)
  · exact carries_bracketed (by decide) (by decide) (by decide) (by decide) hr carries_identifier
      fun _ _ _ h => h
  · intro i j k p p' name name' found found' target target' hp hname hfound htarget
    exact .alias (by omega) hp hname hfound htarget hdoc

theorem carries_dispatchStatement (hr : rounds ≤ rounds') :
    e.Carries P e.Declarations (dispatchStatement rounds) (dispatchStatement rounds') := by
  rw [dispatchStatement_eq_named, dispatchStatement_eq_named, dispatchIndices_eq_bracketed,
    dispatchIndices_eq_bracketed]
  apply carries_named hr (by decide) (by decide)
  · exact carries_bracketed (by decide) (by decide) (by decide) (by decide) hr carries_identifier
      fun _ _ _ h => h
  · intro i j k p p' name name' found found' target target' hp hname hfound htarget
    exact .dispatch (by omega) hp hname hfound htarget

theorem declaration_ne_done_of_identifier {doc : Option String} {ts : TokenStream}
    (h : ts.current.kind = .identifier) {a : Declaration} {rest : TokenStream} :
    declaration rounds doc ts ≠ .done a rest := by
  rw [declaration, current_bind, h]
  intro hrun
  cases hrun

theorem carries_declaration_of_ne (hr : rounds ≤ rounds') :
    e.Carries (fun k => k ≠ .identifier ∧ k ≠ .type) e.Declarations (declaration rounds doc)
      (declaration rounds' doc') := by
  apply carries_current fun _ hk => hk
  intro t t' hkind _ _
  rw [hkind]
  cases hk : t.kind
  case struct => exact (carries_structType hr).map fun _ _ _ h => h
  case enum => exact (carries_enumType hr).map fun _ _ _ h => h
  case type =>
    apply carries_of_failed
    rintro ts ⟨htype, -, hne⟩
    exact absurd htype hne
  case use => exact carries_of_failed fun _ _ _ _ => useStatement_ne_done
  case dispatch => exact carries_dispatchStatement hr
  all_goals exact carries_fail

theorem carries_declaration (hdoc : e.Docs m doc doc')
    (hr : rounds ≤ rounds') :
    e.Carries (fun k => m ≠ 0 → k = .identifier ∨ k = .type) (fun k => e.Declarations (m + k))
      (declaration rounds doc) (declaration rounds' doc') := by
  intro n ts ts' hs hP a rest hrun
  by_cases hname : ts.current.kind = .identifier
  · exact absurd hrun (declaration_ne_done_of_identifier hname)
  by_cases htype : ts.current.kind = .type
  · rw [declaration, current_bind, htype] at hrun
    cases hs.heads with
    | even htokens =>
      rw [declaration, current_bind, htokens.kind, htype]
      have halias : e.Carries Anywhere (fun k => e.Declarations (m + k))
          (typeAlias rounds >>= fun decl => pure (.alias { decl with doc := doc }))
          (typeAlias rounds' >>= fun decl => pure (.alias { decl with doc := doc' })) :=
        (carries_typeAlias hdoc hr).bind fun _ _ _ h => carries_pure h
      exact halias n ts ts' hs trivial a rest hrun
    | odd hstray hcurrent hn _ _ _ hcomment =>
      rw [declaration, current_bind, hcurrent, hcomment htype]
      show e.Outcomes n _ a rest (.failed (.misplaced (.unexpected .docComment) ts'.current) ts')
      rw [hcurrent]
      exact .stuck _ hn hstray
  · obtain rfl : m = 0 := by
      by_contra hne
      exact (hP hne).elim hname htype
    exact (carries_declaration_of_ne hr n ts ts' hs ⟨hname, htype⟩ a rest hrun).behind
      (Nat.zero_add n).symm fun i _ h => by rwa [Nat.zero_add, Nat.zero_add]

theorem carries_declaration? (hr : rounds ≤ rounds') :
    e.Carries P (Options e.Declarations) (declaration? rounds) (declaration? rounds') := by
  apply carries_betweenBreaks (by decide)
  apply carries_documented isDocReader_declarationDoc
  intro m doc doc' hdoc
  apply (carries_declaration hdoc hr).bind
  intro k decl decl' hdecl
  apply carries_skipNewlines.next
  exact carries_pure (.some hdecl)

theorem carries_document (hr : rounds ≤ rounds') :
    e.Carries P e.Documents (document rounds) (document rounds') := by
  apply (carries_repeatWhile (by decide) hr (carries_declaration? hr)).bind
  intro m declarations declarations' h
  exact carries_pure ⟨rfl, rfl, h.reduceOption⟩

/-! ## Whole documents -/

theorem Streams.length_le {ts ts' : TokenStream} (h : e.Streams n ts ts') : ts.length ≤ ts'.length := by
  induction h <;> grind

/-- Nothing is ahead at the end of the text. -/
theorem Streams.grade_of_eof {ts ts' : TokenStream} (h : e.Streams n ts ts')
    (hk : ts.current.kind = .eof) : n = 0 := by
  cases h with
  | last => rfl
  | cons _ _ hne => exact absurd hk hne
  | forbidden _ hname => cases hname.symm.trans hk
  | annotated _ hname =>
    rcases hname with hname | hname <;> cases hname.symm.trans hk

/-- **A document and an edit of its tokens.** The tokens after the edit make a document in which all of
the edit is found, or a parser is stuck at the token that the edit brings in. -/
theorem Streams.ofTokens {ts ts' : TokenStream} {doc : Document} (hs : e.Streams n ts ts')
    (h : Document.ofTokens ts = .ok doc) :
    (∃ doc', Document.ofTokens ts' = .ok doc' ∧ e.Documents n doc doc') ∨
      ∃ stray cause, e.stray? = some stray ∧
        Document.ofTokens ts' = .error (.misplaced cause stray) := by
  obtain ⟨rest, hrun⟩ := ofTokens_ok_iff.1 h
  have hrest : rest.current.kind = .eof := by
    obtain ⟨declarations, mid, hd, hpure⟩ := bind_done_iff.1 hrun
    obtain ⟨-, rfl⟩ := pure_done_iff.1 hpure
    simpa using (chain_of_repeatWhile hd).stops
  have hrounds : roundsFor ts ≤ roundsFor ts' := Nat.succ_le_succ hs.length_le
  have hout := carries_document (P := Anywhere) hrounds n ts ts' hs trivial doc rest hrun
  generalize ho : document (roundsFor ts') ts' = outcome at hout
  cases hout with
  | @done m k doc' rest' hn hdoc hrest' =>
    obtain rfl := hrest'.grade_of_eof hrest
    obtain rfl : n = m := hn
    exact .inl ⟨doc', ofTokens_ok_iff.2 ⟨rest', ho⟩, hdoc⟩
  | @stuck stray rest' cause hn hstray =>
    exact .inr ⟨stray, cause, hstray, ofTokens_error_iff.2 ⟨rest', ho⟩⟩

end McdocSchema.Edit
