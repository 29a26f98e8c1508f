import McdocSchema.Proofs.DeclarationRuns
import McdocSchema.Proofs.Seam

/-!
# Edits of a list of tokens

What becomes of a run of a parser if its tokens are changed at one place: an identifier gets another text,
or becomes a keyword, or a documentation comment is put in front of an item. `Edit.Streams n` relates the
streams before and after the change; the grade `n` counts the changes that are still ahead.

`Edit.Carries` compares two parsers. If the one succeeds on the stream before the change, then the other
one succeeds with a value that is related to the first, and the grades tell whether the change is in the
value or still ahead; or it is stuck at the token that the change brings in.
-/

namespace McdocSchema

/-- A change of a list of tokens at one place. -/
inductive Edit
  /-- An identifier gets another text; `before` and `after` are all tokens without and with it. -/
  | rename (old new : String) (before after : TokenStream)
  /-- An identifier becomes the keyword `stray`. -/
  | forbid (stray : Token)
  /-- The documentation comment `stray` is put on a line of its own in front of an item. -/
  | annotate (stray : Token)

namespace Edit

open Parse TokenStream

/-- The token that an edit brings in where a parser may not expect it. -/
def stray? : Edit → Option Token
  | .rename .. => none
  | .forbid stray => some stray
  | .annotate stray => some stray

/-- The streams are the ends of all tokens before and after a change of a text, at the same place. -/
def Along : Edit → TokenStream → TokenStream → Prop
  | .rename _ _ before after, ts, ts' => ts <:+ before ∧ ts' <:+ after ∧ ts.length = ts'.length
  | .forbid _, _, _ | .annotate _, _, _ => True

/-- Tokens of the two streams that belong together have these positions. -/
def Moves (e : Edit) (p p' : Position) : Prop :=
  ∃ ts ts', e.Along ts ts' ∧ ts.current.pos = p ∧ ts'.current.pos = p'

/-- Names before and after the edit. -/
inductive Names (e : Edit) : Nat → String → String → Prop
  | same (s : String) : Names e 0 s s
  | renamed {old new : String} {before after : TokenStream}
      (he : e = .rename old new before after) : Names e 1 old new

/-- Documentation before and after the edit. -/
inductive Docs (e : Edit) : Nat → Option String → Option String → Prop
  | same (doc : Option String) : Docs e 0 doc doc
  | annotated {stray : Token} (he : e = .annotate stray) : Docs e 1 none (some stray.value)

/-- Lists whose entries are related in pairs; the grades are added up. -/
inductive Lists {α β : Type} (T : Nat → α → β → Prop) : Nat → List α → List β → Prop
  | nil : Lists T 0 [] []
  | cons {n m k : Nat} {a : α} {b : β} {as : List α} {bs : List β} (hn : n = m + k) (h : T m a b)
      (hs : Lists T k as bs) : Lists T n (a :: as) (b :: bs)

/-! ## Streams -/

/-- Tokens that belong together: of the same kind, and with another text only if it is a name. -/
structure Tokens (e : Edit) (m : Nat) (t t' : Token) : Prop where
  kind : t'.kind = t.kind
  value : e.Names m t.value t'.value
  still : t.kind ≠ .identifier → m = 0

/-- The kinds of the keywords that the specification of the language does not reserve. -/
def wordKinds : List Token.Kind := [.type, .use, .dispatch, .to]

/-- The streams before and after an edit that is ahead `n` times. -/
inductive Streams (e : Edit) : Nat → TokenStream → TokenStream → Prop
  | last {t t' : Token} (ht : e.Tokens 0 t t') (hk : t.kind = .eof) (ha : e.Along [t] [t']) :
      Streams e 0 [t] [t']
  | cons {n m k : Nat} {t t' : Token} {ts ts' : TokenStream} (hn : n = m + k) (ht : e.Tokens m t t')
      (hk : t.kind ≠ .eof) (ha : e.Along (t :: ts) (t' :: ts'))
      (hdoc : t.kind = .docComment → ts.current.kind = .newline ∨ ts.current.kind = .eof)
      (h : Streams e k ts ts') : Streams e n (t :: ts) (t' :: ts')
  | forbidden {stray t : Token} {ts ts' : TokenStream} (he : e = .forbid stray)
      (hk : t.kind = .identifier) (hs : stray.kind ∈ wordKinds) (h : Streams e 0 ts ts') :
      Streams e 1 (t :: ts) (stray :: ts')
  | annotated {stray line t t' : Token} {ts ts' : TokenStream} (he : e = .annotate stray)
      (hk : t.kind = .identifier ∨ t.kind = .type) (hs : stray.kind = .docComment)
      (hv : stray.value ≠ "") (hl : line.kind = .newline) (h : Streams e 0 (t :: ts) (t' :: ts')) :
      Streams e 1 (t :: ts) (stray :: line :: t' :: ts')

/-- The kinds that a token may have where the streams differ. -/
def strayKinds : List Token.Kind := .docComment :: wordKinds

/-- A test that does not tell tokens apart where the streams differ. -/
def Blind (test : Token.Kind → Bool) : Prop :=
  ∀ k ∈ strayKinds, test k = test .identifier

instance (test : Token.Kind → Bool) : Decidable (Blind test) :=
  inferInstanceAs (Decidable (∀ k ∈ strayKinds, test k = test .identifier))

/-- The current tokens of two streams: they belong together, or the second one is brought in by the
edit. -/
inductive Heads (e : Edit) (n : Nat) (ts ts' : TokenStream) : Prop
  | even {m : Nat} (ht : e.Tokens m ts.current ts'.current)
      (hbehind : ts.current.kind ≠ .eof → ∃ k, n = m + k ∧ e.Streams k ts.behind ts'.behind)
  | odd {stray : Token} (hs : e.stray? = some stray) (hcurrent : ts'.current = stray) (hn : 0 < n)
      (hk : ts.current.kind = .identifier ∨ ts.current.kind = .type)
      (hkind : stray.kind ∈ strayKinds) (hne : stray.kind ≠ ts.current.kind)
      (htype : ts.current.kind = .type → stray.kind = .docComment)

variable {e : Edit} {n m : Nat} {ts ts' : TokenStream}

theorem Streams.ne_nil (h : e.Streams n ts ts') : ts ≠ [] ∧ ts' ≠ [] := by
  cases h <;> exact ⟨List.cons_ne_nil _ _, List.cons_ne_nil _ _⟩

theorem Streams.along (h : e.Streams n ts ts') : e.Along ts ts' := by
  cases h with
  | last _ _ ha => exact ha
  | cons _ _ _ ha => exact ha
  | forbidden he => rw [he]; trivial
  | annotated he => rw [he]; trivial

theorem Streams.moves (h : e.Streams n ts ts') : e.Moves ts.current.pos ts'.current.pos :=
  ⟨ts, ts', h.along, rfl, rfl⟩

theorem Streams.heads (h : e.Streams n ts ts') : e.Heads n ts ts' := by
  cases h with
  | last ht hk => exact .even ht fun hne => absurd hk hne
  | cons hn ht hk _ _ h =>
    refine .even ht fun _ => ⟨_, hn, ?_⟩
    rwa [behind_cons h.ne_nil.1, behind_cons h.ne_nil.2]
  | @forbidden stray t _ _ he hk hs =>
    have hkind : stray.kind ∈ strayKinds := List.mem_cons_of_mem Token.Kind.docComment hs
    have hne : stray.kind ≠ t.kind := by
      intro heq
      rw [heq, hk] at hs
      revert hs
      decide
    have htype : t.kind = .type → stray.kind = .docComment := by
      intro htype
      rw [htype] at hk
      cases hk
    exact .odd (by rw [he]; rfl) rfl (Nat.lt_succ_self 0) (.inl hk) hkind hne htype
  | @annotated stray _ t _ _ _ he hk hs =>
    have hkind : stray.kind ∈ strayKinds := by
      rw [hs]
      exact List.mem_cons_self
    have hne : stray.kind ≠ t.kind := by
      rw [hs]
      rcases hk with hk | hk <;> rw [hk] <;> decide
    exact .odd (by rw [he]; rfl) rfl (Nat.lt_succ_self 0) hk hkind hne fun _ => hs

theorem Blind.type {test : Token.Kind → Bool} (hb : Blind test) {k : Token.Kind}
    (hk : k = .identifier ∨ k = .type) : test k = test .identifier := by
  rcases hk with rfl | rfl
  · rfl
  · exact hb .type (by decide)

/-- A blind test has the same outcome on both streams. -/
theorem Streams.test {test : Token.Kind → Bool} (h : e.Streams n ts ts') (hb : Blind test) :
    test ts'.current.kind = test ts.current.kind := by
  cases h.heads with
  | even ht => rw [ht.kind]
  | odd _ hcurrent _ hk hkind => rw [hcurrent, hb _ hkind, hb.type hk]

/-- Where the current token is no name and starts no item, the streams do not differ. -/
theorem Streams.even (h : e.Streams n ts ts') (hi : ts.current.kind ≠ .identifier)
    (ht : ts.current.kind ≠ .type) :
    e.Tokens 0 ts.current ts'.current ∧
      (ts.current.kind ≠ .eof → e.Streams n ts.behind ts'.behind) := by
  cases h.heads with
  | even htokens hbehind =>
    obtain rfl := htokens.still hi
    refine ⟨htokens, fun hne => ?_⟩
    obtain ⟨k, hn, hstreams⟩ := hbehind hne
    rw [hn, Nat.zero_add]
    exact hstreams
  | odd _ _ _ hk => exact absurd hk (not_or.2 ⟨hi, ht⟩)

theorem Names.eq {s s' : String} (h : e.Names 0 s s') : s' = s := by
  cases h
  rfl

/-! ## Parsers -/

variable {α β γ δ : Type} {P Q : Token.Kind → Prop} {T : Nat → α → β → Prop}
  {U : Nat → γ → δ → Prop} {p : Parse α} {q : Parse β} {k : Token.Kind}

/-- What becomes of the value `a` and of the stream `rest` behind it: another value and a stream that
belong to them, or the token that the edit brings in is found misplaced. -/
inductive Outcomes (e : Edit) (n : Nat) (T : Nat → α → β → Prop) (a : α) (rest : TokenStream) :
    Outcome β → Prop
  | done {m k : Nat} {b : β} {rest' : TokenStream} (hn : n = m + k) (hab : T m a b)
      (hrest : e.Streams k rest rest') : Outcomes e n T a rest (.done b rest')
  | stuck {stray : Token} {rest' : TokenStream} (cause : ParseCause) (hn : 0 < n)
      (hs : e.stray? = some stray) : Outcomes e n T a rest (.failed (.misplaced cause stray) rest')

/-- Where the one parser succeeds before the edit, from a current token whose kind satisfies `P`, the
other one succeeds after it with a value that belongs to the first one, or it is stuck. -/
def Carries (e : Edit) (P : Token.Kind → Prop) (T : Nat → α → β → Prop) (p : Parse α) (q : Parse β) :
    Prop :=
  ∀ n ts ts', e.Streams n ts ts' → P ts.current.kind →
    ∀ a rest, p ts = .done a rest → e.Outcomes n T a rest (q ts')

/-- Values in which there is no change. -/
def Still (R : α → β → Prop) (m : Nat) (a : α) (b : β) : Prop := m = 0 ∧ R a b

/-- The outcome of what is read behind something that has the grade `m`. -/
theorem Outcomes.behind {V : Nat → α → β → Prop} {a : α} {rest : TokenStream} {o : Outcome β}
    {j : Nat} (h : e.Outcomes j T a rest o) (hn : n = m + j) (hV : ∀ i b, T i a b → V (m + i) a b) :
    e.Outcomes n V a rest o := by
  cases h with
  | done hj hab hrest => exact .done (by omega) (hV _ _ hab) hrest
  | stuck cause hj hs => exact .stuck cause (by omega) hs

theorem Carries.mono {V : Nat → α → β → Prop} (h : e.Carries P T p q)
    (hV : ∀ m a b, T m a b → V m a b) : e.Carries P V p q := by
  intro n ts ts' hs hP a rest hrun
  apply (h n ts ts' hs hP a rest hrun).behind (Nat.zero_add n).symm
  intro i b hab
  rw [Nat.zero_add]
  exact hV i a b hab

theorem Carries.restrict (h : e.Carries P T p q) (hQ : ∀ k, Q k → P k) : e.Carries Q T p q :=
  fun n ts ts' hs hk => h n ts ts' hs (hQ _ hk)

theorem Carries.at (h : e.Carries Anywhere T p q) : e.Carries P T p q :=
  h.restrict fun _ _ => trivial

/-! ### Putting parsers together -/

theorem carries_pure {a : α} {b : β} (h : T 0 a b) : e.Carries P T (pure a) (pure b) := by
  intro n ts ts' hs _ a' rest hrun
  obtain ⟨rfl, rfl⟩ := pure_done_iff.1 hrun
  exact .done (Nat.zero_add n).symm h hs

theorem carries_of_failed (h : ∀ ts, P ts.current.kind → ∀ a rest, p ts ≠ .done a rest) :
    e.Carries P T p q :=
  fun _ ts _ _ hP a rest hrun => absurd hrun (h ts hP a rest)

theorem carries_fail {cause : ParseCause} : e.Carries P T (fail cause) q :=
  carries_of_failed fun _ _ _ _ hrun => by cases hrun

theorem carries_throw {fault : ParseFault} : e.Carries P T (throw fault) q :=
  carries_of_failed fun _ _ _ _ hrun => by cases hrun

theorem Carries.bind {f : α → Parse γ} {g : β → Parse δ} (h : e.Carries P T p q)
    (hf : ∀ m a b, T m a b → e.Carries Anywhere (fun k => U (m + k)) (f a) (g b)) :
    e.Carries P U (p >>= f) (q >>= g) := by
  intro n ts ts' hs hP c rest hrun
  obtain ⟨a, mid, hp, hfa⟩ := bind_done_iff.1 hrun
  have hq := h n ts ts' hs hP a mid hp
  generalize ho : q ts' = outcome at hq
  cases hq with
  | @done m k b mid' hn hab hmid =>
    rw [bind_of_done ho]
    exact (hf m a b hab k mid mid' hmid trivial c rest hfa).behind hn fun _ _ hcd => hcd
  | stuck cause hn hstray =>
    rw [bind_apply, ho]
    exact .stuck cause hn hstray

/-- The law for a parser whose values do not change. -/
theorem Carries.bindStill {R : α → β → Prop} {f : α → Parse γ} {g : β → Parse δ}
    (h : e.Carries P (Still R) p q) (hf : ∀ a b, R a b → e.Carries Anywhere U (f a) (g b)) :
    e.Carries P U (p >>= f) (q >>= g) := by
  apply h.bind
  rintro m a b ⟨rfl, hab⟩
  exact (hf a b hab).mono fun m _ _ hU => (Nat.zero_add m).symm ▸ hU

/-- The law for a parser whose values are not used. -/
theorem Carries.next {f : Parse γ} {g : Parse δ} (h : e.Carries P (Still fun _ _ => True) p q)
    (hf : e.Carries Anywhere U f g) : e.Carries P U (p >>= fun _ => f) (q >>= fun _ => g) :=
  h.bindStill fun _ _ _ => hf

theorem Carries.map {f : α → γ} {g : β → δ} (h : e.Carries P T p q)
    (hf : ∀ m a b, T m a b → U m (f a) (g b)) : e.Carries P U (f <$> p) (g <$> q) :=
  h.bind fun m a b hab => carries_pure (hf m a b hab)

theorem Carries.discard (h : e.Carries P T p q) (hT : ∀ m a b, T m a b → m = 0) :
    e.Carries P (Still fun _ _ => True) (discard p) (discard q) :=
  h.map fun m a b hab => ⟨hT m a b hab, trivial⟩

/-! ### Single tokens -/

theorem carries_pos {f : Token → Parse γ} {g : Token → Parse δ}
    (h : ∀ t t' : Token, e.Moves t.pos t'.pos → e.Carries P U (f t) (g t')) :
    e.Carries P U (current >>= f) (current >>= g) :=
  fun n ts ts' hs hP => h ts.current ts'.current hs.moves n ts ts' hs hP

/-- A parser that looks at a current token which the edit does not concern. -/
theorem carries_current {f : Token → Parse γ} {g : Token → Parse δ}
    (hP : ∀ k, P k → k ≠ .identifier ∧ k ≠ .type)
    (h : ∀ t t' : Token, t'.kind = t.kind → t'.value = t.value → e.Moves t.pos t'.pos →
      e.Carries (fun k => k = t.kind ∧ P k) U (f t) (g t')) :
    e.Carries P U (current >>= f) (current >>= g) := by
  intro n ts ts' hs hPts
  obtain ⟨ht, -⟩ := hs.even (hP _ hPts).1 (hP _ hPts).2
  exact h ts.current ts'.current ht.kind ht.value.eq hs.moves n ts ts' hs ⟨rfl, hPts⟩

theorem carries_sees {p' : Parse α} {q' : Parse β} (hb : Blind (· == k))
    (hyes : e.Carries (fun j => (j == k) = true ∧ P j) T p q)
    (hno : e.Carries (fun j => (j == k) = false ∧ P j) T p' q') :
    e.Carries P T (sees k >>= fun b => if b then p else p')
      (sees k >>= fun b => if b then q else q') := by
  intro n ts ts' hs hP
  rw [sees_bind, sees_bind, hs.test hb]
  cases hk : (ts.current.kind == k) with
  | true => exact hyes n ts ts' hs ⟨hk, hP⟩
  | false => exact hno n ts ts' hs ⟨hk, hP⟩

theorem Blind.ne (hb : Blind (· == k)) : k ≠ .identifier ∧ k ≠ .type := by
  constructor
  · rintro rfl
    exact absurd (hb .type (by decide)) (by decide)
  · rintro rfl
    exact absurd (hb .type (by decide)) (by decide)

theorem carries_eat {p' : Parse α} {q' : Parse β} (hb : Blind (· == k)) (hk : k ≠ .eof)
    (hyes : P k → e.Carries Anywhere T p q) (hno : e.Carries (fun j => (j == k) = false ∧ P j) T p' q') :
    e.Carries P T (eat k >>= fun b => if b then p else p')
      (eat k >>= fun b => if b then q else q') := by
  intro n ts ts' hs hP a rest hrun
  have htest := hs.test hb
  by_cases hts : ts.current.kind = k
  · have hts' : ts'.current.kind = k := by simpa [hts] using htest
    rw [eat_bind_of_eq hts']
    rw [eat_bind_of_eq hts] at hrun
    obtain ⟨-, hbehind⟩ := hs.even (by rw [hts]; exact hb.ne.1) (by rw [hts]; exact hb.ne.2)
    exact hyes (hts ▸ hP) n _ _ (hbehind (by rwa [hts])) trivial a rest hrun
  · have hts' : ts'.current.kind ≠ k := by simpa [hts] using htest
    rw [eat_bind_of_ne hts']
    rw [eat_bind_of_ne hts] at hrun
    exact hno n ts ts' hs ⟨by simpa using hts, hP⟩ a rest hrun

theorem carries_eaten (hb : Blind (· == k)) (hk : k ≠ .eof) :
    e.Carries P (Still Eq) (eat k) (eat k) := by
  intro n ts ts' hs _ a rest hrun
  have htest := hs.test hb
  by_cases hts : ts.current.kind = k
  · have hts' : ts'.current.kind = k := by simpa [hts] using htest
    obtain ⟨-, hbehind⟩ := hs.even (by rw [hts]; exact hb.ne.1) (by rw [hts]; exact hb.ne.2)
    have hrest := hbehind (by rwa [hts])
    simp only [eat, hts, hts', beq_self_eq_true, if_true, Outcome.done.injEq] at hrun ⊢
    obtain ⟨rfl, rfl⟩ := hrun
    exact .done (Nat.zero_add n).symm ⟨rfl, rfl⟩ hrest
  · have hts' : ts'.current.kind ≠ k := by simpa [hts] using htest
    rw [eat_of_ne hts] at hrun
    obtain ⟨rfl, rfl⟩ := Outcome.done.inj hrun
    rw [eat_of_ne hts']
    exact .done (Nat.zero_add n).symm ⟨rfl, rfl⟩ hs

theorem carries_advance (hP : ∀ k, P k → k ≠ .identifier ∧ k ≠ .type ∧ k ≠ .eof) :
    e.Carries P (Still fun _ _ => True) advance advance := by
  intro n ts ts' hs hPts a rest hrun
  obtain ⟨hi, ht, he⟩ := hP _ hPts
  obtain ⟨-, hbehind⟩ := hs.even hi ht
  obtain ⟨-, rfl⟩ := Outcome.done.inj hrun
  exact .done (Nat.zero_add n).symm ⟨rfl, trivial⟩ (hbehind he)

/-- A token that is passed because its kind passes a test. -/
theorem carries_passed {test : Token.Kind → Bool} (hi : test .identifier = false)
    (ht : test .type = false) (he : test .eof = false) (h : e.Carries Anywhere T p q) :
    e.Carries (fun k => test k = true) T (advance >>= fun _ => p) (advance >>= fun _ => q) := by
  refine (carries_advance fun k hk => ⟨?_, ?_, ?_⟩).next h
  · exact fun heq => by simp [heq, hi] at hk
  · exact fun heq => by simp [heq, ht] at hk
  · exact fun heq => by simp [heq, he] at hk

/-- A token that a parser insists on. The parser is stuck at one that the edit brings in. -/
theorem carries_consumeOr {cause : Token.Kind → ParseCause} (hk : k ≠ .eof) :
    e.Carries P (fun m t t' => e.Names m t.value t'.value ∧ (k ≠ .identifier → m = 0))
      (consumeOr k cause) (consumeOr k cause) := by
  intro n ts ts' hs _ t rest hrun
  obtain ⟨hts, rfl, rfl⟩ := consumeOr_done_iff.1 hrun
  cases hs.heads with
  | even htokens hbehind =>
    obtain ⟨j, hn, hrest⟩ := hbehind (by rwa [hts])
    rw [consumeOr_done_iff.2 ⟨htokens.kind.trans hts, rfl, rfl⟩]
    exact .done hn ⟨htokens.value, fun hne => htokens.still (by rwa [hts])⟩ hrest
  | odd hstray hcurrent hn _ _ hne =>
    rw [hts] at hne
    rw [consumeOr, hcurrent, if_neg (by simpa using hne)]
    exact .stuck _ hn hstray

theorem carries_identifier {cause : Token.Kind → ParseCause} :
    e.Carries P (fun m t t' => e.Names m t.value t'.value) (consumeOr .identifier cause)
      (consumeOr .identifier cause) :=
  (carries_consumeOr (by decide)).mono fun _ _ _ h => h.1

theorem carries_keyword (hk : k ≠ .eof) (hne : k ≠ .identifier) :
    e.Carries P (Still fun _ _ => True) (discard (consume k)) (discard (consume k)) :=
  (carries_consumeOr hk).discard fun _ _ _ h => h.2 hne

/-- A token that a parser takes if its kind passes a test which no token brought in passes. -/
theorem carries_take (test : Token.Kind → Bool) {cause : ParseCause} {f : Token → Parse α}
    {g : Token → Parse β} (heof : test .eof = false) (hstray : ∀ k ∈ strayKinds, test k = false)
    (h : ∀ m t t', e.Names m t.value t'.value → e.Carries Anywhere (fun k => T (m + k)) (f t) (g t')) :
    e.Carries P T (current >>= fun t => if test t.kind then advance >>= fun _ => f t else fail cause)
      (current >>= fun t => if test t.kind then advance >>= fun _ => g t else fail cause) := by
  intro n ts ts' hs _ a rest hrun
  rw [current_bind] at hrun ⊢
  split at hrun
  next hts =>
    have hne : ts.current.kind ≠ .eof := fun heq => by simp [heq, heof] at hts
    cases hs.heads with
    | even htokens hbehind =>
      obtain ⟨k, hn, hrest⟩ := hbehind hne
      rw [htokens.kind, if_pos hts, advance_bind]
      exact (h _ _ _ htokens.value k _ _ hrest trivial a rest hrun).behind hn fun _ _ hab => hab
    | odd hs' hcurrent hn _ hkind =>
      rw [hcurrent, if_neg (by simp [hstray _ hkind])]
      show e.Outcomes n T a rest (.failed (.misplaced cause ts'.current) ts')
      rw [hcurrent]
      exact .stuck cause hn hs'
  next => cases hrun

/-! ### Repetition -/

theorem carries_skipNewlines : e.Carries P (Still fun _ _ => True) skipNewlines skipNewlines := by
  intro n ts ts' hs hP a rest hrun
  clear hP
  induction hs with
  | last ht hk ha =>
    have hk' := ht.kind.trans hk
    rw [skipNewlines_of_ne (by simp [hk])] at hrun
    cases hrun
    rw [skipNewlines_of_ne (by simp [hk'])]
    exact .done rfl ⟨rfl, trivial⟩ (.last ht hk ha)
  | @cons n m k t t' ts ts' hn ht hk ha hdoc h ih =>
    by_cases hline : t.kind = .newline
    · obtain rfl := ht.still (by simp [hline])
      rw [skipNewlines_cons hline h.ne_nil.1] at hrun
      rw [skipNewlines_cons (ht.kind.trans hline) h.ne_nil.2, hn, Nat.zero_add]
      exact ih hrun
    · have hskip : skipNewlines (t :: ts) = .done () (t :: ts) := skipNewlines_of_ne hline
      have hline' : t'.kind ≠ .newline := by rwa [ht.kind]
      have hskip' : skipNewlines (t' :: ts') = .done () (t' :: ts') := skipNewlines_of_ne hline'
      rw [hskip] at hrun
      cases hrun
      rw [hskip']
      exact .done (Nat.zero_add n).symm ⟨rfl, trivial⟩ (.cons hn ht hk ha hdoc h)
  | @forbidden stray t ts ts' he hk hs h =>
    have hline : stray.kind ≠ .newline := by
      intro heq
      rw [heq] at hs
      revert hs
      decide
    have hskip : skipNewlines (stray :: ts') = .done () (stray :: ts') := skipNewlines_of_ne hline
    rw [skipNewlines_of_ne (by simp [hk])] at hrun
    cases hrun
    rw [hskip]
    exact .done rfl ⟨rfl, trivial⟩ (.forbidden he hk hs h)
  | @annotated stray line t t' ts ts' he hk hs hv hl h =>
    have hline : t.kind ≠ .newline := by
      rcases hk with hk | hk <;> simp [hk]
    have hskip : skipNewlines (t :: ts) = .done () (t :: ts) := skipNewlines_of_ne hline
    rw [hskip] at hrun
    cases hrun
    rw [skipNewlines_of_ne (by simp [hs])]
    exact .done rfl ⟨rfl, trivial⟩ (.annotated he hk hs hv hl h)

theorem Lists.snoc {as : List α} {bs : List β} {a : α} {b : β} {k : Nat} (hs : Lists T m as bs)
    (h : T k a b) : Lists T (m + k) (as ++ [a]) (bs ++ [b]) := by
  induction hs with
  | nil => exact .cons (by omega) h .nil
  | cons hn hab _ ih => exact .cons (by omega) hab ih

theorem carries_repeatFrom {goesOn : Token.Kind → Bool} {rounds rounds' : Nat} {as : List α}
    {bs : List β} (hb : Blind goesOn) (hr : rounds ≤ rounds')
    (hstep : e.Carries (fun k => goesOn k = true) T p q)
    (hfound : Lists T m as.reverse bs.reverse) :
    e.Carries P (fun k => Lists T (m + k)) (repeatFrom goesOn p as rounds)
      (repeatFrom goesOn q bs rounds') := by
  -- Both loops see the same test, and the second one has as many rounds left or more.
  induction rounds generalizing rounds' m as bs P with
  | zero =>
    intro n ts ts' hs _ a rest hrun
    have htest := hs.test hb
    simp only [repeatFrom] at hrun
    split at hrun
    · cases hrun
    · next hgoes =>
      cases hrun
      have hstop : goesOn ts'.current.kind = false := by simpa [hgoes] using htest
      cases rounds' <;> simp only [repeatFrom, hstop] <;>
        exact .done (Nat.zero_add n).symm hfound hs
  | succ rounds ih =>
    intro n ts ts' hs _ a rest hrun
    obtain ⟨rounds', rfl⟩ : ∃ r, rounds' = r + 1 := ⟨rounds' - 1, by omega⟩
    have htest := hs.test hb
    simp only [repeatFrom] at hrun ⊢
    rw [htest]
    split at hrun
    · next hgoes =>
      rw [if_pos hgoes]
      split at hrun
      · next x mid hx =>
        have hy := hstep n ts ts' hs hgoes x mid hx
        generalize q ts' = outcome at hy
        cases hy with
        | @done j k y mid' hn hxy hmid =>
          have hfound' : Lists T (m + j) (x :: as).reverse (y :: bs).reverse := by
            rw [List.reverse_cons, List.reverse_cons]
            exact hfound.snoc hxy
          have hrounds : rounds ≤ rounds' := Nat.le_of_succ_le_succ hr
          have hrest := ih (P := Anywhere) hrounds hfound' k mid mid' hmid trivial a rest hrun
          exact hrest.behind hn fun i _ hab => by rwa [← Nat.add_assoc]
        | stuck cause hn hstray => exact .stuck cause hn hstray
      · cases hrun
    · next hgoes =>
      rw [if_neg hgoes]
      cases hrun
      exact .done (Nat.zero_add n).symm hfound hs

theorem carries_repeatWhile {goesOn : Token.Kind → Bool} {rounds rounds' : Nat} (hb : Blind goesOn)
    (hr : rounds ≤ rounds') (hstep : e.Carries (fun k => goesOn k = true) T p q) :
    e.Carries P (Lists T) (repeatWhile rounds goesOn p) (repeatWhile rounds' goesOn q) :=
  (carries_repeatFrom hb hr hstep .nil).mono fun m _ _ h => by rwa [Nat.zero_add] at h

end Edit

end McdocSchema
