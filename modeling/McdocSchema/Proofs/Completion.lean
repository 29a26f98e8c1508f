import McdocSchema.Proofs.DocumentAcceptance
import McdocSchema.Proofs.Seam

/-!
# What a parser passes

The tokens that a parser passes are derived from the expression of its form, and a parser that finds a
token misplaced has passed the beginning of something that the expression derives. `Reads P p e` says both
of a parser and an expression, from a current token whose kind satisfies `P`, in streams in which the end
of the text is the last token and no token before it. An import is the one form that is read and then
refused, so that nothing completes it.
-/

namespace McdocSchema.Grammar

open Ebnf Parse TokenStream

variable {α β : Type} {a b e : Ebnf Rule} {w v : List Token} {ts mid rest : TokenStream}
  {rounds : Nat} {k : Token.Kind} {P Q : Token.Kind → Prop} {p : Parse α}

/-! ## Words that can be completed -/

variable {accepts : Token → Bool}

/-- Some list of tokens is derived from the expression. -/
def IsInhabited (e : Ebnf Rule) : Prop := ∃ w, Derives rules e w

theorem inhabited_token {t : Token} (h : accepts t = true) :
    IsInhabited (.token accepts) :=
  ⟨[t], .token h⟩

@[simp] theorem inhabited_kind : IsInhabited (kind k) :=
  inhabited_token (beq_self_eq_true (Token.mk k "" .start).kind)

theorem IsInhabited.append (ha : IsInhabited a) (hb : IsInhabited b) : IsInhabited (a ++ b) := by
  obtain ⟨u, hu⟩ := ha
  obtain ⟨v, hv⟩ := hb
  exact ⟨u ++ v, .seq hu hv⟩

@[simp] theorem inhabited_append_iff :
    IsInhabited (a ++ b) ↔ IsInhabited a ∧ IsInhabited b := by
  constructor
  · rintro ⟨w, hw⟩
    cases hw with
    | seq hu hv => exact ⟨⟨_, hu⟩, ⟨_, hv⟩⟩
  · exact fun h => h.1.append h.2

@[simp] theorem inhabited_opt : IsInhabited (opt e) := ⟨[], .right .empty⟩

@[simp] theorem inhabited_many : IsInhabited (many e) := ⟨[], .manyNil⟩

theorem IsInhabited.left (h : IsInhabited a) : IsInhabited (a ||| b) := by
  obtain ⟨w, hw⟩ := h
  exact ⟨w, .left hw⟩

theorem IsInhabited.rule {n : Rule} (h : IsInhabited (rules n)) : IsInhabited (.rule n) := by
  obtain ⟨w, hw⟩ := h
  exact ⟨w, .rule hw⟩

@[simp] theorem inhabited_primary : IsInhabited (rule .primary) :=
  inhabited_kind.left.left.left.left.left.left.left.rule

@[simp] theorem inhabited_type : IsInhabited (rule .type) :=
  IsInhabited.rule (n := .type) (inhabited_primary.append inhabited_many)

/-- The tokens are the beginning of a list that is derived from the expression. An import completes
nothing. -/
def Completable (e : Ebnf Rule) (w : List Token) : Prop :=
  (∀ t ∈ w, t.kind ≠ .use) → ∃ c, Derives rules e (w ++ c)

theorem completable_nil (h : IsInhabited e) : Completable e [] := fun _ => h

/-- What is derived in front of a beginning belongs to it. -/
theorem Completable.prepend (h : Completable b w) (hv : Derives rules a v) :
    Completable (a ++ b) (v ++ w) := by
  intro huse
  obtain ⟨c, hc⟩ := h fun t ht => huse t (List.mem_append_right v ht)
  refine ⟨c, ?_⟩
  rw [List.append_assoc]
  exact .seq hv hc

theorem Completable.append (h : Completable a w) (hb : IsInhabited b) : Completable (a ++ b) w := by
  intro huse
  obtain ⟨c, hc⟩ := h huse
  obtain ⟨d, hd⟩ := hb
  refine ⟨c ++ d, ?_⟩
  rw [← List.append_assoc]
  exact .seq hc hd

/-- The fault is at the token where the parser is left, and the tokens in front of it can be completed
to what the expression derives. -/
structure Blames (e : Ebnf Rule) (token : Token) (ts rest : TokenStream) : Prop where
  current : rest.current = token
  ended : rest.Ended
  completable : ∃ w, ts = w ++ rest ∧ Completable e w

theorem Blames.mono {token : Token} (h : Blames a token ts rest)
    (hab : ∀ w, Completable a w → Completable b w) : Blames b token ts rest := by
  obtain ⟨w, hw, hc⟩ := h.completable
  exact ⟨h.current, h.ended, w, hw, hab w hc⟩

theorem Blames.prepend {token : Token} (h : Blames b token mid rest) (hs : Spans rules a ts mid) :
    Blames (a ++ b) token ts rest := by
  obtain ⟨v, rfl, hv⟩ := hs
  obtain ⟨w, rfl, hw⟩ := h.completable
  exact ⟨h.current, h.ended, v ++ w, by rw [List.append_assoc], hw.prepend hv⟩

/-! ## Parsers -/

variable {fault : ParseFault}

/-- The tokens that the parser passes are derived from the expression. -/
def Parsed (p : Parse α) (e : Ebnf Rule) : Prop :=
  ∀ (ts : TokenStream) (a : α) (rest : TokenStream), Ended ts → p ts = .done a rest →
    Spans rules e ts rest ∧ Ended rest

/-- From a current token whose kind satisfies `P`, the parser finds a token misplaced only if those in
front of it can be completed. -/
def Completes (P : Token.Kind → Prop) (p : Parse α) (e : Ebnf Rule) : Prop :=
  ∀ (ts : TokenStream) (cause : ParseCause) (token : Token) (rest : TokenStream), Ended ts →
    P ts.current.kind → p ts = .failed (.misplaced cause token) rest → Blames e token ts rest

/-- The parser finds no token misplaced. -/
def Tolerant (p : Parse α) : Prop :=
  ∀ (ts : TokenStream) (cause : ParseCause) (token : Token) (rest : TokenStream),
    p ts ≠ .failed (.misplaced cause token) rest

theorem Tolerant.completes (h : Tolerant p) : Completes P p e :=
  fun ts cause token rest _ _ hp => absurd hp (h ts cause token rest)

/-- From a current token whose kind satisfies `P`, the parser passes what the expression derives, or the
beginning of it. -/
structure Reads (P : Token.Kind → Prop) (p : Parse α) (e : Ebnf Rule) : Prop where
  spans : ∀ (ts : TokenStream) (x : α) (rest : TokenStream), Ended ts → P ts.current.kind →
    p ts = .done x rest → Spans rules e ts rest ∧ Ended rest
  completes : Completes P p e

theorem Reads.parsed (h : Reads Anywhere p e) : Parsed p e :=
  fun ts x rest hts => h.spans ts x rest hts trivial

theorem Parsed.reads (h : Parsed p e) (hp : Tolerant p) : Reads P p e :=
  ⟨fun ts x rest hts _ => h ts x rest hts, hp.completes⟩

theorem Reads.mono (h : Reads P p a)
    (hab : ∀ ts rest : TokenStream, Spans rules a ts rest → Spans rules b ts rest) :
    Reads P p b := by
  refine ⟨fun ts x rest hts hP hp => ?_, fun ts cause token rest hts hP hp => ?_⟩
  · obtain ⟨hspan, hrest⟩ := h.spans ts x rest hts hP hp
    exact ⟨hab ts rest hspan, hrest⟩
  · apply (h.completes ts cause token rest hts hP hp).mono
    intro w hw huse
    obtain ⟨c, hc⟩ := hw huse
    exact ⟨c, spans_nil_iff.1 (hab _ _ (spans_nil_iff.2 hc))⟩

theorem Reads.restrict (h : Reads P p e) (hQ : ∀ k, Q k → P k) : Reads Q p e :=
  ⟨fun ts x rest hts hk => h.spans ts x rest hts (hQ _ hk),
    fun ts cause token rest hts hk => h.completes ts cause token rest hts (hQ _ hk)⟩

theorem Reads.at (h : Reads Anywhere p e) : Reads P p e := h.restrict fun _ _ => trivial

theorem bind_failed {f : α → Parse β} (h : (p >>= f) ts = .failed fault rest) :
    p ts = .failed fault rest ∨ ∃ x mid, p ts = .done x mid ∧ f x mid = .failed fault rest := by
  rw [bind_apply] at h
  cases hp : p ts with
  | done x mid =>
    rw [hp] at h
    exact .inr ⟨x, mid, rfl, h⟩
  | failed fault' rest' =>
    rw [hp] at h
    cases h
    exact .inl rfl

theorem map_failed {f : α → β} (h : (f <$> p) ts = .failed fault rest) :
    p ts = .failed fault rest := by
  have hm : (f <$> p) = p >>= fun x => pure (f x) := rfl
  rw [hm] at h
  rcases bind_failed h with h | ⟨x, mid, -, h⟩
  · exact h
  · cases h

theorem reads_pure {x : α} (h : ∀ ts : TokenStream, Spans rules e ts ts) :
    Reads P (pure x : Parse α) e := by
  refine ⟨fun ts y rest hts _ hdone => ?_, fun ts cause token rest _ _ hfail => ?_⟩
  · obtain ⟨-, rfl⟩ := pure_done_iff.1 hdone
    exact ⟨h ts, hts⟩
  · cases hfail

/-- The law for a parser and the one behind it. -/
theorem Reads.bind {f : α → Parse β} (h : Reads P p a) (hb : IsInhabited b)
    (hf : ∀ x, Reads Anywhere (f x) b) : Reads P (p >>= f) (a ++ b) := by
  refine ⟨fun ts y rest hts hP hdone => ?_, fun ts cause token rest hts hP hfail => ?_⟩
  · obtain ⟨x, mid, hx, hy⟩ := bind_done_iff.1 hdone
    obtain ⟨ha, hmid⟩ := h.spans ts x mid hts hP hx
    obtain ⟨hb, hrest⟩ := (hf x).spans mid y rest hmid trivial hy
    exact ⟨ha.append hb, hrest⟩
  · rcases bind_failed hfail with hfail | ⟨x, mid, hx, hfail⟩
    · exact (h.completes ts cause token rest hts hP hfail).mono fun w hw => hw.append hb
    · obtain ⟨hspan, hmid⟩ := h.spans ts x mid hts hP hx
      exact ((hf x).completes mid cause token rest hmid trivial hfail).prepend hspan

theorem Reads.map {f : α → β} (h : Reads P p e) : Reads P (f <$> p) e := by
  refine ⟨fun ts y rest hts hP hdone => ?_, fun ts cause token rest hts hP hfail => ?_⟩
  · obtain ⟨x, hx, -⟩ := map_done_iff.1 hdone
    exact h.spans ts x rest hts hP hx
  · exact h.completes ts cause token rest hts hP (map_failed hfail)

/-- The law for the last parser, whose value is put into the result. -/
theorem Reads.last {f : α → β} (h : Reads P p e) : Reads P (p >>= fun x => pure (f x)) e := h.map

theorem Reads.discard (h : Reads P p e) : Reads P (discard p) e := h.map

/-! ### Single tokens -/

variable {cause : ParseCause}

theorem spans_token_behind (hts : Ended ts)
    (hne : ts.current.kind ≠ .eof) (h : accepts ts.current = true) :
    Spans rules (.token accepts) ts ts.behind ∧ Ended ts.behind := by
  obtain ⟨hcons, hend⟩ := hts.behind hne
  exact ⟨spans_token_iff.2 ⟨ts.current, hcons, h⟩, hend⟩

theorem spans_kind_behind (hts : Ended ts) (hk : ts.current.kind = k) (hne : k ≠ .eof) :
    Spans rules (kind k) ts ts.behind ∧ Ended ts.behind :=
  spans_token_behind hts (by rwa [hk]) (by simpa using hk)

theorem reads_current {f : Token → Parse β} (hf : ∀ t, Reads (fun j => j = t.kind ∧ P j) (f t) e) :
    Reads P (Parse.current >>= f) e :=
  ⟨fun ts x rest hts hP => (hf ts.current).spans ts x rest hts ⟨rfl, hP⟩,
    fun ts cause token rest hts hP => (hf ts.current).completes ts cause token rest hts ⟨rfl, hP⟩⟩

theorem reads_sees {f : Bool → Parse β} (htrue : Reads (fun j => j = k ∧ P j) (f true) e)
    (hfalse : Reads (fun j => j ≠ k ∧ P j) (f false) e) : Reads P (sees k >>= f) e := by
  have hf : ∀ t : Token, Reads (fun j => j = t.kind ∧ P j) (f (t.kind == k)) e := by
    intro t
    by_cases hk : t.kind = k
    · rw [beq_iff_eq.2 hk]
      exact htrue.restrict fun j hj => ⟨hj.1.trans hk, hj.2⟩
    · rw [beq_eq_false_iff_ne.2 hk]
      exact hfalse.restrict fun j hj => ⟨ne_of_eq_of_ne hj.1 hk, hj.2⟩
  exact reads_current hf

theorem reads_advance (hne : ∀ j, P j → j ≠ .eof)
    (hP : ∀ t : Token, P t.kind → accepts t = true) : Reads P advance (token accepts) := by
  refine ⟨fun ts x rest hts hk hdone => ?_, fun ts cause token rest _ _ hfail => ?_⟩
  · cases hdone
    exact spans_token_behind hts (hne _ hk) (hP _ hk)
  · cases hfail

theorem reads_accepted {f : Token → Bool} (hne : k ≠ .eof) (hf : ∀ t : Token, t.kind = k → f t = true) :
    Reads (fun j => j = k ∧ P j) advance (token f) :=
  reads_advance (fun _ hj => by rwa [hj.1]) fun t ht => hf t ht.1

theorem reads_pass (hne : k ≠ .eof) : Reads (fun j => j = k ∧ P j) advance (kind k) :=
  reads_accepted hne fun _ ht => beq_iff_eq.2 ht

theorem reads_advance_beq (hne : k ≠ .eof) :
    Reads (fun j => (j == k) = true) advance (kind k) :=
  (reads_pass hne).restrict fun _ hj => ⟨eq_of_beq hj, trivial⟩

theorem reads_eat {f : Bool → Parse β} (hne : k ≠ .eof) (hb : IsInhabited b)
    (htrue : Reads Anywhere (f true) b) (hfalse : Reads (fun j => j ≠ k ∧ P j) (f false) e)
    (hinto : ∀ ts rest : TokenStream, Spans rules (kind k ++ b) ts rest → Spans rules e ts rest) :
    Reads P (eat k >>= f) e := by
  rw [eat_bind_eq]
  exact reads_sees (((reads_pass hne).bind hb fun _ => htrue).mono hinto) hfalse

theorem reads_opt {x : α} (hne : k ≠ .eof) (he : IsInhabited e) (hp : Reads Anywhere p e) :
    Reads P (eat k >>= fun eaten => if eaten then p else pure x) (opt (kind k ++ e)) :=
  reads_eat hne he hp (reads_pure spans_opt_nil) fun _ _ h => h.opt

theorem reads_eaten (hne : k ≠ .eof) : Reads P (eat k) (opt (kind k)) := by
  rw [← eat_bind_ite, eat_bind_eq]
  exact reads_sees ((reads_pass hne).last.mono fun _ _ h => h.opt) (reads_pure spans_opt_nil)

theorem reads_fail (he : IsInhabited e) : Reads P (fail cause : Parse α) e := by
  refine ⟨fun ts x rest _ _ hdone => ?_, fun ts cause' token rest hts _ hfail => ?_⟩
  · cases hdone
  · cases hfail
    exact ⟨rfl, hts, [], rfl, completable_nil he⟩

theorem reads_throw (h : ∀ cause token, fault ≠ .misplaced cause token) :
    Reads P (throw fault : Parse α) e := by
  refine ⟨fun ts x rest _ _ hdone => ?_, fun ts cause token rest _ _ hfail => ?_⟩
  · cases hdone
  · cases hfail
    exact absurd rfl (h cause token)

theorem reads_consumeOr {cause : Token.Kind → ParseCause} (hne : k ≠ .eof) :
    Reads P (consumeOr k cause) (kind k) := by
  refine ⟨fun ts t rest hts _ hdone => ?_, fun ts cause' token rest hts _ hfail => ?_⟩
  · obtain ⟨hk, -, rfl⟩ := consumeOr_done_iff.1 hdone
    exact spans_kind_behind hts hk hne
  · rw [consumeOr] at hfail
    split at hfail
    · cases hfail
    · cases hfail
      exact ⟨rfl, hts, [], rfl, completable_nil inhabited_kind⟩

theorem reads_consume (hne : k ≠ .eof) : Reads P (consume k) (kind k) := reads_consumeOr hne

theorem spans_run {run : List Token} (hne : k ≠ .eof) (hts : Ended (run ++ rest))
    (hr : ∀ t ∈ run, t.kind = k) : Spans rules (.many (kind k)) (run ++ rest) rest ∧ Ended rest := by
  refine ⟨spans_many_kind_iff.2 ⟨run, rfl, hr⟩, Ended.of_append hts ?_⟩
  intro t ht
  rwa [hr t ht]

theorem parsed_skipNewlines : Parsed skipNewlines newlines := by
  intro ts _ rest hts h
  obtain ⟨lines, rfl, hl, -⟩ := skipNewlines_done h
  exact spans_run (by decide) hts hl

theorem reads_skipNewlines : Reads P skipNewlines newlines := by
  apply parsed_skipNewlines.reads
  intro ts cause token rest h
  fun_induction skipNewlines ts with
  | case1 t u ts hk ih => exact ih h
  | case2 => cases h
  | case3 => cases h
  | case4 => cases h

/-! ### Repetition -/

variable {goesOn : Token.Kind → Bool} {step : Parse α} {r x : Ebnf Rule}

/-- A round of a repetition that goes on behind it. -/
def Round (goesOn : Token.Kind → Bool) (step : Parse α) (ts mid : TokenStream) : Prop :=
  goesOn ts.current.kind = true ∧ (∃ x, step ts = .done x mid) ∧ goesOn mid.current.kind = true

/-- A repetition that has rounds enough fails in one of them. -/
theorem repeatFrom_failed {found : List α} (hne : fault ≠ .endless)
    (h : repeatFrom goesOn step found rounds ts = .failed fault rest) :
    ∃ mid, Relation.ReflTransGen (Round goesOn step) ts mid ∧ goesOn ts.current.kind = true ∧
      goesOn mid.current.kind = true ∧ step mid = .failed fault rest := by
  induction rounds generalizing found ts with
  | zero =>
    cases hg : goesOn ts.current.kind with
    | true =>
      simp only [repeatFrom, hg, if_true] at h
      cases h
      exact absurd rfl hne
    | false =>
      rw [repeatFrom_of_stops hg] at h
      cases h
  | succ rounds ih =>
    cases hg : goesOn ts.current.kind with
    | false =>
      rw [repeatFrom_of_stops hg] at h
      cases h
    | true =>
      rw [repeatFrom_succ hg] at h
      cases hs : step ts with
      | failed fault rest' =>
        rw [hs] at h
        cases h
        exact ⟨ts, .refl, rfl, hg, hs⟩
      | done x next =>
        rw [hs] at h
        obtain ⟨mid, hrounds, hnext, hmid, hfail⟩ := ih h
        exact ⟨mid, .head ⟨hg, ⟨x, hs⟩, hnext⟩ hrounds, rfl, hmid, hfail⟩

theorem exists_last_round {as : List α} (hc : Chain goesOn step ts as rest)
    (hg : goesOn ts.current.kind = true) :
    ∃ mid y, Relation.ReflTransGen (Round goesOn step) ts mid ∧ goesOn mid.current.kind = true ∧
      step mid = .done y rest := by
  induction hc with
  | nil hstop =>
    rw [hstop] at hg
    cases hg
  | @cons ts mid rest y ys _ hs hc ih =>
    cases hmid : goesOn mid.current.kind with
    | true =>
      obtain ⟨last, z, hrounds, hlast, hz⟩ := ih hmid
      exact ⟨last, z, .head ⟨hg, ⟨y, hs⟩, hmid⟩ hrounds, hlast, hz⟩
    | false =>
      cases hc with
      | nil _ => exact ⟨ts, y, .refl, hg, hs⟩
      | cons hg' _ _ =>
        rw [hmid] at hg'
        cases hg'

section

variable (hround : ∀ (ts : TokenStream) (y : α) (mid : TokenStream), goesOn ts.current.kind = true →
  Ended ts → step ts = .done y mid → goesOn mid.current.kind = true → Spans rules r ts mid ∧ Ended mid)

include hround

theorem spans_many_of_rounds (hts : Ended ts) (h : Relation.ReflTransGen (Round goesOn step) ts mid) :
    Spans rules (many r) ts mid ∧ Ended mid := by
  rw [spans_many_iff]
  induction h using Relation.ReflTransGen.head_induction_on with
  | refl => exact ⟨.refl, hts⟩
  | head hfirst _ ih =>
    obtain ⟨hg, ⟨x, hx⟩, hg'⟩ := hfirst
    obtain ⟨hr, hnext⟩ := hround _ x _ hg hts hx hg'
    obtain ⟨hmany, hmid⟩ := ih hnext
    exact ⟨.head hr hmany, hmid⟩

/-- The law for repetition: `r` is what a round passes behind which another one starts. -/
theorem reads_rounds (hstep : Reads (fun j => goesOn j = true) step e) :
    Reads (fun j => goesOn j = true) (repeatWhile rounds goesOn step) (many r ++ e) := by
  refine ⟨fun ts ys rest hts hg hdone => ?_, fun ts cause token rest hts _ hfail => ?_⟩
  · obtain ⟨mid, y, hrounds, hgoes, hy⟩ := exists_last_round (chain_of_repeatWhile hdone) hg
    obtain ⟨hmany, hmid⟩ := spans_many_of_rounds hround hts hrounds
    obtain ⟨hlast, hrest⟩ := hstep.spans mid y rest hmid hgoes hy
    exact ⟨hmany.append hlast, hrest⟩
  · obtain ⟨mid, hrounds, -, hgoes, hfail⟩ := repeatFrom_failed (by simp) hfail
    obtain ⟨hmany, hmid⟩ := spans_many_of_rounds hround hts hrounds
    exact (hstep.completes mid cause token rest hmid hgoes hfail).prepend hmany

end

theorem Reads.of_stops (h : Reads (fun j => goesOn j = true) (repeatWhile rounds goesOn step) e)
    (hnil : ∀ ts : TokenStream, Spans rules e ts ts) : Reads P (repeatWhile rounds goesOn step) e := by
  have hstop : ∀ ts : TokenStream, goesOn ts.current.kind ≠ true →
      repeatWhile rounds goesOn step ts = .done [] ts :=
    fun ts hg => repeatFrom_of_stops (eq_false_of_ne_true hg)
  refine ⟨fun ts ys rest hts _ hdone => ?_, fun ts cause token rest hts _ hfail => ?_⟩
  · by_cases hg : goesOn ts.current.kind = true
    · exact h.spans ts ys rest hts hg hdone
    · rw [hstop ts hg] at hdone
      cases hdone
      exact ⟨hnil ts, hts⟩
  · by_cases hg : goesOn ts.current.kind = true
    · exact h.completes ts cause token rest hts hg hfail
    · rw [hstop ts hg] at hfail
      cases hfail

theorem reads_repeatWhile (hstep : Reads (fun j => goesOn j = true) step e) :
    Reads P (repeatWhile rounds goesOn step) (many e) := by
  have hrounds : Reads _ (repeatWhile rounds goesOn step) (many e ++ e) :=
    reads_rounds (fun ts y mid hg hts hy _ => hstep.spans ts y mid hts hg hy) hstep
  apply (hrounds.mono fun ts rest h => ?_).of_stops spans_many_nil
  obtain ⟨mid, hmany, hlast⟩ := spans_append_iff.1 h
  exact hmany.many_append (hlast.many_cons (spans_many_nil rest))

/-! ### Lines -/

variable {close : Token.Kind} {line : Parse (Option α)}

/-- Line breaks in front of lines may stand between them instead. -/
theorem spans_lines_of_many (h : Spans rules (many (newlines ++ (x ++ newlines))) ts mid)
    (hlast : Spans rules (newlines ++ many (x ++ newlines)) mid rest) :
    Spans rules (newlines ++ many (x ++ newlines)) ts rest := by
  rw [spans_many_iff] at h
  induction h using Relation.ReflTransGen.head_induction_on with
  | refl => exact hlast
  | head hfirst _ ih =>
    obtain ⟨next, hbreaks, hline⟩ := spans_append_iff.1 hfirst
    obtain ⟨next', hx, hmore⟩ := spans_append_iff.1 hline
    obtain ⟨next'', hmore', hmany⟩ := spans_append_iff.1 ih
    -- The line breaks in front of the next line belong to this one.
    exact hbreaks.append ((hx.append (hmore.many_append hmore')).many_cons hmany)

/-- What is read between line breaks: nothing in front of the closing token, else a line. -/
theorem reads_betweenBreaks
    (hline : Reads Anywhere line (x ++ newlines)) :
    Reads P (skipNewlines >>= fun _ => sees close >>= fun closed => if closed then pure none else line)
      (newlines ++ opt (x ++ newlines)) := by
  refine reads_skipNewlines.bind inhabited_opt fun _ => reads_sees (reads_pure spans_opt_nil) ?_
  exact hline.at.mono fun _ _ h => h.opt

/-- A round behind which another one starts reads a line. -/
theorem spans_betweenBreaks {y : Option α}
    (hline : Reads Anywhere line (x ++ newlines)) (hts : Ended ts)
    (h : (skipNewlines >>= fun _ => sees close >>= fun closed => if closed then pure none else line) ts =
      .done y mid) (hgoes : (mid.current.kind != close) = true) :
    Spans rules (newlines ++ (x ++ newlines)) ts mid ∧ Ended mid := by
  obtain ⟨_, next, hskip, h⟩ := bind_done_iff.1 h
  obtain ⟨hbreaks, hnext⟩ := parsed_skipNewlines _ _ _ hts hskip
  rw [sees_bind] at h
  split at h
  · next hk =>
    obtain ⟨-, rfl⟩ := pure_done_iff.1 h
    simp [eq_of_beq hk] at hgoes
  · obtain ⟨hspan, hmid⟩ := hline.parsed _ _ _ hnext h
    exact ⟨hbreaks.append hspan, hmid⟩

/-- The law for lines up to a closing token. -/
theorem reads_lines
    (hline : Reads Anywhere line (x ++ newlines)) :
    Reads P (repeatWhile rounds (· != close) (skipNewlines >>= fun _ => sees close >>= fun closed =>
      if closed then pure none else line)) (newlines ++ many (x ++ newlines)) := by
  have hnil : ∀ ts : TokenStream, Spans rules (newlines ++ many (x ++ newlines)) ts ts :=
    fun ts => (spans_many_nil ts).append (spans_many_nil ts)
  apply Reads.of_stops _ hnil
  apply (reads_rounds (fun _ _ _ _ => spans_betweenBreaks hline) (reads_betweenBreaks hline)).mono
  intro ts rest h
  obtain ⟨mid, hmany, hlast⟩ := spans_append_iff.1 h
  obtain ⟨next, hbreaks, hopt⟩ := spans_append_iff.1 hlast
  refine spans_lines_of_many hmany (hbreaks.append ?_)
  rcases spans_opt_iff.1 hopt with hspan | rfl
  · exact hspan.many_cons (spans_many_nil rest)
  · exact spans_many_nil next

/-! ### Lists between commas -/

/-- Items with a comma behind each of them, and one more item. -/
theorem spans_commaList_of_many
    (h : Spans rules (many (e ++ kind .comma) ++ (e ++ opt (kind .comma))) ts rest) :
    Spans rules (commaList e) ts rest := by
  obtain ⟨mid, hmany, hlast⟩ := spans_append_iff.1 h
  obtain ⟨next, he, hcomma⟩ := spans_append_iff.1 hlast
  suffices hs : Spans rules (e ++ many (kind .comma ++ e)) ts next from (hs.append hcomma).opt
  rw [spans_many_iff] at hmany
  clear h hlast
  induction hmany using Relation.ReflTransGen.head_induction_on with
  | refl => exact he.append (spans_many_nil next)
  | head hfirst _ ih =>
    obtain ⟨first, hitem, hcomma⟩ := spans_append_iff.1 hfirst
    obtain ⟨second, hitem', hmany⟩ := spans_append_iff.1 ih
    exact hitem.append ((hcomma.append hitem').many_cons hmany)

theorem reads_separator :
    Reads P (separator close cause) (opt (kind .comma)) := by
  rw [separator, eat_bind_eq]
  apply reads_sees ((reads_pass (by decide)).last.mono fun _ _ h => h.opt)
  exact reads_sees (reads_pure spans_opt_nil) (reads_fail inhabited_opt)

theorem separator_done
    (h : separator close cause ts = .done () rest) :
    ts.current.kind = .comma ∧ ts.behind = rest ∨ ts.current.kind = close ∧ ts = rest := by
  rw [separator] at h
  by_cases hc : ts.current.kind = .comma
  · rw [eat_bind_of_eq hc, if_pos rfl] at h
    exact .inl ⟨hc, (pure_done_iff.1 h).2⟩
  · rw [eat_bind_of_ne hc, if_neg (by simp), sees_bind] at h
    by_cases hk : ts.current.kind = close
    · rw [if_pos (by simpa using hk)] at h
      exact .inr ⟨hk, (pure_done_iff.1 h).2⟩
    · rw [if_neg (by simpa using hk)] at h
      cases h

theorem reads_bracketed {item : Parse α} {f : α → β} {opening close : Token.Kind}
    (hitem : Reads Anywhere item e) (hopen : opening ≠ .eof) (hclose : close ≠ .eof) :
    Reads P (bracketed rounds opening close cause item f)
      (opt (kind opening ++ commaList e ++ kind close)) := by
  have hstep : Reads Anywhere (listStep close cause item f) (e ++ opt (kind .comma)) :=
    hitem.bind inhabited_opt fun _ => reads_separator.last
  have hitems : Reads Anywhere (repeatWhile rounds (· != close) (listStep close cause item f))
      (commaList e) := by
    apply ((reads_rounds ?_ hstep.at).mono fun _ _ => spans_commaList_of_many).of_stops spans_opt_nil
    -- Behind an item that is not the last one there is a comma.
    intro ts y mid _ hts hy hgoes
    obtain ⟨z, next, hz, hy⟩ := bind_done_iff.1 hy
    obtain ⟨_, last, hsep, hy⟩ := bind_done_iff.1 hy
    obtain ⟨-, rfl⟩ := pure_done_iff.1 hy
    obtain ⟨hspan, hnext⟩ := hitem.parsed ts z next hts hz
    rcases separator_done hsep with ⟨hcomma, rfl⟩ | ⟨hk, rfl⟩
    · obtain ⟨hcm, hend⟩ := spans_kind_behind hnext hcomma (by decide)
      exact ⟨hspan.append hcm, hend⟩
    · simp [hk] at hgoes
  have hlist : Reads P (bracketed rounds opening close cause item f)
      (opt (kind opening ++ (commaList e ++ kind close))) :=
    reads_opt hopen (by simp [commaList]) <|
      hitems.bind inhabited_kind fun _ => (reads_consume hclose).discard.last
  apply hlist.mono
  intro ts rest h
  rcases spans_opt_iff.1 h with h | rfl
  · exact h.assoc.opt
  · exact spans_opt_nil ts

end McdocSchema.Grammar
