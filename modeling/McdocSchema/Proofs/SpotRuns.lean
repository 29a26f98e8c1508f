import Mathlib.Data.List.ReduceOption
import McdocSchema.Proofs.Locality
import McdocSchema.Proofs.Spots

/-!
# Runs that come to a spot

A run of the parser that comes to a spot goes on by reading the documentation there (`Spot.Opens.leads`).
What follows from this: the label is found in the document (`Spot.Opens.label?_of_document`), no token in
front of what is read next is left any more (`Spot.Opens.leaves_of_failed`), and a second comment
behind the first one is misplaced (`Spot.Opens.exists_misplaced`).
-/

namespace McdocSchema

open Grammar Ebnf Parse TokenStream

namespace Grammar

variable {α β : Type} {ts mid next rest : TokenStream} {rounds n : Nat} {reader : Parse (Option String)}
  {p : Parse α} {g : Option String → Parse α} {Q : Option String → TokenStream → α → Prop}
  {R : Option String → TokenStream → β → Prop}

/-! ## Runs that come to documentation -/

/-- What is left to do behind documentation: it leaves tokens that it starts from, what it gives has to
do with them, and it is not prepared for more documentation. -/
structure Continues (g : Option String → Parse α) (Q : Option String → TokenStream → α → Prop) : Prop where
  leaves : ∀ doc ts, Leaves ts (g doc ts).rest
  done : ∀ doc ts a rest, g doc ts = .done a rest → Q doc ts a
  stuck : ∀ doc (ts : TokenStream), ts.current.kind = .docComment →
    ∃ cause, g doc ts = .failed (.misplaced cause ts.current) ts

/-- The run of the parser on `ts` comes to `mid`, reads documentation there and goes on. -/
def Leads (p : Parse α) (ts : TokenStream) (reader : Parse (Option String)) (mid : TokenStream)
    (Q : Option String → TokenStream → α → Prop) : Prop :=
  ∃ g, Continues g Q ∧ p ts = (reader >>= g) mid

theorem Leads.bind {f : α → Parse β} (h : Leads p ts reader mid Q)
    (hf : ∀ a ts, Leaves ts (f a ts).rest)
    (hQ : ∀ doc ts a next b rest, Q doc ts a → f a next = .done b rest → R doc ts b) :
    Leads (p >>= f) ts reader mid R := by
  obtain ⟨g, hg, hrun⟩ := h
  refine ⟨fun doc => g doc >>= f, ⟨?_, ?_, ?_⟩, ?_⟩
  · exact fun doc => leaves_bind (hg.leaves doc) fun a _ rest _ => hf a rest
  · intro doc ts b rest hdone
    obtain ⟨a, next, ha, hb⟩ := bind_done_iff.1 hdone
    exact hQ doc ts a next b rest (hg.done doc ts a next ha) hb
  · intro doc ts hts
    obtain ⟨cause, hfail⟩ := hg.stuck doc ts hts
    exact ⟨cause, by rw [bind_apply, hfail]⟩
  · rw [bind_apply, hrun, bind_apply, bind_apply]
    cases reader mid <;> rfl

theorem Leads.pure {f : α → β} (h : Leads p ts reader mid Q)
    (hQ : ∀ doc ts a, Q doc ts a → R doc ts (f a)) :
    Leads (p >>= fun a => Pure.pure (f a)) ts reader mid R := by
  apply h.bind
  · exact fun _ => leaves_refl
  · intro doc ts a next b rest ha hb
    obtain ⟨rfl, -⟩ := pure_done_iff.1 hb
    exact hQ doc ts a ha

/-- What is passed in front does not matter. -/
theorem Leads.behind {f : β → Parse α} {q : Parse β} {b : β} (h : Leads (f b) next reader mid Q)
    (hq : q ts = .done b next) : Leads (q >>= f) ts reader mid Q := by
  obtain ⟨g, hg, hrun⟩ := h
  exact ⟨g, hg, by rw [bind_of_done hq, hrun]⟩

theorem Leads.of_eq {q : Parse α} (h : Leads q next reader mid Q) (heq : p ts = q next) :
    Leads p ts reader mid Q := by
  obtain ⟨g, hg, hrun⟩ := h
  exact ⟨g, hg, by rw [heq, hrun]⟩

/-! ## Items behind their documentation -/

theorem typeAlias_done {word t : Token} {decl : Alias}
    (h : typeAlias rounds (word :: t :: ts) = .done decl rest) : decl.name = t.value := by
  rw [typeAlias_eq_named] at h
  obtain ⟨-, -, found, target, rfl⟩ := named_done h
  rfl

theorem leads_declaration :
    Leads (declarationDoc >>= declaration rounds) mid declarationDoc mid
      fun doc ts decl => ∀ name, Spot.Names ⟨0, none⟩ name ts → decl.label? none = some ⟨name, doc⟩ := by
  refine ⟨declaration rounds, ⟨?_, ?_, ?_⟩, rfl⟩
  · exact fun doc => (local_declaration (J := Seam.atEnd .absent [] rfl) (I := Anything) (n := 0) (P := Anywhere) doc
      (absurd rfl) (fun _ _ _ => trivial) (Nat.zero_le _) (Nat.zero_le (rounds + 1))).leaves
  · rintro doc ts decl rest hrun name ⟨word, t, more, rfl, hword, ht, rfl⟩
    rw [declaration, current_bind, current_cons, hword] at hrun
    obtain ⟨decl', _, hdecl, hpure⟩ := bind_done_iff.1 hrun
    obtain ⟨rfl, -⟩ := pure_done_iff.1 hpure
    rw [Declaration.label?, typeAlias_done hdecl]
  · intro doc ts hts
    refine ⟨.unexpected .docComment, ?_⟩
    rw [declaration, current_bind, hts]
    rfl

theorem structItem_done {inner : Parse TypeExpr} {doc : Option String} {t : Token}
    {item : Field TypeExpr ⊕ TypeExpr} (ht : t.kind = .identifier)
    (h : Parse.structItem inner doc (t :: ts) = .done item rest) :
    ∃ f, item = .inl f ∧ f.name = t.value ∧ f.doc = doc := by
  rw [Parse.structItem, eat_bind_of_ne (by simp [ht]), if_neg (by simp)] at h
  obtain ⟨named, _, hconsume, h⟩ := bind_done_iff.1 h
  obtain ⟨-, rfl, -⟩ := consume_done_iff.1 hconsume
  obtain ⟨optional, _, -, h⟩ := bind_done_iff.1 h
  obtain ⟨_, _, -, h⟩ := discard_bind_done_iff.1 h
  obtain ⟨type, _, -, h⟩ := bind_done_iff.1 h
  obtain ⟨rfl, -⟩ := pure_done_iff.1 h
  exact ⟨_, rfl, rfl, rfl⟩

theorem structItem_spread_done {inner : Parse TypeExpr} {doc : Option String} {t : Token}
    {item : Field TypeExpr ⊕ TypeExpr} (ht : t.kind = .ellipsis)
    (h : Parse.structItem inner doc (t :: ts) = .done item rest) : ∃ type, item = .inr type := by
  rw [Parse.structItem, eat_bind_of_eq (by rw [current_cons, ht]), if_pos rfl] at h
  obtain ⟨type, -, rfl⟩ := map_done_iff.1 h
  exact ⟨type, rfl⟩

theorem leaves_structItem (doc : Option String) (ts : TokenStream) :
    Leaves ts (Parse.structItem (typeExpr rounds) doc ts).rest :=
  (local_structItem (J := Seam.atEnd .absent [] rfl) (I := Anything) (P := Anywhere) (n := 0) doc
    (local_typeExpr (Nat.zero_le _) (Nat.zero_le rounds))).leaves ts

theorem leaves_variant (doc : Option String) (ts : TokenStream) :
    Leaves ts (Parse.variant doc ts).rest :=
  (local_variant (J := Seam.atEnd .absent [] rfl) (I := Anything) (P := Anywhere) (n := 0) doc).leaves ts

/-- A token that is no name is misplaced where a name is due. -/
theorem consume_of_ne {k : Token.Kind} (h : ts.current.kind ≠ k) :
    consume k ts = .failed (.misplaced (.expected k ts.current.kind) ts.current) ts := by
  rw [consume, consumeOr, if_neg (by simpa using h)]

theorem leads_structItem :
    Leads (memberDoc >>= Parse.structItem (typeExpr rounds)) mid memberDoc mid
      fun doc ts item => ∀ name, Spot.Names ⟨0, some 0⟩ name ts →
        ∃ f, item = .inl f ∧ f.name = name ∧ f.doc = doc := by
  refine ⟨Parse.structItem (typeExpr rounds), ⟨?_, ?_, ?_⟩, rfl⟩
  · exact leaves_structItem
  · rintro doc ts item rest hrun name ⟨t, more, rfl, ht, rfl⟩
    exact structItem_done ht hrun
  · intro doc ts hts
    refine ⟨.expected .identifier .docComment, ?_⟩
    rw [Parse.structItem, eat_bind_of_ne (by simp [hts]), if_neg (by simp), bind_apply,
      consume_of_ne (by simp [hts]), hts]

theorem leads_variant :
    Leads (memberDoc >>= Parse.variant) mid memberDoc mid
      fun doc ts v => ∀ name, Spot.Names ⟨0, some 0⟩ name ts → v.name = name ∧ v.doc = doc := by
  refine ⟨Parse.variant, ⟨?_, ?_, ?_⟩, rfl⟩
  · exact leaves_variant
  · rintro doc ts v rest hrun name ⟨t, more, rfl, ht, rfl⟩
    obtain ⟨named, _, hconsume, hrun⟩ := bind_done_iff.1 hrun
    obtain ⟨-, rfl, -⟩ := consume_done_iff.1 hconsume
    obtain ⟨value, _, -, hrun⟩ := bind_done_iff.1 hrun
    obtain ⟨rfl, -⟩ := pure_done_iff.1 hrun
    exact ⟨rfl, rfl⟩
  · intro doc ts hts
    refine ⟨.expected .identifier .docComment, ?_⟩
    rw [Parse.variant, bind_apply, consume_of_ne (by simp [hts]), hts]

/-! ## Rounds in front of a spot -/

variable {step : Parse (Option α)} {as : List α} {close : Token.Kind}

/-- Rounds of a repetition that give the values `as`. -/
inductive Links (close : Token.Kind) (step : Parse (Option α)) :
    List α → TokenStream → TokenStream → Prop
  | nil (rest : TokenStream) : Links close step [] rest rest
  | cons {a : α} {as : List α} {ts mid rest : TokenStream} (hg : (ts.current.kind != close) = true)
      (hs : step ts = .done (some a) mid) (h : Links close step as mid rest) :
      Links close step (a :: as) ts rest

theorem Links.repeatFrom {found : List (Option α)} (h : Links close step as ts rest)
    (hr : as.length ≤ rounds) :
    repeatFrom (· != close) step found rounds ts =
      Parse.repeatFrom (· != close) step ((as.map some).reverse ++ found) (rounds - as.length) rest := by
  induction h generalizing found rounds with
  | nil => rfl
  | @cons a as ts mid rest hg hs _ ih =>
    obtain ⟨rounds, rfl⟩ : ∃ r, rounds = r + 1 := ⟨rounds - 1, by simp at hr; omega⟩
    rw [repeatFrom_succ hg, hs]
    simp only [List.length_cons, Nat.add_le_add_iff_right] at hr
    show Parse.repeatFrom _ step (some a :: found) rounds mid = _
    rw [ih hr]
    simp

/-- Rounds that give the values `as`, and line breaks that the next round passes. -/
def Comes (close : Token.Kind) (step : Parse (Option α)) (as : List α) (ts mid : TokenStream) : Prop :=
  ∃ next, Links close step as ts next ∧ Spans rules newlines next mid ∧
    as.length + mid.length ≤ ts.length

theorem Comes.length_le (h : Comes close step as ts mid) : as.length + mid.length ≤ ts.length := by
  obtain ⟨_, -, -, hle⟩ := h
  exact hle

theorem Comes.cons {a : α} (h : Comes close step as mid rest) (hg : (ts.current.kind != close) = true)
    (hs : step ts = .done (some a) mid) (hlt : mid.length < ts.length) :
    Comes close step (a :: as) ts rest := by
  obtain ⟨next, hlinks, hbreaks, hle⟩ := h
  refine ⟨next, .cons hg hs hlinks, hbreaks, ?_⟩
  rw [List.length_cons]
  omega

/-- Items of two forms are rounds that go on with an item; those of the second form are counted. -/
theorem exists_comes {other item : TokenStream → TokenStream → Prop} (first : Token.Kind → Prop)
    {counts : α → Bool} {j : Nat} (hclose : close ≠ .newline) (hne : ∀ k, first k → k ≠ close)
    (hstart : ∀ ts rest, other ts rest ∨ item ts rest →
      first ts.current.kind ∧ rest.length < ts.length)
    (hother : ∀ ts mid rest : TokenStream, ts.length < n → Spans rules newlines ts mid →
      other mid rest → rest ≠ [] → first rest.current.kind →
      ∃ a, step ts = .done (some a) rest ∧ counts a = false)
    (hitem : ∀ ts mid rest : TokenStream, ts.length < n → Spans rules newlines ts mid →
      item mid rest → rest ≠ [] → first rest.current.kind →
      ∃ a, step ts = .done (some a) rest ∧ counts a = true)
    (hlen : ts.length < n) (hlines : Spans rules newlines ts mid) (h : Counted other item j mid rest)
    (hr : rest ≠ []) (hf : first rest.current.kind) :
    ∃ as, Comes close step as ts rest ∧ as.countP counts = j := by
  -- Each item is followed by another one or by the end of the way.
  have hnext : ∀ {j : Nat} {ts : TokenStream}, Counted other item j ts rest →
      ts ≠ [] ∧ first ts.current.kind := by
    intro j ts h
    have hmore : ∀ {mid : TokenStream}, other ts mid ∨ item ts mid → ts ≠ [] ∧ first ts.current.kind := by
      intro mid h
      obtain ⟨hk, hlt⟩ := hstart ts mid h
      refine ⟨?_, hk⟩
      rintro rfl
      simp at hlt
    cases h with
    | nil => exact ⟨hr, hf⟩
    | skip h => exact hmore (.inl h)
    | cons h => exact hmore (.inr h)
  have hgoes : ∀ {ts mid : TokenStream}, Spans rules newlines ts mid → first mid.current.kind →
      (ts.current.kind != close) = true := by
    intro ts mid hlines hk
    rcases newline_of_spans_newlines hlines with rfl | ⟨hnl, -⟩
    · simpa using hne _ hk
    · rw [hnl]
      simpa using hclose.symm
  induction h generalizing ts with
  | nil => exact ⟨[], ⟨ts, .nil ts, hlines, by simpa using hlines.length_le⟩, rfl⟩
  | @skip j mid last rest h hs ih =>
    obtain ⟨hneLast, hkLast⟩ := hnext hs
    obtain ⟨hk, hlt⟩ := hstart mid last (.inl h)
    have hle := hlines.length_le
    obtain ⟨a, ha, hcount⟩ := hother ts mid last hlen hlines h hneLast hkLast
    obtain ⟨as, hcomes, has⟩ := ih (by omega) (spans_many_nil last) hr hf hnext
    refine ⟨a :: as, hcomes.cons (hgoes hlines hk) ha (by omega), ?_⟩
    rw [List.countP_cons, has, hcount]
    rfl
  | @cons j mid last rest h hs ih =>
    obtain ⟨hneLast, hkLast⟩ := hnext hs
    obtain ⟨hk, hlt⟩ := hstart mid last (.inr h)
    have hle := hlines.length_le
    obtain ⟨a, ha, hcount⟩ := hitem ts mid last hlen hlines h hneLast hkLast
    obtain ⟨as, hcomes, has⟩ := ih (by omega) (spans_many_nil last) hr hf hnext
    refine ⟨a :: as, hcomes.cons (hgoes hlines hk) ha (by omega), ?_⟩
    rw [List.countP_cons, has, hcount]
    rfl

theorem exists_comes_items {item : TokenStream → TokenStream → Prop} (first : Token.Kind → Prop)
    {j : Nat} (hclose : close ≠ .newline) (hne : ∀ k, first k → k ≠ close)
    (hstart : ∀ ts rest, item ts rest → first ts.current.kind ∧ rest.length < ts.length)
    (hitem : ∀ ts mid rest : TokenStream, ts.length < n → Spans rules newlines ts mid →
      item mid rest → rest ≠ [] → first rest.current.kind → ∃ a, step ts = .done (some a) rest)
    (hlen : ts.length < n) (hlines : Spans rules newlines ts mid)
    (h : Counted (fun _ _ => False) item j mid rest) (hr : rest ≠ []) (hf : first rest.current.kind) :
    ∃ as, Comes close step as ts rest ∧ as.length = j := by
  obtain ⟨as, hcomes, hcount⟩ : ∃ as, Comes close step as ts rest ∧ as.countP (fun _ => true) = j :=
    exists_comes first hclose hne (fun ts rest h => hstart ts rest (h.resolve_left id))
      (fun _ _ _ _ _ h => h.elim) (fun ts mid rest hlen hlines h hr hf =>
        (hitem ts mid rest hlen hlines h hr hf).imp fun a ha => ⟨ha, rfl⟩) hlen hlines h hr hf
  exact ⟨as, hcomes, by simpa using hcount⟩

/-- A repetition whose next round comes to documentation. -/
theorem Comes.leads {Q : Option String → TokenStream → Option α → Prop} {item : TokenStream}
    (h : Comes close step as ts item) (hclose : close ≠ .newline) (hitem : item.current.kind ≠ close)
    (hlen : ts.length < rounds) (hleaves : ∀ ts, Leaves ts (step ts).rest)
    (hstep : ∀ next, Spans rules newlines next item → Leads step next reader mid Q) :
    Leads (repeatWhile rounds (· != close) step) ts reader mid
      fun doc ts found => ∃ a more, found = as.map some ++ a :: more ∧ Q doc ts a := by
  obtain ⟨next, hlinks, hlines, hl⟩ := h
  obtain ⟨g, hg, hrun⟩ := hstep next hlines
  have hgoes : (next.current.kind != close) = true := by
    rcases newline_of_spans_newlines hlines with rfl | ⟨hnl, -⟩
    · simpa using hitem
    · rw [hnl]
      simpa using hclose.symm
  obtain ⟨left, hleft⟩ : ∃ left, rounds - as.length = left + 1 := ⟨rounds - as.length - 1, by omega⟩
  refine ⟨fun doc => g doc >>= fun a => repeatFrom (· != close) step (a :: (as.map some).reverse) left,
    ⟨?_, ?_, ?_⟩, ?_⟩
  · exact fun doc => leaves_bind (hg.leaves doc) fun a _ rest _ => leaves_repeatFrom hleaves _ _ rest
  · intro doc ts found rest hdone
    obtain ⟨a, _, ha, hfrom⟩ := bind_done_iff.1 hdone
    obtain ⟨more, rfl, -⟩ := chain_of_repeatFrom hfrom
    exact ⟨a, more, by simp, hg.done doc ts a _ ha⟩
  · intro doc ts hts
    obtain ⟨cause, hfail⟩ := hg.stuck doc ts hts
    exact ⟨cause, by rw [bind_apply, hfail]⟩
  · rw [repeatWhile, hlinks.repeatFrom (by omega), hleft, repeatFrom_succ hgoes, hrun, bind_apply,
      bind_apply, List.append_nil]
    cases reader mid with
    | failed fault rest => rfl
    | done doc rest => rfl

/-! ## Spots -/

variable {item : Option String → Parse α}

theorem starts_spread : Starts rules spread (· = .ellipsis) := (starts_kind (by rfl)).append

theorem starts_field : Starts rules field (· = .identifier) :=
  (starts_kind (by rfl)).append.append.append

theorem starts_variant : Starts rules Grammar.variant (· = .identifier) := (starts_kind (by rfl)).append

theorem starts_memberLines {e : Ebnf Rule} (h : Starts rules e startsMember) :
    Starts rules (memberLines e) startsMember :=
  (Starts.opt_append (starts_kind (.inl rfl)).append h).append.append

/-- Documentation in a declaration that the parser comes to, behind line breaks. -/
theorem Leads.declaration? {Q : Option String → TokenStream → Declaration → Prop}
    {decls : TokenStream} (h : Leads (declarationDoc >>= declaration rounds) decls reader mid Q)
    (hlines : Spans rules newlines ts decls) (hne : decls ≠ [])
    (hnl : decls.current.kind ≠ .newline) (heof : decls.current.kind ≠ .eof) :
    Leads (Parse.declaration? rounds) ts reader mid
      fun doc ts d => ∃ decl, d = some decl ∧ Q doc ts decl := by
  have hrest : Leads ((declarationDoc >>= declaration rounds) >>= fun decl =>
      skipNewlines >>= fun _ => Pure.pure (some decl)) decls reader mid
      fun doc ts d => ∃ decl, d = some decl ∧ Q doc ts decl := by
    apply h.bind
    · intro decl ts
      refine leaves_bind leaves_skipNewlines (fun _ _ rest _ => ?_) ts
      exact leaves_refl rest
    · intro doc ts decl next d rest hdecl hrun
      obtain ⟨_, _, -, hpure⟩ := bind_done_iff.1 hrun
      obtain ⟨rfl, -⟩ := pure_done_iff.1 hpure
      exact ⟨decl, rfl, hdecl⟩
  apply hrest.of_eq
  rw [Parse.declaration?, bind_of_done (skipNewlines_of_spans hlines hne hnl), sees_bind,
    if_neg (by simpa using heof), bind_apply, bind_apply, bind_apply]
  cases declarationDoc decls <;> rfl

/-- Documentation of a member that the parser comes to, behind line breaks. -/
theorem Leads.member
    (h : Leads (memberDoc >>= item) mid memberDoc mid Q) (hlines : Spans rules newlines ts mid)
    (hne : mid ≠ []) (hnl : mid.current.kind ≠ .newline) (hbrace : mid.current.kind ≠ .rightBrace) :
    Leads (Parse.member item) ts memberDoc mid fun doc ts x => ∃ a, x = some a ∧ Q doc ts a := by
  have hrest : Leads ((memberDoc >>= item) >>= fun a => discard (eat .comma) >>= fun _ =>
      skipNewlines >>= fun _ => Pure.pure (some a)) mid memberDoc mid
      fun doc ts x => ∃ a, x = some a ∧ Q doc ts a := by
    apply h.bind
    · have hcomma : Local (Seam.atEnd .absent [] rfl) Anything Anywhere 0 0 id (eat .comma) (eat .comma) :=
        local_eaten (by decide)
      intro a
      refine leaves_bind hcomma.discard.leaves fun _ _ rest _ => ?_
      refine leaves_bind leaves_skipNewlines (fun _ _ rest _ => ?_) rest
      exact leaves_refl rest
    · intro doc ts a next x rest ha hrun
      obtain ⟨_, _, -, hrun⟩ := discard_bind_done_iff.1 hrun
      obtain ⟨_, _, -, hpure⟩ := bind_done_iff.1 hrun
      obtain ⟨rfl, -⟩ := pure_done_iff.1 hpure
      exact ⟨a, rfl, ha⟩
  apply hrest.of_eq
  rw [Parse.member, bind_of_done (skipNewlines_of_spans hlines hne hnl), sees_bind,
    if_neg (by simpa using hbrace), bind_apply, bind_apply, bind_apply]
  cases memberDoc mid <;> rfl

/-- A body whose next member has documentation or a name that the parser comes to. -/
theorem Comes.body {brace : Token}
    (h : Comes .rightBrace (member item) as ts mid) (hbrace : brace.kind = .leftBrace)
    (hlen : ts.length < rounds) (hts : ts ≠ []) (hmid : mid ≠ [])
    (hk : mid.current.kind = .docComment ∨ mid.current.kind = .identifier)
    (hleaves : ∀ doc ts, Leaves ts (item doc ts).rest)
    (hitem : Leads (memberDoc >>= item) mid memberDoc mid Q) :
    Leads (Parse.body rounds item) (brace :: ts) memberDoc mid
      fun doc ts members => ∃ a more, members = as ++ a :: more ∧ Q doc ts a := by
  have hmembers : Leads (repeatWhile rounds (· != .rightBrace) (Parse.member item)) ts memberDoc mid
      fun doc ts found => ∃ x more, found = as.map some ++ x :: more ∧ ∃ a, x = some a ∧ Q doc ts a := by
    apply h.leads (by decide) (by rcases hk with hk | hk <;> simp [hk]) hlen
    · have hmember : Local (Seam.atEnd .absent [] rfl) Anything _ 0 1 _ (Parse.member item)
          (Parse.member item) := local_member (g := id) rfl fun doc => local_zero (hleaves doc)
      exact hmember.leaves
    · intro next hlines
      exact hitem.member hlines hmid (by rcases hk with hk | hk <;> simp [hk])
        (by rcases hk with hk | hk <;> simp [hk])
  have hopen : discard (consume .leftBrace) (brace :: ts) = .done () ts :=
    map_of_done (consume_cons hbrace hts)
  refine Leads.behind ?_ hopen
  apply hmembers.bind
  · have hclose : Local (Seam.atEnd .absent [] rfl) Anything Anywhere 0 1 _ (consume .rightBrace)
        (consume .rightBrace) := local_word (by decide)
    exact fun members => leaves_bind hclose.discard.leaves fun _ _ rest _ => leaves_refl rest
  · rintro doc ts found next members rest ⟨x, more, rfl, a, rfl, ha⟩ hrun
    obtain ⟨_, _, -, hpure⟩ := discard_bind_done_iff.1 hrun
    obtain ⟨rfl, -⟩ := pure_done_iff.1 hpure
    refine ⟨a, more.reduceOption, ?_, ha⟩
    rw [List.reduceOption_append, List.reduceOption_cons_of_some, List.reduceOption, List.filterMap_map]
    simp

/-- Members of a struct in front of a field, among them `j` fields. -/
theorem exists_comes_fields {j : Nat} (hlen : ts.length < rounds)
    (hlines : Spans rules newlines ts mid)
    (h : Counted (Spans rules (memberLines spread)) (Spans rules (memberLines field)) j mid rest)
    (hr : rest ≠ []) (hf : startsMember rest.current.kind) :
    ∃ as, Comes .rightBrace (Parse.member (Parse.structItem (typeExpr rounds))) as ts rest ∧
      as.countP Sum.isLeft = j := by
  have hspread : ∀ doc, Accepts (Parse.structItem (typeExpr rounds) doc) spread endsMember rounds :=
    fun doc ts rest hlen h => accepts_structItem doc ts rest hlen h.left
  have hfield : ∀ doc, Accepts (Parse.structItem (typeExpr rounds) doc) field endsMember rounds :=
    fun doc ts rest hlen h => accepts_structItem doc ts rest hlen h.right
  have hstartSpread : Starts rules spread startsMember := starts_spread.mono fun _ h => .inr (.inl h)
  have hstartField : Starts rules field startsMember := starts_field.mono fun _ h => .inr (.inr h)
  refine exists_comes startsMember (by decide) (fun k hk => ?_) ?_ ?_ ?_ hlen hlines h hr hf
  · rintro rfl
    simp [startsMember] at hk
  · rintro ts rest (h | h)
    · exact starts_memberLines hstartSpread ts rest h
    · exact starts_memberLines hstartField ts rest h
  · intro ts mid rest hlen hlines h hr hf
    obtain ⟨item, doc, afterDoc, afterItem, hspan, hitem, hrun⟩ := member_of_spans hspread hstartSpread
      (starts_spread.mono fun k hk hd => by simp [hd] at hk) hlen hlines h hr (.inr hf)
    obtain ⟨next, hdots, -⟩ := spans_append_iff.1 hspan
    obtain ⟨t, rfl, ht⟩ := spans_kind_iff.1 hdots
    obtain ⟨type, rfl⟩ := structItem_spread_done ht hitem
    exact ⟨_, hrun, rfl⟩
  · intro ts mid rest hlen hlines h hr hf
    obtain ⟨item, doc, afterDoc, afterItem, hspan, hitem, hrun⟩ := member_of_spans hfield hstartField
      (starts_field.mono fun k hk hd => by simp [hd] at hk) hlen hlines h hr (.inr hf)
    obtain ⟨next, hspan, -⟩ := spans_append_iff.1 hspan
    obtain ⟨next', hspan, -⟩ := spans_append_iff.1 hspan
    obtain ⟨next'', hname, -⟩ := spans_append_iff.1 hspan
    obtain ⟨t, rfl, ht⟩ := spans_kind_iff.1 hname
    obtain ⟨f, rfl, -, -⟩ := structItem_done ht hitem
    exact ⟨_, hrun, rfl⟩

theorem exists_comes_variants {j : Nat} (hlen : ts.length < rounds)
    (hlines : Spans rules newlines ts mid)
    (h : Counted (fun _ _ => False) (Spans rules (memberLines Grammar.variant)) j mid rest)
    (hr : rest ≠ []) (hf : startsMember rest.current.kind) :
    ∃ as, Comes .rightBrace (Parse.member Parse.variant) as ts rest ∧ as.length = j := by
  have hstart : Starts rules Grammar.variant startsMember := starts_variant.mono fun _ h => .inr (.inr h)
  refine exists_comes_items startsMember (by decide) (fun k hk => ?_) (starts_memberLines hstart) ?_ hlen
    hlines h hr hf
  · rintro rfl
    simp [startsMember] at hk
  · intro ts mid rest hlen hlines h hr hf
    obtain ⟨v, _, _, _, -, -, hrun⟩ := member_of_spans accepts_variant hstart
      (starts_variant.mono fun k hk hd => by simp [hd] at hk) hlen hlines h hr (.inr hf)
    exact ⟨v, hrun⟩

theorem Declares.exists_comes {i : Nat} (h : Declares i ts rest) (hlen : ts.length < rounds)
    (hr : rest ≠ []) (hf : rest.current.kind = .docComment ∨ startsDeclaration rest.current.kind) :
    ∃ as, Comes .eof (Parse.declaration? rounds) as ts rest ∧ as.length = i := by
  obtain ⟨mid, hlines, h⟩ := h
  refine exists_comes_items (fun k => k = .docComment ∨ startsDeclaration k) (by decide)
    (fun k hk => ?_) starts_declarationLines (fun ts mid rest hlen hlines h hr hf =>
      declaration?_of_spans (Nat.le_refl rounds) hlen hlines h hr (.inr hf)) hlen hlines h hr hf
  rintro rfl
  simp [startsDeclaration] at hk

/-- A struct or an enumeration that the parser comes to has a member that it comes to, with the values
`as` in front of it. -/
theorem leads_anonymous (make : Position → List α → TypeExpr)
    {k : Token.Kind} {decls last : TokenStream} {S : Option String → TokenStream → Declaration → Prop}
    (hdecl : ∀ doc (ts : TokenStream), ts.current.kind = k → declaration rounds doc ts =
      (Declaration.anonymous <$> (current >>= fun t => discard (consume k) >>= fun _ =>
        Parse.body rounds item >>= fun members => Pure.pure (make t.pos members))) ts)
    (hk : startsDeclaration k) (hlen : decls.length < rounds)
    (hopen : Spans rules (declarationDocs ++ kind k ++ kind .leftBrace ++ newlines) decls last)
    (hmembers : ∀ inner : TokenStream, inner.length < rounds → Spans rules newlines inner last →
      ∃ as, Comes .rightBrace (member item) as inner mid ∧ ∀ doc ts a more pos, Q doc ts a →
        S doc ts (.anonymous (make pos (as ++ a :: more))))
    (hne : mid ≠ []) (hmid : mid.current.kind = .docComment ∨ mid.current.kind = .identifier)
    (hleaves : ∀ doc ts, Leaves ts (item doc ts).rest)
    (hitem : Leads (memberDoc >>= item) mid memberDoc mid Q) :
    (decls.current.kind = .docComment ∨ startsDeclaration decls.current.kind) ∧
      Leads (declarationDoc >>= declaration rounds) decls memberDoc mid S := by
  have hstarts : Starts rules (declarationDocs ++ kind k ++ kind .leftBrace ++ newlines)
      fun k => k = .docComment ∨ startsDeclaration k :=
    (Starts.opt_append (starts_kind (.inl rfl)).append.append (starts_kind (.inr hk))).append.append
  refine ⟨(hstarts decls last hopen).1, ?_⟩
  obtain ⟨inner, h, hlines⟩ := spans_append_iff.1 hopen
  obtain ⟨afterWord, h, hbrace⟩ := spans_append_iff.1 h
  obtain ⟨afterDocs, hdocs, hword⟩ := spans_append_iff.1 h
  obtain ⟨brace, rfl, hbraceKind⟩ := spans_kind_iff.1 hbrace
  obtain ⟨word, rfl, rfl⟩ := spans_kind_iff.1 hword
  have hle := hdocs.length_le
  simp only [List.length_cons] at hle
  have hinner : inner.length < rounds := by omega
  obtain ⟨as, hcomes, hS⟩ := hmembers inner hinner hlines
  have hinnerNe : inner ≠ [] := by
    rintro rfl
    have hle' := hcomes.length_le
    have := List.length_pos_iff.2 hne
    rw [List.length_nil] at hle'
    omega
  have hbody := hcomes.body hbraceKind hinner hinnerNe hne hmid hleaves hitem
  obtain ⟨-, -, doc, hdoc⟩ := declarationDoc_of_spans hdocs (by simp) hk
  refine Leads.behind ?_ hdoc
  have hfirst : discard (consume word.kind) (word :: brace :: inner) = .done () (brace :: inner) :=
    map_of_done (consume_cons rfl (by simp))
  have htype : Leads (current >>= fun t => discard (consume word.kind) >>= fun _ =>
      Parse.body rounds item >>= fun members => Pure.pure (make t.pos members))
      (word :: brace :: inner) memberDoc mid fun doc ts type => S doc ts (.anonymous type) := by
    refine Leads.behind (b := word) ?_ rfl
    refine Leads.behind ?_ hfirst
    apply hbody.pure
    rintro doc ts members ⟨a, more, rfl, ha⟩
    exact hS doc ts a more word.pos ha
  exact (htype.pure fun _ _ _ h => h).of_eq (hdecl doc _ rfl)

theorem Declares.length_le {i : Nat} (h : Declares i ts rest) : rest.length ≤ ts.length := by
  obtain ⟨mid, hlines, h⟩ := h
  apply Nat.le_trans _ hlines.length_le
  clear hlines
  induction h with
  | nil => exact Nat.le_refl _
  | skip h => exact h.elim
  | cons h _ ih => exact Nat.le_trans ih h.length_le

theorem Declares.leads {i : Nat} {member : Option Nat} {decls : TokenStream}
    {names : String → TokenStream → Prop} (h : Declares i ts decls) (hlen : ts.length < rounds)
    (hk : decls.current.kind = .docComment ∨ startsDeclaration decls.current.kind)
    (hdecl : Leads (declarationDoc >>= declaration rounds) decls reader mid
      fun doc ts decl => ∀ name, names name ts → decl.label? member = some ⟨name, doc⟩) :
    Leads (document rounds) ts reader mid
      fun doc ts d => ∀ name, names name ts → d.label? ⟨i, member⟩ = some ⟨name, doc⟩ := by
  have hne : decls ≠ [] := by
    rintro rfl
    rcases hk with hk | hk | hk | hk | hk | hk <;> cases hk
  have hkinds : decls.current.kind ≠ .newline ∧ decls.current.kind ≠ .eof := by
    rcases hk with hk | hk
    · simp [hk]
    · exact ⟨(ne_of_startsDeclaration hk).1, (ne_of_startsDeclaration hk).2.2⟩
  obtain ⟨front, hcomes, rfl⟩ := h.exists_comes hlen hne hk
  have hrounds : Leads (repeatWhile rounds (· != .eof) (Parse.declaration? rounds)) ts reader mid
      fun doc ts found => ∃ x more, found = front.map some ++ x :: more ∧ ∃ decl, x = some decl ∧
        ∀ name, names name ts → decl.label? member = some ⟨name, doc⟩ := by
    apply hcomes.leads (by decide) hkinds.2 hlen
    · exact (local_declaration? (J := Seam.atEnd .absent [] rfl) (I := Anything) (n := 0) rfl trivial (Nat.zero_le _)
        (Nat.zero_le (rounds + 1))).leaves
    · intro next hlines
      exact hdecl.declaration? hlines hne hkinds.1 hkinds.2
  apply hrounds.pure
  rintro doc ts found ⟨_, more, rfl, decl, rfl, hlabel⟩ name hname
  have hdecl : ((front.map some ++ some decl :: more).reduceOption)[front.length]? = some decl := by
    simp [List.reduceOption, List.filterMap_map]
  rw [Document.label?, hdecl]
  exact hlabel name hname

end Grammar

namespace Spot

variable {spot : Spot} {ts mid rest : TokenStream} {rounds : Nat}

/-- A field behind members with `j` fields among them is the one with the number `j`. -/
theorem label?_struct {items more : List (Field TypeExpr ⊕ TypeExpr)} {f : Field TypeExpr}
    (pos : Position) :
    (Declaration.anonymous (.struct pos ((items ++ .inl f :: more).filterMap Sum.getLeft?)
      ((items ++ .inl f :: more).filterMap Sum.getRight?))).label? (some (items.countP Sum.isLeft)) =
      some ⟨f.name, f.doc⟩ := by
  have hlength : items.countP Sum.isLeft = (items.filterMap Sum.getLeft?).length := by
    rw [List.length_filterMap_eq_countP]
    congr 1
    funext item
    cases item <;> rfl
  simp [Declaration.label?, List.filterMap_append, hlength]

theorem label?_enum {variants more : List Variant} {v : Variant} (pos : Position) :
    (Declaration.anonymous (.enum pos (variants ++ v :: more))).label? (some variants.length) =
      some ⟨v.name, v.doc⟩ := by
  simp [Declaration.label?]

/-- **A run comes to its spots.** With the tokens in front of a spot, the parser of documents comes to
the documentation there, and the label that it then reads is the one of the document. -/
theorem Opens.leads (h : spot.Opens ts mid) (hlen : ts.length < rounds) (hne : mid ≠ [])
    (hk : spot.starts mid.current.kind) :
    Leads (document rounds) ts spot.reader mid
      fun doc ts d => ∀ name, spot.Names name ts → d.label? spot = some ⟨name, doc⟩ := by
  cases h with
  | «alias» h => exact h.leads hlen (hk.imp id fun hk => .inr (.inr (.inl hk))) leads_declaration
  | @field i j ts decls last mid h hopen hmembers =>
    refine And.elim (h.leads hlen) (leads_anonymous
      (fun pos members => .struct pos (members.filterMap Sum.getLeft?) (members.filterMap Sum.getRight?))
      (fun doc ts hk => by rw [Parse.declaration, current_bind, hk]; rfl) (.inl rfl)
      (Nat.lt_of_le_of_lt h.length_le hlen) hopen
      (fun inner hinner hlines => ?_) hne hk leaves_structItem leads_structItem)
    obtain ⟨items, hcomes, rfl⟩ := exists_comes_fields hinner hlines hmembers hne (hk.imp id .inr)
    refine ⟨items, hcomes, fun doc ts item more pos hitem name hname => ?_⟩
    obtain ⟨f, rfl, rfl, rfl⟩ := hitem name hname
    exact label?_struct pos
  | @variant i j ts decls last mid h hopen hmembers =>
    refine And.elim (h.leads hlen) (leads_anonymous .enum
      (fun doc ts hk => by rw [Parse.declaration, current_bind, hk]; rfl) (.inr (.inl rfl))
      (Nat.lt_of_le_of_lt h.length_le hlen) hopen
      (fun inner hinner hlines => ?_) hne hk leaves_variant leads_variant)
    obtain ⟨variants, hcomes, rfl⟩ := exists_comes_variants hinner hlines hmembers hne (hk.imp id .inr)
    refine ⟨variants, hcomes, fun doc ts v more pos hv name hname => ?_⟩
    obtain ⟨rfl, rfl⟩ := hv name hname
    exact label?_enum pos

variable {next : TokenStream} {doc : Option String}

/-- The label that is read at a spot is the one of the document. -/
theorem Opens.label?_of_document {name : String} {d : Document} (h : spot.Opens ts mid)
    (hlen : ts.length < rounds) (hne : mid ≠ []) (hk : spot.starts mid.current.kind)
    (hread : spot.reader mid = .done doc next) (hname : spot.Names name next)
    (hrun : document rounds ts = .done d rest) : d.label? spot = some ⟨name, doc⟩ := by
  obtain ⟨g, hg, hdocument⟩ := h.leads hlen hne hk
  rw [hdocument, bind_of_done hread] at hrun
  exact hg.done doc next d rest hrun name hname

/-- Behind the documentation at a spot, only tokens of those that follow are left. -/
theorem Opens.leaves_of_failed {fault : ParseFault} (h : spot.Opens ts mid)
    (hlen : ts.length < rounds) (hne : mid ≠ []) (hk : spot.starts mid.current.kind)
    (hread : spot.reader mid = .done doc next) (hrun : document rounds ts = .failed fault rest) :
    Leaves next rest := by
  obtain ⟨g, hg, hdocument⟩ := h.leads hlen hne hk
  rw [hdocument, bind_of_done hread] at hrun
  have hleaves := hg.leaves doc next
  rwa [hrun] at hleaves

/-- A second comment, on a line behind the first one, is misplaced. -/
theorem Opens.exists_misplaced (h : spot.Opens ts mid) (hlen : ts.length < rounds) (hne : mid ≠ [])
    (hk : spot.starts mid.current.kind) (hread : spot.reader mid = .done doc next)
    (hnext : next.current.kind = .docComment) :
    ∃ cause, document rounds ts = .failed (.misplaced cause next.current) next := by
  obtain ⟨g, hg, hdocument⟩ := h.leads hlen hne hk
  rw [hdocument, bind_of_done hread]
  exact hg.stuck doc next hnext

end Spot

end McdocSchema
