import McdocSchema.Proofs.Concatenation
import McdocSchema.Proofs.Locality

/-!
# Every request to a parser is answered in bounds

A parser can be asked for single tokens and for every form of the language, in any order and whatever the
tokens are. If the tokens end with the end of the text, each request is answered: no repetition goes on
for ever, the position stays inside the list and never goes back, and a form of the language does not go
behind the first end of the text.

At the first end of the text `Parse.Local` says of a parser that it `Settles`: its outcome is the same for
all large numbers of rounds, and it is reached in front of that end.
-/

namespace McdocSchema

namespace TokenStream

/-- The first end of the text splits the stream. -/
theorem Closed.exists_first_eof {ts : TokenStream} (h : Closed ts) :
    ∃ front last more, ts = front ++ last :: more ∧ last.kind = .eof ∧
      ∀ t ∈ front, t.kind ≠ .eof := by
  obtain ⟨before, stop, rfl, hstop⟩ := h
  induction before with
  | nil => exact ⟨[], stop, [], rfl, hstop, by simp⟩
  | cons t before ih =>
    by_cases ht : t.kind = .eof
    · exact ⟨[], t, before ++ [stop], rfl, ht, by simp⟩
    · obtain ⟨front, last, more, hsplit, hlast, hfront⟩ := ih
      refine ⟨t :: front, last, more, ?_, hlast, List.forall_mem_cons.2 ⟨ht, hfront⟩⟩
      rw [List.cons_append, hsplit, List.cons_append]

theorem Closed.drop {tokens : TokenStream} (h : Closed tokens) {pos : Nat} (hpos : pos < tokens.length) :
    Closed (tokens.drop pos) := by
  obtain ⟨front, last, rfl, hlast⟩ := h
  rw [List.length_append, List.length_singleton] at hpos
  refine ⟨front.drop pos, last, ?_, hlast⟩
  rw [List.drop_append, show pos - front.length = 0 by omega, List.drop_zero]

theorem head?_of_ne_nil {ts : TokenStream} (h : ts ≠ []) : ts.head? = some ts.current := by
  cases ts with
  | nil => exact absurd rfl h
  | cons t ts => rfl

end TokenStream

open TokenStream

/-- The outcome is reached in front of `back`, from the tokens `front` of which a value costs at least `d`,
and not because the rounds are used up. -/
def Outcome.IsSettled {α : Type} (front back : List Token) (d : Nat) : Outcome α → Prop
  | .done _ rest => ∃ passed left, front = passed ++ left ∧ rest = left ++ back ∧ d ≤ passed.length
  | .failed fault rest =>
    fault ≠ .endless ∧ ∃ passed left, front = passed ++ left ∧ rest = left ++ back

namespace Parse

variable {α β : Type} {P : Token.Kind → Prop} {d n rounds : Nat}

/-- In front of the first end of the text the parser comes to an outcome that no larger number of rounds
changes, and a value costs at least `d` tokens. -/
def Settles (d : Nat) (p : Nat → Parse α) : Prop :=
  ∀ (front : List Token) (last : Token) (more : List Token),
    (∀ t ∈ front, t.kind ≠ .eof) → last.kind = .eof →
      ∃ outcome : Outcome α,
        (∀ rounds, front.length < rounds → p rounds (front ++ last :: more) = outcome) ∧
          outcome.IsSettled front (last :: more) d

/-! ## Parsers that settle -/

/-- A parser that is local settles. Where its first token has to satisfy `P`, it fails at any
other one. -/
theorem settles_of_local {p : Nat → Parse α} {g : (Position → Position) → α → α}
    (hlocal : ∀ (J : Seam) (n rounds rounds' : Nat), J.Uniform → J.place = id → n ≤ rounds →
      n ≤ rounds' → Local J (· ≠ .endless) P n d (g J.place) (p rounds) (p rounds'))
    (hother : ∀ ts : TokenStream, ¬ P ts.current.kind →
      ∃ cause : ParseCause, ∀ rounds, p rounds ts = fail cause ts) :
    Settles d p := by
  intro front last more hfront hlast
  by_cases hP : P (TokenStream.current (front ++ last :: more)).kind
  · -- The run that is followed: it has the first end of the text as its last token.
    let J := Seam.atEnd last more hlast
    have hsame : (J.before front).current = TokenStream.current (front ++ last :: more) := by
      cases front <;> rfl
    have hfollow : ∀ rounds, front.length < rounds → Tracks J
        (·.IsFound (J.before front) (· ≠ .endless)) front.length d (g id)
        (p (front.length + 1) (J.before front)) (p rounds (front ++ last :: more)) := by
      intro rounds hrounds
      have htracks := (hlocal J (front.length + 1) (front.length + 1) rounds rfl rfl (Nat.le_refl _)
        hrounds).tracks front (Nat.lt_succ_self _) (by rwa [hsame])
      rwa [Seam.across_atEnd hlast] at htracks
    have hleaves := (hlocal J 0 (front.length + 1) 0 rfl rfl (Nat.zero_le _)
      (Nat.le_refl 0)).leaves (J.before front)
    have hne := hleaves.2 (by simp [J, Seam.atEnd])
    obtain hpast | ⟨passed, left, hsplit, hrest⟩ := Seam.exists_of_suffix hleaves.1
    · exact absurd (List.length_eq_zero_iff.1 (Nat.lt_one_iff.1 hpast)) hne
    · cases hrun : p (front.length + 1) (J.before front) with
      | done a rest =>
        rw [hrun] at hfollow hrest
        obtain rfl : rest = J.before left := hrest
        refine ⟨.done (g id a) (J.across left), fun rounds hr => (hfollow rounds hr).of_done.1, passed, left,
          hsplit, Seam.across_atEnd hlast left, ?_⟩
        have hcost := (hfollow (front.length + 1) (Nat.lt_succ_self _)).of_done.2
        rw [hsplit, List.length_append] at hcost
        omega
      | failed fault rest =>
        rw [hrun] at hfollow hrest
        obtain rfl : rest = J.before left := hrest
        have hfails := fun rounds hr => (hfollow rounds hr).of_failed (J := J) rfl
        refine ⟨.failed (fault.relocate J.place) (J.across left),
          fun rounds hr => (hfails rounds hr).1, ?_, passed, left, hsplit,
          Seam.across_atEnd hlast left⟩
        show fault.relocate id ≠ .endless
        rw [ParseFault.relocate_id]
        rintro rfl
        obtain hne | ⟨_, -, hfalse⟩ := (hfails (front.length + 1) (Nat.lt_succ_self _)).2
        · exact hne rfl
        · exact hfalse
  · obtain ⟨cause, hfails⟩ := hother _ hP
    refine ⟨_, fun rounds _ => hfails rounds, ?_, [], front, rfl, rfl⟩
    intro h
    cases h

theorem settles_of_anywhere {p : Nat → Parse α} {g : (Position → Position) → α → α}
    (hlocal : ∀ (J : Seam) (n rounds rounds' : Nat), J.Uniform → J.place = id → n ≤ rounds →
      n ≤ rounds' → Local J (· ≠ .endless) Anywhere n d (g J.place) (p rounds) (p rounds')) :
    Settles d p :=
  settles_of_local hlocal fun _ h => absurd trivial h

theorem Settles.map {p : Nat → Parse α} (f : α → β) (h : Settles d p) :
    Settles d fun rounds => f <$> p rounds := by
  intro front last more hfront hlast
  obtain ⟨outcome, hruns, hsettled⟩ := h front last more hfront hlast
  cases outcome with
  | done a rest => exact ⟨.done (f a) rest, fun rounds hr => map_of_done (hruns rounds hr), hsettled⟩
  | failed fault rest =>
    refine ⟨.failed fault rest, ?_, hsettled⟩
    intro rounds hr
    show (p rounds >>= fun a => pure (f a)) _ = _
    rw [bind_apply, hruns rounds hr]

theorem settles_of_stays {p : Parse α}
    (h : ∀ ts, (∃ a, p ts = .done a ts) ∨ ∃ cause, p ts = fail cause ts) : Settles 0 fun _ => p := by
  intro front last more _ _
  refine ⟨p (front ++ last :: more), fun _ _ => rfl, ?_⟩
  obtain ⟨a, hrun⟩ | ⟨cause, hrun⟩ := h (front ++ last :: more)
  · rw [hrun]
    exact ⟨[], front, rfl, rfl, Nat.zero_le _⟩
  · rw [hrun]
    refine ⟨?_, [], front, rfl, rfl⟩
    intro h
    cases h

/-! ## The parsers of the language -/

/-- A form that starts with a word of its own fails at any other token. -/
theorem keyword_of_ne {k : Token.Kind} {f : Token → Parse β} {ts : TokenStream}
    (h : ts.current.kind ≠ k) :
    (current >>= fun t => discard (consume k) >>= fun _ => f t) ts =
      fail (.expected k ts.current.kind) ts := by
  have hconsume : consume k ts = fail (.expected k ts.current.kind) ts := by
    simp [consume, consumeOr, h, fail]
  show (discard (consume k) >>= fun _ => f ts.current) ts = _
  have hdiscard : (discard (consume k) : Parse Unit) ts = fail (.expected k ts.current.kind) ts := by
    show (consume k >>= fun _ => pure ()) ts = _
    rw [bind_apply, hconsume]
    rfl
  rw [bind_apply, hdiscard]
  rfl

theorem path_of_ne {ts : TokenStream} (h : ts.current.kind ≠ .identifier) :
    path rounds ts = fail (.expected .identifier ts.current.kind) ts := by
  unfold path
  rw [bind_apply]
  simp [consume, consumeOr, h, fail]

theorem settles_skipNewlines : Settles 0 fun _ => skipNewlines :=
  settles_of_anywhere (g := fun _ => id) fun _ _ _ _ hJ _ _ _ => local_skipNewlines hJ

theorem settles_numberRange : Settles 0 fun _ => numberRange :=
  settles_of_anywhere (g := fun _ => id) fun _ _ _ _ _ _ _ _ => local_numberRange

theorem settles_path : Settles 1 path := by
  apply settles_of_anywhere (g := fun _ => id)
  exact fun J n _ _ _ _ hr hr' => local_path (by omega) (by omega)

/-- Indices behind any base. One without a position gives no type, and this is found at once. -/
theorem settles_indexedType (base : TypeExpr) : Settles 0 fun rounds => indexedType rounds base := by
  apply settles_of_anywhere (g := TypeExpr.relocate)
  intro J n rounds rounds' _ hplace hr hr'
  have hlocal : Local J (· ≠ .endless) Anywhere n 0 (TypeExpr.relocate J.place) (indexedType rounds base)
      (indexedType rounds' (base.relocate J.place)) :=
    local_indexedType (fun _ => by simp) hr hr'
  have hbase : base.relocate J.place = base := by rw [hplace, TypeExpr.relocate_id]
  rwa [hbase] at hlocal

theorem local_inner {J : Seam} {rounds' : Nat} (hr : n ≤ rounds) (hr' : n ≤ rounds') :
    Local J (· ≠ .endless) Anywhere (n - 1) 1 (TypeExpr.relocate J.place) (typeExpr rounds)
      (typeExpr rounds') :=
  local_typeExpr (by omega) (by omega)

theorem settles_typeExpr : Settles 1 typeExpr :=
  settles_of_anywhere (g := TypeExpr.relocate) fun _ _ _ _ _ _ hr hr' => local_typeExpr hr hr'

theorem settles_unionType : Settles 1 fun rounds => unionType rounds (typeExpr rounds) := by
  apply settles_of_anywhere (g := TypeExpr.relocate)
  exact fun J n rounds _ _ _ hr hr' =>
    local_unionType hr hr' (positioned_typeExpr rounds) (local_inner hr hr')

theorem settles_primaryType : Settles 1 fun rounds => primaryType rounds (typeExpr rounds) := by
  apply settles_of_anywhere (g := TypeExpr.relocate)
  exact fun J n rounds _ _ _ hr hr' =>
    local_primaryType (by omega) (by omega) (positioned_typeExpr rounds) (local_inner hr hr')

theorem settles_parenthesizedType :
    Settles 1 fun rounds => parenthesizedType rounds (typeExpr rounds) := by
  apply settles_of_anywhere (g := TypeExpr.relocate)
  exact fun J n rounds _ _ _ hr hr' =>
    local_parenthesizedType (by omega) (by omega) (positioned_typeExpr rounds) (local_inner hr hr')

theorem settles_listType : Settles 1 fun rounds => listType (typeExpr rounds) := by
  apply settles_of_local (P := (· = .leftBracket)) (g := TypeExpr.relocate)
  · exact fun J n _ _ _ _ hr hr' => local_listType (local_inner hr hr')
  · exact fun ts h => ⟨_, fun _ => keyword_of_ne h⟩

theorem settles_referenceType : Settles 1 fun rounds => referenceType rounds (typeExpr rounds) := by
  apply settles_of_local (P := (· = .identifier)) (g := TypeExpr.relocate)
  · exact fun J n _ _ _ _ hr hr' => local_referenceType (by omega) (by omega) (local_inner hr hr')
  · intro ts h
    refine ⟨.expected .identifier ts.current.kind, fun rounds => ?_⟩
    rw [referenceType, current_bind, bind_apply, path_of_ne h]
    rfl

theorem settles_structType : Settles 1 structType := by
  apply settles_of_local (P := (· = .struct)) (g := TypeExpr.relocate)
  · exact fun J n _ _ _ _ hr hr' => local_structType (by omega) (by omega)
  · exact fun ts h => ⟨_, fun _ => keyword_of_ne h⟩

theorem settles_enumType : Settles 1 enumType := by
  apply settles_of_local (P := (· = .enum)) (g := TypeExpr.relocate)
  · exact fun J n _ _ _ _ hr hr' => local_enumType (by omega) (by omega)
  · exact fun ts h => ⟨_, fun _ => keyword_of_ne h⟩

theorem settles_typeAlias : Settles 1 typeAlias := by
  apply settles_of_local (P := (· = .type)) (g := Alias.relocate)
  · exact fun J n _ _ _ _ hr hr' => local_typeAlias (by omega) (by omega)
  · exact fun ts h => ⟨_, fun _ => keyword_of_ne h⟩

theorem settles_useStatement : Settles 1 useStatement := by
  apply settles_of_anywhere (g := Declaration.relocate)
  exact fun J n _ _ _ _ hr hr' => local_useStatement (by decide) (by omega) (by omega)

theorem settles_dispatchStatement : Settles 1 dispatchStatement := by
  apply settles_of_local (P := (· = .dispatch)) (g := Declaration.relocate)
  · exact fun J n _ _ _ _ hr hr' => local_dispatchStatement (by omega) (by omega)
  · exact fun ts h => ⟨_, fun _ => keyword_of_ne h⟩

theorem settles_document : Settles 0 document :=
  settles_of_anywhere (g := Document.relocate)
    fun _ _ _ _ hJ _ hr hr' => local_document hJ (by decide) hr hr'

/-! ## Requests -/

/-- What a parser can be asked for. -/
inductive Request
  | advance
  | peek (distance : Int)
  | sees (kinds : List Token.Kind)
  | consume (kind : Token.Kind) (message : Option String)
  | skipNewlines
  | report (message : String)
  | document
  | structType
  | enumType
  | typeAlias
  | useStatement
  | dispatchStatement
  | typeExpr
  | unionType
  | primaryType
  | listType
  | parenthesizedType
  | referenceType
  | indexedType (base : TypeExpr)
  | numberRange
  | path

/-- What a parser gives. -/
inductive Reply
  | nothing
  | token (token : Token)
  | peeked (token : Option Token)
  | flag (flag : Bool)
  | text (text : String)
  | range (range : NumberRange)
  | type (type : TypeExpr)
  | alias (decl : Alias)
  | declaration (decl : Declaration)
  | document (doc : Document)

/-- The parser of a request. `tokens` is the whole list, which only `peek` looks at. -/
def answer (tokens : List Token) (rounds : Nat) : Request → Parse Reply
  | .advance => Reply.token <$> (advance >>= fun _ => current)
  | .peek distance => fun ts => .done (.peeked (ts.peek? tokens distance)) ts
  | .sees kinds => fun ts => .done (.flag (kinds.contains ts.current.kind)) ts
  | .consume kind none => Reply.token <$> consume kind
  | .consume kind (some message) => Reply.token <$> consumeOr kind fun _ => .reported message
  | .skipNewlines => (fun _ => Reply.nothing) <$> skipNewlines
  | .report message => fail (.reported message)
  | .document => Reply.document <$> document rounds
  | .structType => Reply.type <$> structType rounds
  | .enumType => Reply.type <$> enumType rounds
  | .typeAlias => Reply.alias <$> typeAlias rounds
  | .useStatement => Reply.declaration <$> useStatement rounds
  | .dispatchStatement => Reply.declaration <$> dispatchStatement rounds
  | .typeExpr => Reply.type <$> typeExpr rounds
  | .unionType => Reply.type <$> unionType rounds (typeExpr rounds)
  | .primaryType => Reply.type <$> primaryType rounds (typeExpr rounds)
  | .listType => Reply.type <$> listType (typeExpr rounds)
  | .parenthesizedType => Reply.type <$> parenthesizedType rounds (typeExpr rounds)
  | .referenceType => Reply.type <$> referenceType rounds (typeExpr rounds)
  | .indexedType base => Reply.type <$> indexedType rounds base
  | .numberRange => Reply.range <$> numberRange
  | .path => Reply.text <$> path rounds

namespace Request

/-- The request is not for a single token, which may be an end of the text. -/
def stopsAtEnd : Request → Bool
  | .advance | .consume _ _ => false
  | _ => true

/-- The request is for a form of the language that has a token at least. -/
def takesToken : Request → Bool
  | .structType | .enumType | .typeAlias | .useStatement | .dispatchStatement | .typeExpr | .unionType
  | .primaryType | .listType | .parenthesizedType | .referenceType | .path => true
  | _ => false

theorem stopsAtEnd_of_takesToken {request : Request} (h : request.takesToken = true) :
    request.stopsAtEnd = true := by
  cases request with
  | advance | consume => cases h
  | _ => rfl

end Request

/-- Asked for `request` at the position `pos` of the tokens, the parser comes to `outcome` and to the
position `next`. -/
structure Answers (tokens : List Token) (request : Request) (pos : Nat) (outcome : Outcome Reply)
    (next : Nat) : Prop where
  settled : ∀ rounds, tokens.length - pos < rounds →
    answer tokens rounds request (tokens.drop pos) = outcome
  not_endless : ∀ rest, outcome ≠ .failed .endless rest
  rest_eq : outcome.rest = tokens.drop next
  current_eq : tokens[next]? = some outcome.rest.current
  le_next : pos ≤ next
  next_lt : next < tokens.length
  stops : request.stopsAtEnd = true →
    ∀ i t, pos ≤ i → i < next → tokens[i]? = some t → t.kind ≠ .eof
  takes : request.takesToken = true → ∀ reply rest, outcome = .done reply rest → pos < next

theorem settles_answer (tokens : List Token) {request : Request} (h : request.stopsAtEnd = true) :
    Settles (if request.takesToken then 1 else 0) (answer tokens · request) := by
  cases request with
  | advance | consume => cases h
  | peek | sees => exact settles_of_stays fun ts => .inl ⟨_, rfl⟩
  | report => exact settles_of_stays fun ts => .inr ⟨_, rfl⟩
  | skipNewlines => exact settles_skipNewlines.map _
  | document => exact settles_document.map _
  | structType => exact settles_structType.map _
  | enumType => exact settles_enumType.map _
  | typeAlias => exact settles_typeAlias.map _
  | useStatement => exact settles_useStatement.map _
  | dispatchStatement => exact settles_dispatchStatement.map _
  | typeExpr => exact settles_typeExpr.map _
  | unionType => exact settles_unionType.map _
  | primaryType => exact settles_primaryType.map _
  | listType => exact settles_listType.map _
  | parenthesizedType => exact settles_parenthesizedType.map _
  | referenceType => exact settles_referenceType.map _
  | indexedType base => exact (settles_indexedType base).map _
  | numberRange => exact settles_numberRange.map _
  | path => exact settles_path.map _

theorem exists_answer_single (tokens : List Token) {request : Request}
    (h : request.stopsAtEnd = false) (ts : TokenStream) :
    ∃ outcome, (∀ rounds, answer tokens rounds request ts = outcome) ∧
      (∀ rest, outcome ≠ .failed .endless rest) ∧ Leaves ts outcome.rest := by
  have hconsume : ∀ (k : Token.Kind) (cause : Token.Kind → ParseCause),
      ∃ outcome, (Reply.token <$> consumeOr k cause) ts = outcome ∧
        (∀ rest, outcome ≠ .failed .endless rest) ∧ Leaves ts outcome.rest := by
    intro k cause
    refine ⟨_, rfl, ?_, ?_⟩
    · intro rest
      show (consumeOr k cause >>= fun t => pure (Reply.token t)) ts ≠ _
      rw [bind_apply]
      by_cases hk : ts.current.kind = k <;> simp [consumeOr, hk]
    · rw [map_rest, consumeOr]
      split
      · exact leaves_behind ts
      · exact leaves_refl ts
  cases request with
  | advance =>
    refine ⟨.done (.token ts.behind.current) ts.behind, fun _ => rfl, ?_, leaves_behind ts⟩
    intro rest h
    cases h
  | consume kind message =>
    cases message with
    | none =>
      obtain ⟨outcome, hrun, hrest⟩ := hconsume kind (.expected kind)
      exact ⟨outcome, fun _ => hrun, hrest⟩
    | some message =>
      obtain ⟨outcome, hrun, hrest⟩ := hconsume kind fun _ => .reported message
      exact ⟨outcome, fun _ => hrun, hrest⟩
  | _ => cases h

/-! ## Positions -/

section

variable {tokens : List Token} {pos : Nat} {passed rest : List Token}

/-- Behind the tokens that are passed the parser stands at a position of the list. -/
theorem drop_of_passed (h : tokens.drop pos = passed ++ rest) (hne : rest ≠ []) :
    rest = tokens.drop (pos + passed.length) ∧
      tokens[pos + passed.length]? = some (TokenStream.current rest) ∧
        pos + passed.length < tokens.length := by
  have hrest : rest = tokens.drop (pos + passed.length) := by
    rw [← List.drop_drop, h, List.drop_left]
  have hhead : tokens[pos + passed.length]? = some (TokenStream.current rest) := by
    rw [← List.head?_drop, ← hrest]
    exact head?_of_ne_nil hne
  exact ⟨hrest, hhead, (List.getElem?_eq_some_iff.1 hhead).1⟩

theorem mem_passed (h : tokens.drop pos = passed ++ rest) {i : Nat} {t : Token} (hle : pos ≤ i)
    (hlt : i < pos + passed.length) (ht : tokens[i]? = some t) : t ∈ passed := by
  have hi : (passed ++ rest)[i - pos]? = some t := by
    rw [← h, List.getElem?_drop, show pos + (i - pos) = i by omega, ht]
  rw [List.getElem?_append_left (by omega)] at hi
  exact List.mem_of_getElem? hi

end

/-- Every request is answered in bounds. -/
theorem exists_answers {tokens : List Token} (hend : TokenStream.Closed tokens) {pos : Nat}
    (hpos : pos < tokens.length) (request : Request) :
    ∃ outcome next, Answers tokens request pos outcome next := by
  cases hstops : request.stopsAtEnd with
  | false =>
    obtain ⟨outcome, hruns, hfault, hsuffix, hne⟩ :=
      exists_answer_single tokens hstops (tokens.drop pos)
    obtain ⟨passed, hpassed⟩ := hsuffix
    obtain ⟨hrest, hcurrent, hlt⟩ := drop_of_passed hpassed.symm (hne (hend.drop hpos).ne_nil)
    refine ⟨outcome, _, fun rounds _ => hruns rounds, hfault, hrest, hcurrent, Nat.le_add_right _ _,
      hlt, ?_, ?_⟩
    · intro h
      rw [hstops] at h
      cases h
    · intro htakes
      rw [Request.stopsAtEnd_of_takesToken htakes] at hstops
      cases hstops
  | true =>
    obtain ⟨front, last, more, hts, hlast, hfront⟩ := (hend.drop hpos).exists_first_eof
    obtain ⟨outcome, hruns, hsettled⟩ := settles_answer tokens hstops front last more hfront hlast
    have hlen : front.length < tokens.length - pos := by
      have hlength := congrArg List.length hts
      rw [List.length_drop, List.length_append, List.length_cons] at hlength
      omega
    -- Where the parser comes to is the same for a value and for a fault.
    have hreached : ∃ passed left, front = passed ++ left ∧ outcome.rest = left ++ last :: more ∧
        (request.takesToken = true → ∀ reply rest, outcome = .done reply rest → 0 < passed.length) := by
      cases outcome with
      | done reply rest =>
        obtain ⟨passed, left, hsplit, hrest, hcost⟩ := hsettled
        refine ⟨passed, left, hsplit, hrest, fun htakes _ _ _ => ?_⟩
        rwa [htakes] at hcost
      | failed fault rest =>
        obtain ⟨-, passed, left, hsplit, hrest⟩ := hsettled
        refine ⟨passed, left, hsplit, hrest, ?_⟩
        intro _ reply rest' h
        cases h
    obtain ⟨passed, left, rfl, hleft, htakes⟩ := hreached
    rw [List.append_assoc, ← hleft] at hts
    obtain ⟨hrest, hcurrent, hlt⟩ := drop_of_passed hts (by rw [hleft]; simp)
    refine ⟨outcome, _, ?_, ?_, hrest, hcurrent, Nat.le_add_right _ _, hlt, ?_, ?_⟩
    · intro rounds hrounds
      rw [hts, hleft, ← List.append_assoc]
      exact hruns rounds (by omega)
    · rintro rest rfl
      exact hsettled.1 rfl
    · intro _ i t hle hlt ht
      exact hfront t (List.mem_append_left left (mem_passed hts hle hlt ht))
    · intro h reply rest hdone
      have hcost := htakes h reply rest hdone
      omega

/-! ## Texts -/

section

variable {text : String} {tokens : List Token}

/-- The tokens of a text are a document or have a fault, for all large numbers of rounds. -/
theorem exists_document_of_scan (hscan : Token.scan text = .ok tokens) :
    ∃ outcome : Outcome Document, (∀ rounds, tokens.length < rounds →
      document rounds tokens = outcome) ∧ ∀ rest, outcome ≠ .failed .endless rest := by
  obtain ⟨front, last, more, rfl, hlast, hfront⟩ := (Token.scan_ended hscan).closed.exists_first_eof
  obtain ⟨outcome, hruns, hsettled⟩ := settles_document front last more hfront hlast
  refine ⟨outcome, fun rounds hr => hruns rounds ?_, ?_⟩
  · rw [List.length_append] at hr
    omega
  · rintro rest rfl
    exact hsettled.1 rfl

theorem ofTokens_of_scan (hscan : Token.scan text = .ok tokens) {rounds : Nat}
    (hr : tokens.length < rounds) : (document rounds tokens).toExcept = Document.ofTokens tokens := by
  obtain ⟨outcome, hruns, -⟩ := exists_document_of_scan hscan
  show _ = (document (roundsFor tokens) tokens).toExcept
  rw [hruns rounds hr, hruns (roundsFor tokens) (Nat.lt_succ_self _)]

theorem ofTokens_ne_endless (hscan : Token.scan text = .ok tokens) :
    Document.ofTokens tokens ≠ .error .endless := by
  obtain ⟨outcome, hruns, hfault⟩ := exists_document_of_scan hscan
  rw [← ofTokens_of_scan hscan (Nat.lt_succ_self _), hruns _ (Nat.lt_succ_self _)]
  cases outcome with
  | done doc rest => simp [Outcome.toExcept]
  | failed fault rest =>
    intro h
    cases h
    exact hfault rest rfl

theorem ofString_ne_endless (text : String) : Document.ofString text ≠ .error (.parse .endless) := by
  intro h
  cases hscan : Token.scan text with
  | error fault => simp [Document.ofString, hscan] at h
  | ok tokens =>
    cases hdoc : Document.ofTokens tokens with
    | error fault =>
      rw [Document.ofString, hscan] at h
      simp only [hdoc, Except.error.injEq, DocumentFault.parse.injEq] at h
      exact ofTokens_ne_endless hscan (by rw [hdoc, h])
    | ok doc => simp [Document.ofString, hscan, hdoc] at h

end

/-- Every request at every position of a list that ends with the end of the text is answered in bounds.
In particular every text is parsed to an end: scanning it gives a fault or such a list, and the list is a
document or has a fault, whatever the number of rounds. -/
theorem requests_answered :
    (∀ (tokens : List Token) (pos : Nat) (request : Request), TokenStream.Closed tokens →
      pos < tokens.length → ∃ outcome next, Answers tokens request pos outcome next) ∧
    ∀ text : String, Document.ofString text ≠ .error (.parse .endless) ∧
      ∀ tokens, Token.scan text = .ok tokens → TokenStream.Closed tokens ∧
        ∀ rounds, tokens.length < rounds →
          (document rounds tokens).toExcept = Document.ofTokens tokens := by
  refine ⟨fun tokens pos request hend hpos => exists_answers hend hpos request, fun text => ?_⟩
  refine ⟨ofString_ne_endless text, fun tokens hscan => ?_⟩
  exact ⟨(Token.scan_ended hscan).closed, fun rounds hr => ofTokens_of_scan hscan hr⟩

/-- A path in front of an end of the text that more tokens follow: the parser comes to that end. -/
theorem requests_answered_inner_eof :
    let tokens : List Token := [⟨.identifier, "a", ⟨1, 1⟩⟩, .eofAt ⟨1, 2⟩, ⟨.identifier, "b", ⟨1, 3⟩⟩,
      .eofAt ⟨1, 4⟩]
    TokenStream.Closed tokens ∧ 0 < tokens.length ∧
      ∃ outcome next, Answers tokens .path 0 outcome next ∧ next = 1 := by
  intro tokens
  have hclosed : TokenStream.Closed tokens :=
    ⟨[⟨.identifier, "a", ⟨1, 1⟩⟩, .eofAt ⟨1, 2⟩, ⟨.identifier, "b", ⟨1, 3⟩⟩], .eofAt ⟨1, 4⟩, rfl, rfl⟩
  refine ⟨hclosed, by decide, ?_⟩
  obtain ⟨outcome, next, h⟩ := requests_answered.1 tokens 0 .path hclosed (by decide)
  refine ⟨outcome, next, h, ?_⟩
  have hrun : outcome = .done (.text "a") (tokens.drop 1) := (h.settled 5 (by decide)).symm
  have hlow := h.takes rfl _ _ hrun
  have hhigh : ¬ 1 < next := fun hlt => h.stops rfl 1 (.eofAt ⟨1, 2⟩) (by decide) hlt rfl rfl
  omega

end Parse

end McdocSchema
