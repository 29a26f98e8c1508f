import McdocSchema.Proofs.Runs

/-!
# Run rules for types

One rule for each way in which the parser of a form of type succeeds. A rule names the tokens that the
parser passes itself and takes the runs of the parsers that it calls. There is no other way: a run that
succeeds is taken apart into the runs of a rule.
-/

namespace McdocSchema.Parse

open TokenStream
open Number (Binary64)

variable {inner : Parse TypeExpr} {rounds : Nat} {t u : Token} {ts mid rest : TokenStream}

/-! ## Ranges -/

theorem bound_cons {x : Binary64} (hx : Number.readReal t.value = .ok x) (hr : rest ≠ []) :
    bound (t :: rest) = .done x rest := by
  rw [bound, current_bind, current_cons, hx]
  show (advance >>= fun _ => pure x) (t :: rest) = _
  rw [advance_bind, behind_cons hr, pure_apply]

theorem bound?_of_not_isNumber (h : ts.current.kind.isNumber = false) :
    bound? ts = .done none ts := by
  rw [bound?, current_bind, h]
  rfl

theorem bound?_cons {x : Binary64} (hk : t.kind.isNumber = true)
    (hx : Number.readReal t.value = .ok x) (hr : rest ≠ []) :
    bound? (t :: rest) = .done (some x) rest := by
  rw [bound?, current_bind, current_cons, if_pos hk]
  exact map_of_done (bound_cons hx hr)

theorem numberRange_min {x : Binary64} (hk : t.kind.isNumber = true)
    (hx : Number.readReal t.value = .ok x) (hr : rest ≠ []) (h₁ : rest.current.kind ≠ .range)
    (h₂ : rest.current.kind ≠ .rangeExclusive) :
    numberRange (t :: rest) = .done ⟨some x, none, false, false⟩ rest := by
  rw [numberRange, current_bind, current_cons, if_pos hk, bind_of_done (bound_cons hx hr),
    eat_bind_of_ne h₁, if_neg (by simp), eat_bind_of_ne h₂]
  rfl

theorem numberRange_min_max {x : Binary64} {y : Option Binary64} (hk : t.kind.isNumber = true)
    (hx : Number.readReal t.value = .ok x) (hu : u.kind = .range ∨ u.kind = .rangeExclusive)
    (hne : mid ≠ []) (hy : bound? mid = .done y rest) :
    numberRange (t :: u :: mid) = .done ⟨some x, y, false, u.kind == .rangeExclusive⟩ rest := by
  have hb : bound (t :: u :: mid) = .done x (u :: mid) := bound_cons hx (by simp)
  rw [numberRange, current_bind, current_cons, if_pos hk, bind_of_done hb]
  rcases hu with hu | hu
  · rw [eat_bind_of_eq (by rw [current_cons, hu]), if_pos rfl, behind_cons hne, bind_of_done hy, hu]
    rfl
  · rw [eat_bind_of_ne (by rw [current_cons, hu]; decide), if_neg (by simp),
      eat_bind_of_eq (by rw [current_cons, hu]), if_pos rfl, behind_cons hne, bind_of_done hy, hu]
    rfl

theorem numberRange_max {y : Option Binary64}
    (hu : u.kind = .exclusiveRange ∨ u.kind = .exclusiveRangeExclusive) (hne : mid ≠ [])
    (hy : bound? mid = .done y rest) :
    numberRange (u :: mid) =
      .done ⟨none, y, true, u.kind == .exclusiveRangeExclusive⟩ rest := by
  rw [numberRange, current_bind, current_cons]
  rcases hu with hu | hu
  · rw [hu, if_neg (by decide), eat_bind_of_eq (by rw [current_cons, hu]), if_pos rfl,
      behind_cons hne, bind_of_done hy]
    rfl
  · rw [hu, if_neg (by decide), eat_bind_of_ne (by rw [current_cons, hu]; decide),
      if_neg (by simp), eat_bind_of_eq (by rw [current_cons, hu]), if_pos rfl, behind_cons hne,
      bind_of_done hy]
    rfl

theorem numberRange_none (hk : ts.current.kind.isNumber = false)
    (h₁ : ts.current.kind ≠ .exclusiveRange) (h₂ : ts.current.kind ≠ .exclusiveRangeExclusive) :
    numberRange ts = .done {} ts := by
  rw [numberRange, current_bind, if_neg (by simp [hk]), eat_bind_of_ne h₁, if_neg (by simp),
    eat_bind_of_ne h₂]
  rfl

theorem range?_of_ne (h : ts.current.kind ≠ .atSign) : range? ts = .done none ts := by
  rw [range?, eat_bind_of_ne h]
  rfl

theorem range?_cons {r : NumberRange} (hk : t.kind = .atSign) (hne : ts ≠ [])
    (h : numberRange ts = .done r rest) : range? (t :: ts) = .done (some r) rest := by
  rw [range?, eat_bind_of_eq (by rw [current_cons, hk]), if_pos rfl, behind_cons hne]
  exact map_of_done h

/-! ## Paths and indices -/

/-- A double colon and a name. -/
def pathStep : Parse String := do
  advance
  let t ← consume .identifier
  pure t.value

theorem pathStep_cons (hu : u.kind = .identifier) (hr : rest ≠ []) :
    pathStep (t :: u :: rest) = .done u.value rest := by
  rw [pathStep, advance_bind, behind_cons (by simp), bind_of_done (consume_cons hu hr), pure_apply]

theorem path_cons {names : List String} (hk : t.kind = .identifier) (hne : ts ≠ [])
    (hc : Chain (· == .doubleColon) pathStep ts names rest) (hr : names.length ≤ rounds) :
    path rounds (t :: ts) = .done ("::".intercalate (t.value :: names)) rest := by
  rw [path, bind_of_done (consume_cons hk hne)]
  exact bind_of_done (hc.repeatWhile hr)

theorem index_cons {v : Token} (hu : u.kind = .identifier ∨ u.kind.isSpecialKey = true)
    (hv : v.kind = .rightBracket) (hr : rest ≠ []) :
    index (t :: u :: v :: rest) = .done (.key u.value) rest := by
  have hk : (u.kind == .identifier || u.kind.isSpecialKey) = true := by
    rcases hu with hu | hu <;> simp [hu]
  rw [index, advance_bind, behind_cons (by simp), current_bind, current_cons, if_pos hk,
    advance_bind, behind_cons (by simp), discard_bind_of_done (consume_cons hv hr), pure_apply]

theorem indexedType_of_chain {base : TypeExpr} {pos : Position} {indices : List Index}
    (hp : base.pos? = some pos) (hc : Chain (· == .leftBracket) index ts indices rest)
    (hr : indices.length ≤ rounds) :
    indexedType rounds base ts = .done (.indexed pos base indices) rest := by
  rw [indexedType, bind_of_done (hc.repeatWhile hr), hp]
  rfl

/-! ## Lists of items between commas -/

variable {close : Token.Kind} {cause : ParseCause}

/-- An item of a list and the comma behind it, unless `close` ends the list. -/
def listStep {α β : Type} (close : Token.Kind) (cause : ParseCause) (item : Parse α) (f : α → β) :
    Parse β := do
  let a ← item
  separator close cause
  pure (f a)

theorem separator_comma (hk : t.kind = .comma)
    (hr : rest ≠ []) : separator close cause (t :: rest) = .done () rest := by
  rw [separator, eat_bind_of_eq (by rw [current_cons, hk]), if_pos rfl, behind_cons hr, pure_apply]

theorem separator_close (hk : ts.current.kind = close)
    (hne : close ≠ .comma) : separator close cause ts = .done () ts := by
  rw [separator, eat_bind_of_ne (by rwa [hk]), if_neg (by simp), sees_bind, hk, beq_self_eq_true,
    if_pos rfl, pure_apply]

theorem listStep_comma {α β : Type} {item : Parse α}
    {f : α → β} {a : α} (ha : item ts = .done a (t :: rest)) (hk : t.kind = .comma)
    (hr : rest ≠ []) : listStep close cause item f ts = .done (f a) rest := by
  rw [listStep, bind_of_done ha, bind_of_done (separator_comma hk hr), pure_apply]

theorem listStep_close {α β : Type} {item : Parse α}
    {f : α → β} {a : α} (ha : item ts = .done a rest) (hk : rest.current.kind = close)
    (hne : close ≠ .comma) : listStep close cause item f ts = .done (f a) rest := by
  rw [listStep, bind_of_done ha, bind_of_done (separator_close hk hne), pure_apply]

/-- Items with commas between them, between an opening and a closing token, if there are any. -/
def bracketed {α β : Type} (rounds : Nat) (opening close : Token.Kind) (cause : ParseCause)
    (item : Parse α) (f : α → β) : Parse (List β) := do
  if ← eat opening then
    let items ← repeatWhile rounds (· != close) (listStep close cause item f)
    discard (consume close)
    pure items
  else pure []

theorem typeArguments_eq_bracketed :
    typeArguments rounds inner = bracketed rounds .leftAngle .rightAngle .argumentEnd inner id := rfl

theorem bracketed_of_ne {α β : Type} {opening close : Token.Kind}
    {item : Parse α} {f : α → β} (h : ts.current.kind ≠ opening) :
    bracketed rounds opening close cause item f ts = .done [] ts := by
  rw [bracketed, eat_bind_of_ne h]
  rfl

theorem bracketed_cons {α β : Type} {opening close : Token.Kind}
    {item : Parse α} {f : α → β} {items : List β} (ht : t.kind = opening) (hne : ts ≠ [])
    (hc : Chain (· != close) (listStep close cause item f) ts items (u :: rest))
    (hn : items.length ≤ rounds) (hu : u.kind = close) (hr : rest ≠ []) :
    bracketed rounds opening close cause item f (t :: ts) = .done items rest := by
  rw [bracketed, eat_bind_of_eq (by rw [current_cons, ht]), if_pos rfl, behind_cons hne,
    bind_of_done (hc.repeatWhile hn), discard_bind_of_done (consume_cons hu hr), pure_apply]

/-! ## Forms of types -/

variable {type : TypeExpr}

theorem listType_cons {element : TypeExpr} {size : Option NumberRange} (ht : t.kind = .leftBracket)
    (hne : ts ≠ []) (he : inner ts = .done element (u :: mid)) (hu : u.kind = .rightBracket)
    (hm : mid ≠ []) (hs : range? mid = .done size rest) :
    listType inner (t :: ts) = .done (.list t.pos element size) rest := by
  rw [listType, current_bind, current_cons, discard_bind_of_done (consume_cons ht hne),
    bind_of_done he, discard_bind_of_done (consume_cons hu hm), bind_of_done hs, pure_apply]

theorem parenthesizedType_empty (ht : t.kind = .leftParen) (hu : u.kind = .rightParen)
    (hr : rest ≠ []) :
    parenthesizedType rounds inner (t :: u :: rest) = .done (.tuple rest.current.pos []) rest := by
  rw [parenthesizedType, discard_bind_of_done (consume_cons ht (by simp)),
    eat_bind_of_eq (by rw [current_cons, hu]), if_pos rfl, behind_cons hr, current_bind, pure_apply]

theorem parenthesizedType_group (ht : t.kind = .leftParen) (hne : ts ≠ [])
    (hs : ts.current.kind ≠ .rightParen) (hi : inner ts = .done type (u :: rest))
    (hu : u.kind = .rightParen) (hr : rest ≠ []) :
    parenthesizedType rounds inner (t :: ts) = .done type rest := by
  rw [parenthesizedType, discard_bind_of_done (consume_cons ht hne), eat_bind_of_ne hs,
    if_neg (by simp), bind_of_done hi, sees_bind, current_cons, hu, if_neg (by decide),
    discard_bind_of_done (consume_cons hu hr), pure_apply]

theorem parenthesizedType_tuple {first : TypeExpr} {others : List (Option TypeExpr)}
    (ht : t.kind = .leftParen) (hne : ts ≠ []) (hs : ts.current.kind ≠ .rightParen)
    (hi : inner ts = .done first mid) (hm : mid.current.kind = .comma)
    (hc : Chain (· == .comma) (tupleMember inner) mid others (u :: rest))
    (hn : others.length ≤ rounds) (hu : u.kind = .rightParen) (hr : rest ≠ []) :
    parenthesizedType rounds inner (t :: ts) =
      .done (.tuple first.pos (first :: others.reduceOption)) rest := by
  rw [parenthesizedType, discard_bind_of_done (consume_cons ht hne), eat_bind_of_ne hs,
    if_neg (by simp), bind_of_done hi, sees_bind, hm, if_pos (by decide),
    bind_of_done (hc.repeatWhile hn), discard_bind_of_done (consume_cons hu hr), pure_apply]

theorem tupleMember_none (hr : rest ≠ []) (hk : rest.current.kind = .rightParen) :
    tupleMember inner (t :: rest) = .done none rest := by
  rw [tupleMember, advance_bind, behind_cons hr, sees_bind, hk]
  rfl

theorem tupleMember_some (hne : ts ≠ []) (hk : ts.current.kind ≠ .rightParen)
    (hi : inner ts = .done type rest) : tupleMember inner (t :: ts) = .done (some type) rest := by
  rw [tupleMember, advance_bind, behind_cons hne, sees_bind, if_neg (by simpa using hk)]
  exact map_of_done hi

theorem referenceType_plain {name : String} {arguments : List TypeExpr}
    (hp : path rounds ts = .done name mid)
    (ha : typeArguments rounds inner mid = .done arguments rest)
    (hb : rest.current.kind ≠ .leftBracket) :
    referenceType rounds inner ts = .done (.reference ts.current.pos name arguments) rest := by
  rw [referenceType, current_bind, bind_of_done hp, bind_of_done ha, sees_bind,
    if_neg (by simpa using hb), pure_apply]

theorem referenceType_indexed {name : String} {arguments : List TypeExpr} {indices : List Index}
    {last : TokenStream} (hp : path rounds ts = .done name mid)
    (ha : typeArguments rounds inner mid = .done arguments last)
    (hb : last.current.kind = .leftBracket)
    (hc : Chain (· == .leftBracket) index last indices rest) (hn : indices.length ≤ rounds) :
    referenceType rounds inner ts =
      .done (.indexed ts.current.pos (.reference ts.current.pos name arguments) indices) rest := by
  rw [referenceType, current_bind, bind_of_done hp, bind_of_done ha, sees_bind, hb,
    if_pos (by decide)]
  exact indexedType_of_chain rfl hc hn

/-! ## Alternatives -/

theorem primaryType_any (ht : t.kind = .any) (hr : rest ≠ []) :
    primaryType rounds inner (t :: rest) = .done (.any t.pos) rest := by
  rw [primaryType, current_bind, current_cons, ht]
  show (advance >>= fun _ => pure (TypeExpr.any t.pos)) (t :: rest) = _
  rw [advance_bind, behind_cons hr, pure_apply]

theorem primaryType_boolean (ht : t.kind = .booleanType) (hr : rest ≠ []) :
    primaryType rounds inner (t :: rest) = .done (.boolean t.pos) rest := by
  rw [primaryType, current_bind, current_cons, ht]
  show (advance >>= fun _ => pure (TypeExpr.boolean t.pos)) (t :: rest) = _
  rw [advance_bind, behind_cons hr, pure_apply]

theorem primaryType_string {length : Option NumberRange} (ht : t.kind = .stringType)
    (hne : mid ≠ []) (hl : range? mid = .done length rest) :
    primaryType rounds inner (t :: mid) = .done (.string t.pos length) rest := by
  rw [primaryType, current_bind, current_cons, ht]
  show (advance >>= fun _ => range? >>= fun l => pure (TypeExpr.string t.pos l)) (t :: mid) = _
  rw [advance_bind, behind_cons hne, bind_of_done hl, pure_apply]

theorem primaryType_leftBracket (h : ts.current.kind = .leftBracket) :
    primaryType rounds inner ts = listType inner ts := by
  rw [primaryType, current_bind, h]

theorem primaryType_leftParen (h : ts.current.kind = .leftParen) :
    primaryType rounds inner ts = parenthesizedType rounds inner ts := by
  rw [primaryType, current_bind, h]

theorem primaryType_identifier (h : ts.current.kind = .identifier) :
    primaryType rounds inner ts = referenceType rounds inner ts := by
  rw [primaryType, current_bind, h]

theorem unionType_single (h : primaryType rounds inner ts = .done type rest)
    (hr : rest.current.kind ≠ .pipe) : unionType rounds inner ts = .done type rest := by
  rw [unionType, bind_of_done h, sees_bind, if_neg (by simpa using hr), pure_apply]

/-- A bar and an alternative. -/
def unionStep (rounds : Nat) (inner : Parse TypeExpr) : Parse TypeExpr := do
  advance
  primaryType rounds inner

theorem unionStep_cons (hne : ts ≠ [])
    (h : primaryType rounds inner ts = .done type rest) :
    unionStep rounds inner (t :: ts) = .done type rest := by
  rw [unionStep, advance_bind, behind_cons hne, h]

theorem unionType_several {first : TypeExpr} {others : List TypeExpr}
    (h : primaryType rounds inner ts = .done first mid) (hm : mid.current.kind = .pipe)
    (hc : Chain (· == .pipe) (unionStep rounds inner) mid others rest)
    (hn : others.length ≤ rounds) :
    unionType rounds inner ts = .done (.union first.pos (first :: others)) rest := by
  rw [unionType, bind_of_done h, sees_bind, hm, if_pos (by decide)]
  exact bind_of_done (hc.repeatWhile hn)

/-! ## Successful runs taken apart -/

variable {node : TypeExpr}

theorem listType_done (h : listType inner ts = .done node rest) :
    ts.current.kind = .leftBracket ∧ ∃ element size mid, inner ts.behind = .done element mid ∧
      mid.current.kind = .rightBracket ∧ range? mid.behind = .done size rest ∧
        node = .list ts.current.pos element size := by
  rw [listType, current_bind] at h
  obtain ⟨_, _, hopen, h⟩ := discard_bind_done_iff.1 h
  obtain ⟨hk, -, rfl⟩ := consume_done_iff.1 hopen
  obtain ⟨element, mid, helement, h⟩ := bind_done_iff.1 h
  obtain ⟨_, _, hclose, h⟩ := discard_bind_done_iff.1 h
  obtain ⟨hk', -, rfl⟩ := consume_done_iff.1 hclose
  obtain ⟨size, last, hsize, h⟩ := bind_done_iff.1 h
  obtain ⟨rfl, rfl⟩ := pure_done_iff.1 h
  exact ⟨hk, element, size, mid, helement, hk', hsize, rfl⟩

/-- Between parentheses there is nothing, or a type with a comma behind it, or a type alone. -/
theorem parenthesizedType_done (h : parenthesizedType rounds inner ts = .done node rest) :
    ts.current.kind = .leftParen ∧
      (ts.behind.current.kind = .rightParen ∧ rest = ts.behind.behind ∧
          node = .tuple rest.current.pos [] ∨
        ts.behind.current.kind ≠ .rightParen ∧ ∃ first mid, inner ts.behind = .done first mid ∧
          (mid.current.kind = .comma ∧ (∃ others last,
              Chain (· == .comma) (tupleMember inner) mid others last ∧
              last.current.kind = .rightParen ∧ rest = last.behind ∧
              node = .tuple first.pos (first :: others.reduceOption)) ∨
            mid.current.kind = .rightParen ∧ rest = mid.behind ∧ node = first)) := by
  rw [parenthesizedType] at h
  obtain ⟨_, _, hopen, h⟩ := discard_bind_done_iff.1 h
  obtain ⟨hk, -, rfl⟩ := consume_done_iff.1 hopen
  refine ⟨hk, ?_⟩
  by_cases hempty : ts.behind.current.kind = .rightParen
  · rw [eat_bind_of_eq hempty, if_pos rfl, current_bind] at h
    obtain ⟨rfl, rfl⟩ := pure_done_iff.1 h
    exact .inl ⟨hempty, rfl, rfl⟩
  · rw [eat_bind_of_ne hempty, if_neg (by simp)] at h
    obtain ⟨first, mid, hfirst, h⟩ := bind_done_iff.1 h
    refine .inr ⟨hempty, first, mid, hfirst, ?_⟩
    rw [sees_bind] at h
    by_cases hcomma : mid.current.kind = .comma
    · rw [if_pos (by simpa using hcomma)] at h
      obtain ⟨others, last, hothers, h⟩ := bind_done_iff.1 h
      obtain ⟨_, _, hclose, h⟩ := discard_bind_done_iff.1 h
      obtain ⟨hlast, -, rfl⟩ := consume_done_iff.1 hclose
      obtain ⟨rfl, rfl⟩ := pure_done_iff.1 h
      exact .inl ⟨hcomma, others, last, chain_of_repeatWhile hothers, hlast, rfl, rfl⟩
    · rw [if_neg (by simpa using hcomma)] at h
      obtain ⟨_, _, hclose, h⟩ := discard_bind_done_iff.1 h
      obtain ⟨hlast, -, rfl⟩ := consume_done_iff.1 hclose
      obtain ⟨rfl, rfl⟩ := pure_done_iff.1 h
      exact .inr ⟨hlast, rfl, rfl⟩

theorem referenceType_done (h : referenceType rounds inner ts = .done node rest) :
    ∃ name mid arguments next, path rounds ts = .done name mid ∧
      typeArguments rounds inner mid = .done arguments next ∧
        (next.current.kind = .leftBracket ∧ (∃ indices, Chain (· == .leftBracket) index next indices rest ∧
            node = .indexed ts.current.pos (.reference ts.current.pos name arguments) indices) ∨
          next.current.kind ≠ .leftBracket ∧ next = rest ∧
            node = .reference ts.current.pos name arguments) := by
  rw [referenceType, current_bind] at h
  obtain ⟨name, mid, hname, h⟩ := bind_done_iff.1 h
  obtain ⟨arguments, next, harguments, h⟩ := bind_done_iff.1 h
  refine ⟨name, mid, arguments, next, hname, harguments, ?_⟩
  rw [sees_bind] at h
  by_cases hk : next.current.kind = .leftBracket
  · rw [if_pos (by simpa using hk), indexedType] at h
    obtain ⟨indices, last, hindices, h⟩ := bind_done_iff.1 h
    obtain ⟨rfl, rfl⟩ := pure_done_iff.1 h
    exact .inl ⟨hk, indices, chain_of_repeatWhile hindices, rfl⟩
  · rw [if_neg (by simpa using hk)] at h
    obtain ⟨rfl, rfl⟩ := pure_done_iff.1 h
    exact .inr ⟨hk, rfl, rfl⟩

theorem unionType_done (h : unionType rounds inner ts = .done node rest) :
    ∃ first mid, primaryType rounds inner ts = .done first mid ∧
      (mid.current.kind = .pipe ∧ (∃ others, Chain (· == .pipe) (unionStep rounds inner) mid others rest ∧
          node = .union first.pos (first :: others)) ∨
        mid.current.kind ≠ .pipe ∧ mid = rest ∧ node = first) := by
  rw [unionType] at h
  obtain ⟨first, mid, hfirst, h⟩ := bind_done_iff.1 h
  refine ⟨first, mid, hfirst, ?_⟩
  rw [sees_bind] at h
  by_cases hk : mid.current.kind = .pipe
  · rw [if_pos (by simpa using hk)] at h
    obtain ⟨others, last, hothers, h⟩ := bind_done_iff.1 h
    obtain ⟨rfl, rfl⟩ := pure_done_iff.1 h
    exact .inl ⟨hk, others, chain_of_repeatWhile hothers, rfl⟩
  · rw [if_neg (by simpa using hk)] at h
    obtain ⟨rfl, rfl⟩ := pure_done_iff.1 h
    exact .inr ⟨hk, rfl, rfl⟩

/-! ## Positions of types -/

/-- The types that the parser gives have positions. -/
def Positioned (p : Parse TypeExpr) : Prop :=
  ∀ (ts : TokenStream) (type : TypeExpr) (rest : TokenStream), p ts = .done type rest →
    type.pos?.isSome = true

theorem positioned_parenthesizedType (hpos : Positioned inner) :
    Positioned (parenthesizedType rounds inner) := by
  intro ts type rest h
  obtain ⟨-, ⟨-, -, rfl⟩ | ⟨-, first, mid, hfirst, hcase⟩⟩ := parenthesizedType_done h
  · rfl
  · rcases hcase with ⟨-, others, last, -, -, -, rfl⟩ | ⟨-, -, rfl⟩
    · rfl
    · exact hpos _ _ _ hfirst

theorem positioned_primaryType (hpos : Positioned inner) : Positioned (primaryType rounds inner) := by
  intro ts type rest h
  have hranged : ∀ {f : Option NumberRange → TypeExpr}, (∀ r, (f r).pos?.isSome = true) →
      (range? >>= fun r => pure (f r)) ts.behind = .done type rest → type.pos?.isSome = true := by
    intro f hf h
    obtain ⟨r, _, -, h⟩ := bind_done_iff.1 h
    obtain ⟨rfl, -⟩ := pure_done_iff.1 h
    exact hf r
  rw [primaryType, current_bind] at h
  cases hc : ts.current.kind <;> rw [hc] at h
  case leftBracket =>
    obtain ⟨-, element, size, mid, -, -, -, rfl⟩ := listType_done h
    rfl
  case leftParen => exact positioned_parenthesizedType hpos _ _ _ h
  case identifier =>
    obtain ⟨_, _, _, _, -, -, ⟨-, indices, -, rfl⟩ | ⟨-, -, rfl⟩⟩ := referenceType_done h <;> rfl
  case stringType | byte | short | int | long | floatType | double => exact hranged (fun _ => rfl) h
  case any | booleanType | integer | float | string | boolean =>
    obtain ⟨rfl, -⟩ := pure_done_iff.1 h
    rfl
  all_goals cases h

theorem positioned_typeExpr (rounds : Nat) : Positioned (typeExpr rounds) := by
  induction rounds with
  | zero =>
    intro ts type rest h
    cases h
  | succ rounds ih =>
    intro ts type rest h
    obtain ⟨first, mid, hfirst, ⟨-, others, -, rfl⟩ | ⟨-, rfl, rfl⟩⟩ := unionType_done h
    · rfl
    · exact positioned_primaryType ih _ _ _ hfirst

end McdocSchema.Parse
