import Mathlib.Data.List.ReduceOption
import McdocSchema.Proofs.DeclarationRuns
import McdocSchema.Proofs.Seam

/-!
# Every parser is local

The parsers of types and of declarations are local at any seam, those that end with line breaks where
both runs see the same token behind it. Each proof follows its parser, from one law to the next.
-/

namespace McdocSchema.Parse

open TokenStream

variable {J : Seam} {I : ParseFault → Prop} {P : Token.Kind → Prop} {n : Nat} {rounds rounds' : Nat}
  {inner inner' : Parse TypeExpr}

/-! ## Ranges -/

theorem local_bound : Local J I (fun k => k.isNumber = true) n 1 id bound bound := by
  apply local_reading
  · intro t
    cases hread : Number.readReal t.value with
    | error fault =>
      simp only [Token.relocate, hread]
      refine local_throw rfl ?_
      rintro k ⟨rfl, hk⟩
      exact .inr (.inl ⟨hk, hread⟩)
    | ok x =>
      simp only [Token.relocate, hread]
      apply (local_advance ?_).bindStep
      · intro _
        exact local_pure rfl
      · rintro j ⟨-, hj⟩ rfl
        cases hj
  · intro _ hP
    cases hP

theorem local_bound? : Local J I P n 0 id bound? bound? := by
  apply local_current_if Token.Kind.isNumber (Seam.blind_of_eq rfl) rfl
  · intro t
    exact (local_bound.weaken.restrict fun _ hk => hk.2).map fun _ => rfl
  · exact local_pure rfl

theorem local_delimiter {f : Option Number.Binary64 → NumberRange} :
    Local J I P n 0 id (bound? >>= fun max => pure (f max)) (bound? >>= fun max => pure (f max)) :=
  local_bound?.bind fun _ => local_pure rfl

theorem local_numberRange : Local J I P n 0 id numberRange numberRange := by
  apply local_current_if Token.Kind.isNumber (Seam.blind_of_eq rfl) rfl
  · intro t
    apply (local_bound.weaken.restrict fun _ hk => hk.2).bind
    intro min
    apply local_eat (by decide) local_delimiter
    apply local_eat (by decide) local_delimiter
    exact local_pure rfl
  · apply local_eat (by decide) local_delimiter
    apply local_eat (by decide) local_delimiter
    exact local_pure rfl

theorem local_range? : Local J I P n 0 id range? range? := by
  apply local_eat (by decide)
  · exact local_numberRange.map fun _ => rfl
  · exact local_pure rfl

/-! ## Paths and indices -/

theorem local_pathStep : Local J I (fun k => (k == .doubleColon) = true) n 1 id pathStep pathStep := by
  apply (local_advance ?_).bindStep
  · intro _
    apply (local_word (by decide)).weaken.bind
    intro t
    exact local_pure rfl
  · rintro j hj rfl
    cases hj

theorem local_path (hr : n ≤ rounds + 1) (hr' : n ≤ rounds' + 1) :
    Local J I P n 1 id (path rounds) (path rounds') := by
  apply (local_word (by decide)).bindStep
  intro first
  apply (local_repeatWhile (Seam.blind_of_eq rfl) (by omega) (by omega) local_pathStep).bind
  intro others
  apply local_pure
  rw [List.map_id]
  rfl

theorem local_index : Local J I (fun k => (k == .leftBracket) = true) n 1 id index index := by
  apply (local_advance ?_).bindStep
  · intro _
    apply local_current_if (fun k => k == .identifier || k.isSpecialKey) (Seam.blind_of_eq rfl) rfl
    · intro t
      apply (local_advance ?_).weaken.bind
      · intro _
        apply (local_word (by decide)).weaken.discard.bind
        intro _
        exact local_pure rfl
      · rintro j ⟨-, hj⟩ rfl
        cases hj
    · exact local_fail
  · rintro j hj rfl
    cases hj

/-- A base without a position is refused. -/
theorem local_indexedType {base : TypeExpr}
    (hI : base.pos? = none → I (.noPosition base.sort)) (hr : n ≤ rounds) (hr' : n ≤ rounds') :
    Local J I P n 0 (TypeExpr.relocate J.place) (indexedType rounds base)
      (indexedType rounds' (base.relocate J.place)) := by
  apply (local_repeatWhile (Seam.blind_of_eq rfl) hr hr' local_index).bind
  intro indices
  rw [List.map_id, TypeExpr.pos?_relocate, TypeExpr.sort_relocate]
  cases hpos : base.pos? with
  | none => exact local_throw rfl fun _ _ => hI hpos
  | some pos => exact local_pure rfl

/-! ## Forms with types inside -/

theorem local_listType (hi : Local J I Anywhere (n - 1) 1 (TypeExpr.relocate J.place) inner inner') :
    Local J I (· = .leftBracket) n 1 (TypeExpr.relocate J.place) (listType inner)
      (listType inner') := by
  apply local_current
  · intro t
    apply (local_word (by decide)).discard.bindStep
    intro _
    apply hi.weaken.bind
    intro element
    apply (local_word (by decide)).weaken.discard.bind
    intro _
    apply local_range?.bind
    intro size
    exact local_pure rfl
  · intro _ hk
    cases hk

theorem local_tupleMember
    (hi : Local J I Anywhere (n - 1) 1 (TypeExpr.relocate J.place) inner inner') :
    Local J I (fun k => (k == .comma) = true) n 1 (Option.map (TypeExpr.relocate J.place))
      (tupleMember inner) (tupleMember inner') := by
  apply (local_advance ?_).bindStep
  · intro _
    apply local_sees (Seam.blind_of_eq rfl)
    · exact local_pure rfl
    · exact hi.weaken.at.map fun _ => rfl
  · rintro j hj rfl
    cases hj

/-- A tuple stands where its first member does, and the empty one where the next token does. -/
theorem local_parenthesizedType (hr : n ≤ rounds + 1) (hr' : n ≤ rounds' + 1)
    (hpos : Positioned inner)
    (hi : Local J I Anywhere (n - 1) 1 (TypeExpr.relocate J.place) inner inner') :
    Local J I P n 1 (TypeExpr.relocate J.place) (parenthesizedType rounds inner)
      (parenthesizedType rounds' inner') := by
  apply (local_word (by decide)).discard.bindStep
  intro _
  apply local_eat (by decide)
  · apply local_current
    · intro t
      exact local_pure rfl
    · intro _ _
      show Tracks J _ 0 0 _ (.done (TypeExpr.tuple J.left.current.pos []) (J.before []))
        (.done (TypeExpr.tuple J.right.current.pos []) (J.across []))
      rw [J.pos_right]
      exact .done (TypeExpr.tuple J.left.current.pos []) (Nat.le_refl 0)
  · apply hi.weaken.at.bind_of_produced (e := 0)
    intro first ts rest hfirst
    have hplace := TypeExpr.pos_relocate J.place (hpos ts first rest hfirst)
    apply local_sees (Seam.blind_of_eq rfl)
    · apply (local_repeatWhile (Seam.blind_of_eq rfl) (by omega) (by omega)
        (local_tupleMember (hi.mono (fun _ hk => hk) (by omega) (Nat.le_refl 1)))).bind
      intro others
      apply (local_word (by decide)).weaken.discard.bind
      intro _
      apply local_pure
      rw [hplace, TypeExpr.relocate, TypeExpr.relocateAll_eq, List.map_cons, List.reduceOption_map]
    · apply (local_word (by decide)).weaken.discard.bind
      intro _
      exact local_pure rfl

theorem local_bracketed {α α' β β' : Type} {opening close : Token.Kind} {cause : ParseCause}
    {item : Parse α} {item' : Parse α'} {f : α → β} {f' : α' → β'} {g : α → α'} {h : β → β'}
    (hopen : opening ∉ [.eof, .newline]) (hclose : close ∉ [.eof, .newline]) (hr : n ≤ rounds)
    (hr' : n ≤ rounds')
    (hitem : Local J I Anywhere n 1 g item item') (hf : ∀ a, f' (g a) = h (f a)) :
    Local J I P n 0 (List.map h) (bracketed rounds opening close cause item f)
      (bracketed rounds' opening close cause item' f') := by
  have hblind : J.Blind (· == close) := Seam.blind_of_not_mem hclose
  have hgoes : J.Blind (· != close) := congrArg (!·) hblind
  apply local_eat hopen
  · apply (local_repeatWhile (g := h) hgoes hr hr' ?_).bind
    · intro items
      apply (local_word hclose).weaken.discard.bind
      intro _
      exact local_pure rfl
    · apply hitem.at.bindStep
      intro a
      apply (local_separator hblind).bind
      intro _
      exact local_pure (hf a)
  · exact local_pure rfl

theorem local_referenceType (hr : n ≤ rounds + 1) (hr' : n ≤ rounds' + 1)
    (hi : Local J I Anywhere (n - 1) 1 (TypeExpr.relocate J.place) inner inner') :
    Local J I (· = .identifier) n 1 (TypeExpr.relocate J.place) (referenceType rounds inner)
      (referenceType rounds' inner') := by
  apply local_current
  · intro t
    apply (local_path hr hr').bindStep
    intro name
    have hargs : Local J I Anywhere (n - 1) 0 (List.map (TypeExpr.relocate J.place))
        (typeArguments rounds inner) (typeArguments rounds' inner') :=
      local_bracketed (by decide) (by decide) (by omega) (by omega) hi fun _ => rfl
    apply hargs.bind
    intro arguments
    have href : TypeExpr.reference (J.place t.pos) name
        (arguments.map (TypeExpr.relocate J.place)) =
        (TypeExpr.reference t.pos name arguments).relocate J.place := by
      rw [TypeExpr.relocate, TypeExpr.relocateAll_eq]
    apply local_sees (Seam.blind_of_eq rfl)
    · show Local J I _ (n - 1) 0 _ (indexedType rounds (.reference t.pos name arguments))
        (indexedType rounds' (.reference (J.place t.pos) name _))
      rw [href]
      refine local_indexedType (fun hpos => ?_) (by omega) (by omega)
      cases hpos
    · exact local_pure href
  · intro _ hk
    cases hk

theorem local_literal {value : Literal} {pos : Position} (hP : ∀ k, P k → k ≠ .eof) :
    Local J I P n 1 (TypeExpr.relocate J.place) (literal value pos) (literal value (J.place pos)) := by
  apply (local_advance hP).bindStep
  intro _
  exact local_pure rfl

theorem local_ranged {f f' : Option NumberRange → TypeExpr} (hP : ∀ k, P k → k ≠ .eof)
    (hf : ∀ r, f' r = (f r).relocate J.place) :
    Local J I P n 1 (TypeExpr.relocate J.place) (advance >>= fun _ => range? >>= fun r => pure (f r))
      (advance >>= fun _ => range? >>= fun r => pure (f' r)) := by
  apply (local_advance hP).bindStep
  intro _
  apply local_range?.bind
  intro r
  exact local_pure (hf r)

theorem local_primaryType (hr : n ≤ rounds + 1) (hr' : n ≤ rounds' + 1) (hpos : Positioned inner)
    (hi : Local J I Anywhere (n - 1) 1 (TypeExpr.relocate J.place) inner inner') :
    Local J I P n 1 (TypeExpr.relocate J.place) (primaryType rounds inner)
      (primaryType rounds' inner') := by
  apply local_current
  · intro t
    have hne : t.kind ≠ .eof → ∀ k, k = t.kind ∧ P k → k ≠ .eof := by
      rintro h k ⟨rfl, -⟩
      exact h
    simp only [Token.relocate]
    cases hk : t.kind <;> rw [hk] at hne
    case any | booleanType =>
      apply (local_advance (hne (by decide))).bindStep
      intro _
      exact local_pure rfl
    case stringType => exact local_ranged (hne (by decide)) fun _ => rfl
    case byte | short | int | long | floatType | double =>
      exact local_ranged (hne (by decide)) fun _ => rfl
    case integer | float | string | boolean => exact local_literal (hne (by decide))
    case leftBracket => exact (local_listType hi).mono (fun _ h => h.1) (Nat.le_refl n) (Nat.le_refl 1)
    case leftParen => exact local_parenthesizedType hr hr' hpos hi
    case identifier =>
      exact (local_referenceType hr hr' hi).mono (fun _ h => h.1) (Nat.le_refl n) (Nat.le_refl 1)
    all_goals exact local_fail
  · intro hJ _
    -- At the end of the text there is no type, whatever the other run sees.
    simp only [J.eof_of_not_uniform hJ]
    exact .apart hJ

theorem local_unionType (hr : n ≤ rounds) (hr' : n ≤ rounds') (hpos : Positioned inner)
    (hi : Local J I Anywhere (n - 1) 1 (TypeExpr.relocate J.place) inner inner') :
    Local J I P n 1 (TypeExpr.relocate J.place) (unionType rounds inner) (unionType rounds' inner') := by
  have hprimary : ∀ (P : Token.Kind → Prop) (m : Nat), m ≤ n →
      Local J I P m 1 (TypeExpr.relocate J.place) (primaryType rounds inner)
        (primaryType rounds' inner') := by
    intro P m hm
    apply local_primaryType (by omega) (by omega) hpos
    exact hi.mono (fun _ hk => hk) (by omega) (Nat.le_refl 1)
  apply (hprimary P n (Nat.le_refl n)).bind_of_produced (e := 0)
  intro first ts rest hfirst
  have hplace := TypeExpr.pos_relocate J.place (positioned_primaryType hpos ts first rest hfirst)
  apply local_sees (Seam.blind_of_eq rfl)
  · apply (local_repeatWhile (g := TypeExpr.relocate J.place) (Seam.blind_of_eq rfl) (by omega)
      (by omega) ?_).bind
    · intro others
      apply local_pure
      rw [hplace, TypeExpr.relocate, TypeExpr.relocateAll_eq, List.map_cons]
    · apply (local_advance ?_).bindStep
      · intro _
        exact (hprimary _ _ (by omega)).weaken
      · rintro j hj rfl
        cases hj
  · exact local_pure rfl

/-- With as many rounds as there are tokens in front of the seam, nothing depends on their number. -/
theorem local_typeExpr (hr : n ≤ rounds) (hr' : n ≤ rounds') :
    Local J I P n 1 (TypeExpr.relocate J.place) (typeExpr rounds) (typeExpr rounds') := by
  induction rounds generalizing rounds' n P with
  | zero =>
    obtain rfl : n = 0 := by omega
    exact local_zero leaves_refl
  | succ rounds ih =>
    cases rounds' with
    | zero =>
      obtain rfl : n = 0 := by omega
      have hsome : Local J I P 0 1 (TypeExpr.relocate J.place) (typeExpr (rounds + 1)) (typeExpr 1) :=
        local_unionType (by omega) (by omega) (positioned_typeExpr rounds)
          (ih (by omega) (by omega))
      exact local_zero hsome.leaves
    | succ rounds' =>
      exact local_unionType hr hr' (positioned_typeExpr rounds) (ih (by omega) (by omega))

/-! ## Bodies -/

variable {α β : Type}

theorem local_memberDoc (hJ : J.Uniform) : Local J I P n 0 id memberDoc memberDoc := by
  apply local_current
  · intro t
    apply local_eat (by decide)
    · apply (local_skipNewlines hJ).bind
      intro _
      exact local_pure rfl
    · exact local_pure rfl
  · intro hne
    exact absurd hJ hne

/-- What is read between line breaks: nothing in front of the closing token, else an item that costs a
token. -/
theorem local_betweenBreaks {close : Token.Kind} {p : Parse (Option α)} {q : Parse (Option β)}
    {g : α → β} (hJ : J.Uniform)
    (hitem : ∀ m, m ≤ n → Local J I Anywhere m 1 (Option.map g) p q) :
    Local J I (fun k => (k != close) = true) n 1 (Option.map g)
      (skipNewlines >>= fun _ => sees close >>= fun closed => if closed then pure none else p)
      (skipNewlines >>= fun _ => sees close >>= fun closed => if closed then pure none else q) := by
  apply local_skipNewlines_bind hJ
  · apply local_sees (hJ.blind _)
    · exact local_pure rfl
    · exact (hitem (n - 1) (by omega)).weaken.at
  · apply local_sees (hJ.blind _)
    · apply local_of_false
      · exact leaves_refl
      · rintro k ⟨rfl, -, hk⟩
        simp at hk
    · exact (hitem n (Nat.le_refl n)).at

theorem local_member {item : Option String → Parse α} {item' : Option String → Parse β} {g : α → β}
    (hJ : J.Uniform) (hitem : ∀ doc, Local J I Anywhere n 1 g (item doc) (item' doc)) :
    Local J I (fun k => (k != .rightBrace) = true) n 1 (Option.map g) (member item)
      (member item') := by
  apply local_betweenBreaks hJ
  intro m hm
  apply (local_memberDoc hJ).bind
  intro doc
  apply ((hitem doc).mono (fun _ hk => hk) hm (Nat.le_refl 1)).bindStep
  intro a
  apply (local_eaten (by decide)).discard.bind
  intro _
  apply (local_skipNewlines hJ).bind
  intro _
  exact local_pure rfl

theorem local_members {item : Option String → Parse α} {item' : Option String → Parse β} {g : α → β}
    (hJ : J.Uniform) (hr : n ≤ rounds) (hr' : n ≤ rounds')
    (hitem : ∀ doc, Local J I Anywhere n 1 g (item doc) (item' doc)) :
    Local J I P n 0 (List.map (Option.map g)) (repeatWhile rounds (· != .rightBrace) (member item))
      (repeatWhile rounds' (· != .rightBrace) (member item')) :=
  local_repeatWhile (hJ.blind _) hr hr' (local_member hJ hitem)

theorem local_body {item : Option String → Parse α} {item' : Option String → Parse β} {g : α → β}
    (hr : n ≤ rounds + 1) (hr' : n ≤ rounds' + 1)
    (hitem : ∀ K : Seam, K.place = J.place →
      ∀ doc, Local K I Anywhere (n - 1) 1 g (item doc) (item' doc)) :
    Local J I P n 1 (List.map g) (body rounds item) (body rounds' item') := by
  apply (local_word (by decide)).discard.bindStep
  intro _
  apply local_closed (by decide)
  · intro K hK hplace
    exact local_members hK (by omega) (by omega) (hitem K hplace)
  · intro members
    exact List.reduceOption_map

theorem local_structItem (doc : Option String)
    (hi : Local J I Anywhere n 1 (TypeExpr.relocate J.place) inner inner') :
    Local J I P n 1 (Sum.map (Field.relocate J.place) (TypeExpr.relocate J.place))
      (structItem inner doc) (structItem inner' doc) := by
  apply local_eat (by decide)
  · exact hi.map fun _ => rfl
  · apply (local_word (by decide)).bindStep
    intro name
    apply (local_eaten (by decide)).bind
    intro optional
    apply (local_word (by decide)).weaken.discard.bind
    intro _
    apply (hi.mono (fun _ hk => hk) (Nat.sub_le n 1) (Nat.zero_le 1)).bind
    intro type
    exact local_pure rfl

theorem local_structType (hr : n ≤ rounds + 1) (hr' : n ≤ rounds' + 1) :
    Local J I (· = .struct) n 1 (TypeExpr.relocate J.place) (structType rounds)
      (structType rounds') := by
  apply local_current
  · intro t
    apply (local_word (by decide)).discard.bindStep
    intro _
    apply (local_body (by omega) (by omega) ?_).weaken.bind
    · intro members
      apply local_pure
      rw [filterMap_getLeft?_map, filterMap_getRight?_map, TypeExpr.relocate,
        TypeExpr.relocateFields_eq, TypeExpr.relocateAll_eq]
      rfl
    · intro K hplace doc
      rw [← hplace]
      exact local_structItem doc (local_typeExpr (by omega) (by omega))
  · intro _ hk
    cases hk

theorem local_variantValue : Local J I P n 0 id variantValue variantValue := by
  apply local_eat (by decide)
  · apply local_current_if (· == .integer) (Seam.blind_of_eq rfl) rfl
    · intro t
      cases hread : Number.readInteger t.value with
      | error fault =>
        simp only [Token.relocate, hread]
        refine local_throw rfl ?_
        rintro k ⟨rfl, hk⟩
        exact .inr (.inr ⟨eq_of_beq hk, hread⟩)
      | ok x =>
        simp only [Token.relocate, hread]
        apply (local_advance ?_).weaken.bind
        · intro _
          exact local_pure rfl
        · rintro j ⟨-, hj⟩ rfl
          cases hj
    · exact local_fail
  · exact local_pure rfl

theorem local_variant (doc : Option String) : Local J I P n 1 id (variant doc) (variant doc) := by
  apply (local_word (by decide)).bindStep
  intro name
  apply local_variantValue.bind
  intro value
  exact local_pure rfl

theorem local_enumType (hr : n ≤ rounds + 1) (hr' : n ≤ rounds' + 1) :
    Local J I (· = .enum) n 1 (TypeExpr.relocate J.place) (enumType rounds) (enumType rounds') := by
  apply local_current
  · intro t
    apply (local_word (by decide)).discard.bindStep
    intro _
    apply (local_body (by omega) (by omega) fun K _ => local_variant).weaken.bind
    intro variants
    apply local_pure
    rw [List.map_id]
    rfl
  · intro _ hk
    cases hk

/-! ## Declarations -/

theorem local_named {α β : Type} {word sign : Token.Kind} {names names' : Parse (List String)}
    {f : Position → String → List String → TypeExpr → α}
    {f' : Position → String → List String → TypeExpr → β} {g : α → β}
    (hword : word ∉ [.eof, .newline]) (hsign : sign ∉ [.eof, .newline]) (hr : n ≤ rounds + 1)
    (hr' : n ≤ rounds' + 1) (hnames : Local J I Anywhere (n - 1) 0 (List.map id) names names')
    (hf : ∀ pos name found target,
      f' (J.place pos) name found (target.relocate J.place) = g (f pos name found target)) :
    Local J I (· = word) n 1 g (named rounds word sign names f) (named rounds' word sign names' f') := by
  apply local_current
  · intro t
    apply (local_word hword).discard.bindStep
    intro _
    apply (local_word (by decide)).weaken.bind
    intro name
    apply hnames.bind
    intro found
    apply (local_word hsign).weaken.discard.bind
    intro _
    apply (local_typeExpr (by omega) (by omega)).weaken.bind
    intro target
    apply local_pure
    rw [List.map_id]
    exact hf t.pos name.value found target
  · rintro _ rfl
    simp at hword

theorem local_typeAlias (hr : n ≤ rounds + 1) (hr' : n ≤ rounds' + 1) :
    Local J I (· = .type) n 1 (Alias.relocate J.place) (typeAlias rounds) (typeAlias rounds') := by
  rw [typeAlias_eq_named, typeAlias_eq_named]
  apply local_named (by decide) (by decide) hr hr' _ fun _ _ _ _ => rfl
  exact local_bracketed (by decide) (by decide) (by omega) (by omega) (local_word (by decide))
    fun _ => rfl

theorem local_dispatchStatement (hr : n ≤ rounds + 1) (hr' : n ≤ rounds' + 1) :
    Local J I (· = .dispatch) n 1 (Declaration.relocate J.place) (dispatchStatement rounds)
      (dispatchStatement rounds') := by
  apply local_named (by decide) (by decide) hr hr' _ fun _ _ _ _ => rfl
  exact local_bracketed (by decide) (by decide) (by omega) (by omega)
    (local_consumeOr (Seam.blind_of_eq rfl) (by decide)) fun _ => rfl

theorem local_useStatement (hI : I .importAlias) (hr : n ≤ rounds + 1) (hr' : n ≤ rounds' + 1) :
    Local J I P n 1 (Declaration.relocate J.place) (useStatement rounds) (useStatement rounds') := by
  apply (local_word (by decide)).discard.bindStep
  intro _
  apply (local_path (by omega) (by omega)).weaken.discard.bind
  intro _
  exact local_throw rfl fun _ _ => hI

theorem local_declarationDoc (hJ : J.Uniform) :
    Local J I P n 0 id declarationDoc declarationDoc := by
  apply local_sees (hJ.blind _)
  · apply local_docLines.bind
    intro lines
    apply (local_skipNewlines hJ).bind
    intro _
    exact local_pure rfl
  · exact local_pure rfl

/-- A declaration fails like an import only if it is one. -/
theorem local_declaration (doc : Option String) (hP : ¬ J.Uniform → ¬ P .eof)
    (hI : ∀ k, P k → k = .use → I .importAlias) (hr : n ≤ rounds + 1) (hr' : n ≤ rounds' + 1) :
    Local J I P n 1 (Declaration.relocate J.place) (declaration rounds doc)
      (declaration rounds' doc) := by
  apply local_current
  · intro t
    simp only [Token.relocate]
    cases t.kind
    case struct => exact ((local_structType hr hr').restrict fun _ hk => hk.1).map fun _ => rfl
    case enum => exact ((local_enumType hr hr').restrict fun _ hk => hk.1).map fun _ => rfl
    case type =>
      apply ((local_typeAlias hr hr').restrict fun _ hk => hk.1).bindStep
      intro named
      exact local_pure rfl
    case use =>
      -- The kind of the current token is known only with the stream.
      refine ⟨(local_useStatement (J := J) (P := P) (I := Anything) trivial hr hr').leaves, fun u hu hk => ?_⟩
      exact (local_useStatement (P := P) (hI _ hk.2 hk.1) hr hr').tracks u hu hk.2
    case dispatch => exact (local_dispatchStatement hr hr').restrict fun _ hk => hk.1
    all_goals exact local_fail
  · intro hne hend
    exact absurd hend (hP hne)

/-! ## Documents -/

theorem local_declaration? (hJ : J.Uniform) (hI : I .importAlias) (hr : n ≤ rounds + 1)
    (hr' : n ≤ rounds' + 1) :
    Local J I (fun k => (k != .eof) = true) n 1 (Option.map (Declaration.relocate J.place))
      (declaration? rounds) (declaration? rounds') := by
  apply local_betweenBreaks hJ
  intro m hm
  apply (local_declarationDoc hJ).bind
  intro doc
  apply (local_declaration doc (absurd hJ) (fun _ _ _ => hI) (by omega) (by omega)).bindStep
  intro decl
  apply (local_skipNewlines hJ).bind
  intro _
  exact local_pure rfl

theorem local_declarations (hJ : J.Uniform) (hI : I .importAlias) (hr : n ≤ rounds)
    (hr' : n ≤ rounds') {step step' : Nat} (hs : n ≤ step) (hs' : n ≤ step') :
    Local J I P n 0 (List.map (Option.map (Declaration.relocate J.place)))
      (repeatWhile rounds (· != .eof) (declaration? step))
      (repeatWhile rounds' (· != .eof) (declaration? step')) :=
  local_repeatWhile (hJ.blind _) hr hr' (local_declaration? hJ hI (by omega) (by omega))

theorem local_document (hJ : J.Uniform) (hI : I .importAlias) (hr : n ≤ rounds) (hr' : n ≤ rounds') :
    Local J I P n 0 (Document.relocate J.place) (document rounds) (document rounds') := by
  apply (local_declarations hJ hI hr hr' hr hr').bind
  intro declarations
  apply local_pure
  rw [List.reduceOption_map]
  rfl

end McdocSchema.Parse
