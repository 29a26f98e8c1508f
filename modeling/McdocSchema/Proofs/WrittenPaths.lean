import McdocSchema.Proofs.EditedTexts

/-!
# Every path is written

A reference has the position of the first name of its path, and no two tokens stand at the same position.
So the tokens of the path are known from the reference (`exists_reads_of_occursIn`), and its names are the
values of every other one of them (`TokenStream.pathValues`). If one of the names is replaced, the path
that is read is replaced at the same place.
-/

namespace McdocSchema

open Parse TokenStream Edit

/-! ## Paths among tokens -/

/-- The names of the path with which a stream starts. -/
def TokenStream.pathValues : TokenStream → List String
  | t :: colons :: ts => if colons.kind = .doubleColon then t.value :: pathValues ts else [t.value]
  | [t] => [t.value]
  | [] => []

namespace TokenStream

variable {ts rest mids more more' : TokenStream} {t t' : Token} {names : List String} {j : Nat}

theorem pathValues_of_forms (h : more'.map Token.form = more.map Token.form) :
    pathValues more' = pathValues more := by
  induction more using pathValues.induct generalizing more' with
  | case1 t colons ts hcolons ih =>
    obtain ⟨t', _, rfl, -, hvalue, h⟩ := Token.exists_cons_of_forms h
    obtain ⟨colons', ts', rfl, hkind, -, h⟩ := Token.exists_cons_of_forms h
    rw [pathValues, pathValues, hkind, if_pos hcolons, if_pos hcolons, hvalue, ih h]
  | case2 t colons ts hcolons =>
    obtain ⟨t', _, rfl, -, hvalue, h⟩ := Token.exists_cons_of_forms h
    obtain ⟨colons', ts', rfl, hkind, -, -⟩ := Token.exists_cons_of_forms h
    rw [pathValues, pathValues, hkind, if_neg hcolons, if_neg hcolons, hvalue]
  | case3 t =>
    obtain ⟨t', ts', rfl, -, hvalue, h⟩ := Token.exists_cons_of_forms h
    obtain rfl : ts' = [] := by simpa using h
    rw [pathValues, pathValues, hvalue]
  | case4 =>
    obtain rfl : more' = [] := by simpa using h
    rfl

theorem pathValues_set (hforms : more'.map Token.form = more.map Token.form)
    (hlength : mids.length = 2 * j) (hj : j < (pathValues (mids ++ t :: more)).length) :
    pathValues (mids ++ t' :: more') = (pathValues (mids ++ t :: more)).set j t'.value := by
  induction j generalizing mids with
  | zero =>
    obtain rfl : mids = [] := List.length_eq_zero_iff.1 hlength
    cases more with
    | nil =>
      obtain rfl : more' = [] := by simpa using hforms
      rfl
    | cons colons ts =>
      obtain ⟨colons', ts', rfl, hkind, -, hts⟩ := Token.exists_cons_of_forms hforms
      rw [List.nil_append, List.nil_append, pathValues, pathValues, hkind, pathValues_of_forms hts]
      split <;> rfl
  | succ j ih =>
    -- The first name and the colons behind it stay.
    obtain ⟨first, mids, rfl⟩ := List.exists_cons_of_length_eq_add_one hlength
    obtain ⟨colons, mids, rfl⟩ := List.exists_cons_of_length_eq_add_one (Nat.succ.inj hlength)
    have hcolons : colons.kind = .doubleColon := by
      by_contra hne
      rw [List.cons_append, List.cons_append, pathValues, if_neg hne] at hj
      simp at hj
    simp only [List.cons_append, pathValues, if_pos hcolons, List.length_cons, List.set_cons_succ] at hj ⊢
    rw [ih (by simp at hlength; omega) (by omega)]

theorem pathValues_of_chain (hts : Ended ts) (hc : Chain (· == .doubleColon) pathStep ts names rest)
    (ht : t.kind = .identifier) :
    pathValues (t :: ts) = t.value :: names ∧
      ∀ j name, (t.value :: names)[j]? = some name → ∃ mids u more, t :: ts = mids ++ u :: more ∧
        mids.length = 2 * j ∧ u.kind = .identifier ∧ u.value = name := by
  -- A round takes two tokens, the colons and the name, so the name `j` stands behind `2 * j` tokens.
  induction hc generalizing t with
  | @nil rest h =>
    obtain ⟨colons, more, rfl⟩ := List.exists_cons_of_ne_nil hts.ne_nil
    refine ⟨?_, ?_⟩
    · rw [pathValues, if_neg (by simpa using h)]
    · intro j name hname
      cases j with
      | zero =>
        cases hname
        exact ⟨[], t, _, rfl, rfl, ht, rfl⟩
      | succ j => cases hname
  | @cons ts mid rest name names hg hs _ ih =>
    obtain ⟨colons, ts₁, rfl⟩ := List.exists_cons_of_ne_nil hts.ne_nil
    have hcolons : colons.kind = .doubleColon := by simpa using hg
    have h₁ : Ended ts₁ := hts.tail (by rw [hcolons]; decide)
    rw [pathStep, advance_bind, behind_cons h₁.ne_nil] at hs
    obtain ⟨u, ts₂, hu, hs⟩ := bind_done_iff.1 hs
    obtain ⟨rfl, rfl⟩ := pure_done_iff.1 hs
    obtain ⟨hspan, h₂⟩ := (Grammar.reads_consume (by decide)).parsed _ _ _ h₁ hu
    obtain ⟨u', rfl, hk⟩ := Ebnf.spans_kind_iff.1 hspan
    obtain ⟨-, rfl, -⟩ := consume_done_iff.1 hu
    obtain ⟨hvalues, hnames⟩ := ih h₂ hk
    refine ⟨?_, ?_⟩
    · rw [pathValues, if_pos hcolons, hvalues]
      rfl
    · intro j name hname
      cases j with
      | zero =>
        cases hname
        exact ⟨[], t, _, rfl, rfl, ht, rfl⟩
      | succ j =>
        obtain ⟨mids, v, more, heq, hlength, hv⟩ := hnames j name hname
        refine ⟨t :: colons :: mids, v, more, ?_, ?_, hv⟩
        · rw [heq]
          rfl
        · rw [List.length_cons, List.length_cons, hlength]
          omega

theorem eq_of_reads {s : String} (hts : Ended ts) (h : Reads ts s) :
    s = "::".intercalate (pathValues ts) ∧
      ∀ j name, (pathValues ts)[j]? = some name → ∃ mids t more, ts = mids ++ t :: more ∧
        mids.length = 2 * j ∧ t.kind = .identifier ∧ t.value = name := by
  obtain ⟨rounds, rest, h⟩ := h
  obtain ⟨t, ts₁, ht, h⟩ := bind_done_iff.1 h
  obtain ⟨hspan, h₁⟩ := (Grammar.reads_consume (by decide)).parsed _ _ _ hts ht
  obtain ⟨t', rfl, hk⟩ := Ebnf.spans_kind_iff.1 hspan
  obtain ⟨-, rfl, -⟩ := consume_done_iff.1 ht
  obtain ⟨others, _, hothers, h⟩ := bind_done_iff.1 h
  obtain ⟨rfl, -⟩ := pure_done_iff.1 h
  obtain ⟨hvalues, hnames⟩ := pathValues_of_chain h₁ (chain_of_repeatWhile hothers) hk
  rw [hvalues]
  exact ⟨rfl, hnames⟩

end TokenStream

/-! ## References among tokens -/

namespace Edit

variable {e : Edit} {n : Nat}

theorem Lists.exists_of_mem {α β : Type} {T : Nat → α → β → Prop} {as : List α} {bs : List β} {a : α}
    (h : Lists T n as bs) (ha : a ∈ as) : ∃ m b, T m a b := by
  induction h with
  | nil => cases ha
  | @cons n m k a' b as bs hn hab _ ih =>
    rcases List.mem_cons.1 ha with rfl | ha
    · exact ⟨m, b, hab⟩
    · exact ih ha

theorem Types.exists_of_mem_parts {t t' u : TypeExpr} (h : e.Types n t t') (hu : u ∈ t.parts) :
    ∃ m u', e.Types m u u' := by
  cases h with
  | list _ h =>
    obtain rfl := List.mem_singleton.1 hu
    exact ⟨_, _, h⟩
  | tuple _ h | union _ h | reference _ _ _ h => exact h.exists_of_mem hu
  | indexed _ _ h =>
    obtain rfl := List.mem_singleton.1 hu
    exact ⟨_, _, h⟩
  | _ => cases hu

theorem Types.exists_of_occursIn {t t' u : TypeExpr} (h : e.Types n t t') (hu : u.OccursIn t) :
    ∃ m u', e.Types m u u' := by
  induction hu generalizing n t' with
  | refl => exact ⟨n, t', h⟩
  | tail _ hpart ih =>
    obtain ⟨m, u', hpart'⟩ := h.exists_of_mem_parts hpart
    exact ih hpart'

theorem Declarations.exists_of_mem_types {decl decl' : Declaration} {t : TypeExpr}
    (h : e.Declarations n decl decl') (ht : t ∈ decl.types) : ∃ m t', e.Types m t t' := by
  cases h with
  | «alias» _ _ _ _ h | dispatch _ _ _ _ h =>
    obtain rfl := List.mem_singleton.1 ht
    exact ⟨_, _, h⟩
  | struct _ _ hf hs =>
    rcases List.mem_append.1 ht with ht | ht
    · obtain ⟨f, hmem, rfl⟩ := List.mem_map.1 ht
      obtain ⟨m, f', hfield⟩ := hf.exists_of_mem hmem
      cases hfield with
      | field _ _ h => exact ⟨_, _, h⟩
    · exact hs.exists_of_mem ht
  | enum => cases ht

end Edit

variable {ts us vs : TokenStream} {doc : Document} {decl : Declaration} {t : TypeExpr} {pos : Position}
  {s : String} {arguments : List TypeExpr}

/-- **The path of a reference is read at its position.** -/
theorem exists_reads_of_occursIn (hend : Ended ts) (hdocs : DocsEnded ts)
    (hdoc : Document.ofTokens ts = .ok doc) (hdecl : decl ∈ doc.declarations) (ht : t ∈ decl.types)
    (hoccurs : (TypeExpr.reference pos s arguments).OccursIn t) :
    ∃ ws : TokenStream, ws <:+ ts ∧ ws.current.pos = pos ∧ Reads ws s := by
  -- The edit that changes nothing follows the parser from each tree to its tokens.
  let e : Edit := .rename "" "" ts ts
  have hstreams : e.Streams 0 ts ts :=
    streams_of_forms hend hdocs rfl fun ws ws' hws hws' hlength => ⟨hws, hws', hlength⟩
  rcases hstreams.ofTokens hdoc with ⟨doc', -, h⟩ | ⟨_, _, hstray, -⟩
  · obtain ⟨_, _, hdecl'⟩ := h.declarations.exists_of_mem hdecl
    obtain ⟨_, _, ht'⟩ := hdecl'.exists_of_mem_types ht
    obtain ⟨_, _, hreference⟩ := ht'.exists_of_occursIn hoccurs
    cases hreference with
    | reference _ hrefers =>
      obtain ⟨ws, _, ⟨hws, -⟩, hpos, -, hreads, -⟩ := hrefers
      exact ⟨ws, hws, hpos, hreads⟩
  · cases hstray

theorem Edit.Reads.ne_nil (h : Reads ts s) : ts ≠ [] := by
  rintro rfl
  obtain ⟨_, _, h⟩ := h
  obtain ⟨_, _, hconsume, -⟩ := bind_done_iff.1 h
  cases (consume_done_iff.1 hconsume).1

/-- A stream is known from the position of its first token. -/
theorem eq_of_suffix_of_pos (hpos : ts.Pairwise fun t u => t.pos.Before u.pos) (hus : us <:+ ts)
    (hvs : vs <:+ ts) (hu : us ≠ []) (hv : vs ≠ []) (h : us.current.pos = vs.current.pos) : us = vs := by
  have hshorter : ∀ {us vs : TokenStream}, us <:+ ts → vs <:+ us → us ≠ [] → vs ≠ [] →
      us.current.pos = vs.current.pos → us = vs := by
    intro us vs hus hvs hu hv h
    obtain ⟨front, rfl⟩ := hvs
    cases front with
    | nil => rfl
    | cons t front =>
      obtain ⟨v, vs, rfl⟩ := List.exists_cons_of_ne_nil hv
      have hbefore := (List.pairwise_cons.1 (hpos.sublist hus.sublist)).1 v (by simp)
      exact absurd h hbefore.ne
  rcases List.suffix_or_suffix_of_suffix hus hvs with hle | hle
  · exact (hshorter hvs hle hv hu h.symm).symm
  · exact hshorter hus hle hu hv h

/-! ## Another name in a path -/

theorem TypeExpr.repath_self {path : String}
    (h : ∀ s arguments, (TypeExpr.reference pos s arguments).OccursIn t → s = path) :
    t.repath pos path = t := by
  induction t using induction_on_parts with
  | step t ih =>
    have hpart : ∀ u ∈ t.parts, u.repath pos path = u := fun u hu =>
      ih u hu fun s arguments hoccurs => h s arguments (hoccurs.tail hu)
    have hall : ∀ ts : List TypeExpr, (∀ u ∈ ts, u.repath pos path = u) → repathAll pos path ts = ts := by
      intro ts hts
      rw [repathAll_eq]
      exact (List.map_congr_left hts).trans (List.map_id' ts)
    cases t with
    | list p element => rw [repath, hpart element (List.mem_singleton.2 rfl)]
    | tuple p elements => rw [repath, hall elements hpart]
    | union p members => rw [repath, hall members hpart]
    | reference p s arguments =>
      rw [repath, hall arguments hpart]
      split
      · next hp =>
        subst hp
        rw [h s arguments .refl]
      · rfl
    | indexed p base => rw [repath, hpart base (List.mem_singleton.2 rfl)]
    | struct p fields spreads =>
      have hfields : ∀ f ∈ fields, f.repath pos path = f := by
        intro f hf
        rw [Field.repath, hpart f.type (List.mem_append_left _ (List.mem_map_of_mem hf))]
      rw [repath, repathFields_eq, hall spreads fun u hu => hpart u (List.mem_append_right _ hu),
        (List.map_congr_left hfields).trans (List.map_id' fields)]
    | _ => rfl

/-- All references at a position have the same path. -/
theorem Document.repath_self {path : String} (hwritten : ∀ decl ∈ doc.declarations, decl.isWritten = true)
    (h : ∀ decl ∈ doc.declarations, ∀ t ∈ decl.types, ∀ s arguments,
      (TypeExpr.reference pos s arguments).OccursIn t → s = path) : doc.repath pos path = doc := by
  have hdecls : ∀ decl ∈ doc.declarations, decl.repath pos path = decl := by
    intro decl hdecl
    have htypes : ∀ t ∈ decl.types, t.repath pos path = t := fun t ht =>
      TypeExpr.repath_self (h decl hdecl t ht)
    cases decl with
    | «alias» named => rw [Declaration.repath, htypes named.target (List.mem_singleton.2 rfl)]
    | anonymous type =>
      have hself : type.repath pos path = type := by
        apply TypeExpr.repath_self
        intro s arguments hoccurs
        rcases hoccurs.cases_parts with rfl | ⟨t, ht, hoccurs⟩
        · cases hwritten _ hdecl
        · exact h _ hdecl t ht s arguments hoccurs
      rw [Declaration.repath, hself]
    | dispatch p dispatcher indices target =>
      rw [Declaration.repath, htypes target (List.mem_singleton.2 rfl)]
    | «use» | injection => cases hwritten _ hdecl
  rw [Document.repath, (List.map_congr_left hdecls).trans (List.map_id' _)]

/-- The path is written at the start of the stream `ws`, which is the one of `ts` at the position. -/
structure IsPathAt (path : String) (pos : Position) (ts ws : TokenStream) : Prop where
  suffix : ws <:+ ts
  ended : Ended ws
  pos_eq : ws.current.pos = pos
  reads : Reads ws path
  names : pathNames path = pathValues ws
  isName : ∀ s ∈ pathValues ws, Lexeme.isName s = true

/-- The path of a reference is written at its position. -/
theorem exists_isPathAt {text path : String} (hscan : Token.scan text = .ok ts)
    (hdoc : Document.ofTokens ts = .ok doc) (hdecl : decl ∈ doc.declarations) (ht : t ∈ decl.types)
    (hoccurs : (TypeExpr.reference pos path arguments).OccursIn t) : ∃ ws, IsPathAt path pos ts ws := by
  have hend := Token.scan_ended hscan
  obtain ⟨ws, hws, hpos, hreads⟩ := exists_reads_of_occursIn hend (Token.docsEnded_of_scan hscan) hdoc hdecl
    ht hoccurs
  have hended := hend.of_suffix hws hreads.ne_nil
  obtain ⟨htext, htokens⟩ := eq_of_reads hended hreads
  have hnames : ∀ s ∈ pathValues ws, Lexeme.isName s = true := by
    intro s hs
    obtain ⟨j, hj⟩ := List.mem_iff_getElem?.1 hs
    obtain ⟨mids, u, more, rfl, -, hk, rfl⟩ := htokens j s hj
    have hallows := (Token.scan_legible hscan).allows u (hws.subset (by simp))
    rwa [hk] at hallows
  have hne : pathValues ws ≠ [] := by
    obtain ⟨u, more, rfl⟩ := List.exists_cons_of_ne_nil hreads.ne_nil
    cases more with
    | nil => simp [pathValues]
    | cons colons more =>
      rw [pathValues]
      split <;> simp
  refine ⟨ws, hws, hended, hpos, hreads, ?_, hnames⟩
  rw [htext, pathNames_intercalate hne hnames]

namespace IsPathAt

variable {path : String} {ws vs' : TokenStream} {j : Nat} {u u' : Token}

theorem text_eq (h : IsPathAt path pos ts ws) : path = "::".intercalate (pathValues ws) :=
  (eq_of_reads h.ended h.reads).1

theorem path_eq {path' : String} {ws' : TokenStream}
    (hpos : ts.Pairwise fun t u => t.pos.Before u.pos) (h : IsPathAt path pos ts ws)
    (h' : IsPathAt path' pos ts ws') : path' = path := by
  have hsame := eq_of_suffix_of_pos hpos h.suffix h'.suffix h.ended.ne_nil h'.ended.ne_nil
    (h.pos_eq.trans h'.pos_eq.symm)
  rw [h.text_eq, h'.text_eq, hsame]

theorem intercalate_set_ne {name : String} (h : IsPathAt path pos ts ws) (hj : j < (pathNames path).length)
    (hname : Lexeme.isName name = true) (hne : (pathNames path)[j]? ≠ some name) :
    path ≠ "::".intercalate ((pathNames path).set j name) := by
  intro heq
  have hall : ∀ s ∈ (pathNames path).set j name, Lexeme.isName s = true := by
    intro s hs
    rcases List.mem_or_eq_of_mem_set hs with hs | rfl
    · rw [h.names] at hs
      exact h.isName s hs
    · exact hname
  have hnames := pathNames_intercalate (List.ne_nil_of_length_pos (by simp; omega)) hall
  rw [← heq] at hnames
  apply hne
  rw [hnames, List.getElem?_set_self hj]

/-- With another name, the path that is read at the same place has another name. -/
theorem eq_of_refers {mids : TokenStream} {p' : Position} {s s' : String}
    (hpos : ts.Pairwise fun t u => t.pos.Before u.pos) (h : IsPathAt path pos ts (mids ++ u :: vs))
    (hlength : mids.length = 2 * j) (hj : j < (pathNames path).length)
    (hforms : vs'.map Token.form = vs.map Token.form) (hend : Ended (us ++ (mids ++ u' :: vs')))
    (hrefers : (rename u.value u'.value ts (us ++ (mids ++ u' :: vs'))).Refers pos s p' s') :
    s = path ∧ s' = "::".intercalate ((pathNames path).set j u'.value) := by
  obtain ⟨ws, ws', ⟨hws, hws', hsame⟩, hwsPos, -, hreads, hreads'⟩ := hrefers
  obtain rfl := eq_of_suffix_of_pos hpos hws h.suffix hreads.ne_nil h.ended.ne_nil
    (hwsPos.trans h.pos_eq.symm)
  have hbehind : mids ++ u' :: vs' <:+ us ++ (mids ++ u' :: vs') := List.suffix_append _ _
  have hlen : (mids ++ u' :: vs').length = ws'.length := by
    rw [← hsame, List.length_append, List.length_append, List.length_cons, List.length_cons,
      length_eq_of_forms hforms]
  obtain rfl := eq_of_suffix_of_length hbehind hws' hlen
  refine ⟨?_, ?_⟩
  · rw [(eq_of_reads h.ended hreads).1, ← h.text_eq]
  · rw [(eq_of_reads (hend.of_suffix hws' hreads'.ne_nil) hreads').1, h.names,
      pathValues_set hforms hlength (by rwa [← h.names])]

end IsPathAt

end McdocSchema
