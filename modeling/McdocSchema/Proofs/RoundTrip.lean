import Mathlib.Tactic.TFAE
import McdocSchema.Proofs.Compiled
import McdocSchema.Proofs.ReadBack

/-!
# Printed documents are parsed back

What is printed for the members of bodies, for declarations and for documents is parsed back, up to
positions. The documents for which this holds are all those that texts are compiled to
(`Document.isPrintable_tfae`).
-/

namespace McdocSchema

open TokenStream Form

namespace Parse

open Grammar (continuesType)

variable {α γ ι : Type} {n rounds : Nat} {ts mid rest : TokenStream}

/-! ## Bodies -/

variable {doc : Option String}

theorem skipNewlines_newline (h : Front [newline] ts rest) (hr : rest ≠ [])
    (hn : rest.current.kind ≠ .newline) : skipNewlines ts = .done () rest := by
  obtain ⟨t, rfl, ht⟩ := front_singleton_iff.1 h
  rw [skipNewlines_cons (kind_of_form ht) hr, skipNewlines_of_ne hn]

theorem memberDoc_of_front (h : Front (docLine doc) ts mid) (hm : mid ≠ [])
    (hn : mid.current.kind ≠ .newline) (hd : mid.current.kind ≠ .docComment) :
    memberDoc ts = .done doc mid := by
  cases doc with
  | none =>
    obtain rfl := front_nil_iff.1 h
    exact memberDoc_of_ne hd
  | some s =>
    obtain ⟨t, next, rfl, ht, h⟩ := front_cons_iff.1 h
    rw [memberDoc_cons (kind_of_form ht) (h.ne_nil hm) (skipNewlines_newline h hm hn),
      value_of_form ht]

theorem current_kind_docLine (h : Front (docLine doc) ts mid) :
    ts.current.kind = .docComment ∨ ts.current.kind = mid.current.kind := by
  cases doc with
  | none =>
    obtain rfl := front_nil_iff.1 h
    exact .inr rfl
  | some s =>
    obtain ⟨t, _, rfl, ht, -⟩ := front_cons_iff.1 h
    exact .inl (kind_of_form ht)

def startsMember (k : Token.Kind) : Bool :=
  k == .identifier || k == .ellipsis

theorem yields_member {item : Option String → Parse α} {fs : List Form}
    {Q : α → Prop} (hitem : Yields (item doc) fs (· = .comma) Q n)
    (hfirst : ∃ e es, fs = e :: es ∧ startsMember e.kind = true) :
    Yields (member item) (memberForms doc fs) (· ≠ .newline) (fun a => ∃ b, a = some b ∧ Q b) n := by
  intro ts rest hlen h hr hn
  obtain ⟨mid, hdoc, h⟩ := front_append_iff.1 h
  obtain ⟨last, hfront, h⟩ := front_append_iff.1 h
  obtain ⟨c, next, rfl, hc, h⟩ := front_cons_iff.1 h
  have hc : c.kind = .comma := kind_of_form hc
  have hmid : startsMember mid.current.kind = true := by
    obtain ⟨e, es, rfl, he⟩ := hfirst
    obtain ⟨t, _, rfl, ht, -⟩ := front_cons_iff.1 hfront
    rwa [current_cons, kind_of_form ht]
  have hm : mid ≠ [] := hfront.ne_nil (by simp)
  have hle : mid.length ≤ ts.length := by
    rw [hdoc.length_eq]
    omega
  have hcurrent : ts.current.kind ≠ .newline ∧ ts.current.kind ≠ .rightBrace := by
    rcases current_kind_docLine hdoc with hk | hk
    · rw [hk]
      decide
    · rw [hk]
      exact ⟨Text.ne_of_holds hmid (by decide), Text.ne_of_holds hmid (by decide)⟩
  obtain ⟨a, ha, hQ⟩ := hitem mid _ (by omega) hfront (by simp) (by rw [current_cons, hc])
  have hmember := memberDoc_of_front hdoc hm (Text.ne_of_holds hmid (by decide))
    (Text.ne_of_holds hmid (by decide))
  exact ⟨some a, member_some (skipNewlines_of_ne hcurrent.1) hcurrent.2 hmember ha
    (eat_comma_cons hc (h.ne_nil hr)) (skipNewlines_newline h hr hn), a, rfl, hQ⟩

theorem body_of_front {item : Option String → Parse α} {xs : List ι} {doc : ι → Option String}
    {g : ι → List Form} {r : α → γ} {s : ι → γ}
    (hitem : ∀ x ∈ xs, Yields (item (doc x)) (g x) (· = .comma) (r · = s x) n)
    (hfirst : ∀ x ∈ xs, ∃ e es, g x = e :: es ∧ startsMember e.kind = true)
    (h : Front (symbol .leftBrace ::
      (xs.flatMap (fun x => memberForms (doc x) (g x)) ++ [symbol .rightBrace])) ts rest)
    (hlen : ts.length ≤ n) (hn : n ≤ rounds) (hr : rest ≠ []) :
    ∃ as, body rounds item ts = .done as rest ∧ as.map r = xs.map s := by
  obtain ⟨t, mid, rfl, ht, h⟩ := front_cons_iff.1 h
  obtain ⟨last, hfront, h⟩ := front_append_iff.1 h
  obtain ⟨u, rfl, hu⟩ := front_singleton_iff.1 h
  have hu : u.kind = .rightBrace := kind_of_form hu
  have hstep : ∀ x ∈ xs, Yields (member item) (memberForms (doc x) (g x)) (· ≠ .newline)
      (Option.map r · = some (s x)) n := by
    intro x hx ts rest hlen h hr hn
    obtain ⟨_, ha, b, rfl, hb⟩ := yields_member (hitem x hx) (hfirst x hx) ts rest hlen h hr hn
    exact ⟨some b, ha, congrArg some hb⟩
  have hgoes : ∀ x ∈ xs, ∃ f fs, memberForms (doc x) (g x) = f :: fs ∧
      (f.kind != .rightBrace) = true ∧ f.kind ≠ .newline := by
    intro x hx
    obtain ⟨e, es, he, hk⟩ := hfirst x hx
    cases hd : doc x with
    | none =>
      refine ⟨e, es ++ [symbol .comma, newline], by simp [memberForms, docLine, he], ?_, ?_⟩
      · simpa using Text.ne_of_holds hk (by decide)
      · exact Text.ne_of_holds hk (by decide)
    | some d => exact ⟨_, _, rfl, rfl, by simp⟩
  rw [List.length_cons] at hlen
  obtain ⟨as, hc, hl, has⟩ := exists_chain (· != .rightBrace) hstep hgoes (by omega) hfront (by simp)
    (by rw [current_cons, hu]; decide) (by simp [hu])
  refine ⟨as.reduceOption, body_cons (kind_of_form ht) (hfront.ne_nil (by simp)) hc (by omega) hu hr,
    ?_⟩
  rw [← List.reduceOption_map, has, TypeExpr.reduceOption_map_some]

/-! ## Members -/

theorem yields_field {f : Field TypeExpr} (h : f.IsPrintable) :
    Yields (structItem (typeExpr n) f.doc) f.forms (· = .comma)
      (Sum.map Field.unplaced TypeExpr.unplaced · = .inl f.unplaced) n := by
  intro ts rest hlen hfront hr hf
  have hcomma : continuesType rest.current.kind = false := by
    rw [hf]
    rfl
  obtain ⟨t, mid, rfl, ht, hfront⟩ := front_cons_iff.1 hfront
  obtain ⟨next, hoptional, hfront⟩ := front_append_iff.1 hfront
  obtain ⟨u, last, rfl, hu, htype⟩ := front_cons_iff.1 hfront
  have hle : (u :: last).length ≤ mid.length := by
    rw [hoptional.length_eq]
    omega
  rw [List.length_cons] at hlen hle
  obtain ⟨a, ha, hunplaced⟩ := (f.type.readsBack h.isPrintable_type).typeExpr n last rest (by omega)
    htype hr hcomma
  refine ⟨.inl ⟨t.value, a, f.optional, f.doc⟩, ?_, ?_⟩
  · cases hq : f.optional with
    | false =>
      rw [hq] at hoptional
      obtain rfl := front_nil_iff.1 hoptional
      exact structItem_field (kind_of_form ht) (kind_of_form hu) (htype.ne_nil hr) ha
    | true =>
      rw [hq] at hoptional
      obtain ⟨v, rfl, hv⟩ := front_singleton_iff.1 hoptional
      exact structItem_optional (kind_of_form ht) (kind_of_form hv) (kind_of_form hu)
        (htype.ne_nil hr) ha
  · simp only [Sum.map_inl, Field.unplaced, hunplaced, value_of_form ht]
    rfl

theorem yields_spread {t : TypeExpr} (h : t.IsPrintable) :
    Yields (structItem (typeExpr n) none) (symbol .ellipsis :: t.forms) (· = .comma)
      (Sum.map Field.unplaced TypeExpr.unplaced · = .inr t.unplaced) n := by
  intro ts rest hlen hfront hr hf
  obtain ⟨u, mid, rfl, hu, hfront⟩ := front_cons_iff.1 hfront
  rw [List.length_cons] at hlen
  obtain ⟨a, ha, hunplaced⟩ := (t.readsBack h).typeExpr n mid rest (by omega) hfront hr
    (by rw [hf]; rfl)
  exact ⟨.inr a, structItem_spread (kind_of_form hu) (hfront.ne_nil hr) ha, congrArg Sum.inr hunplaced⟩

theorem yields_variant {v : Variant} (h : v.IsPrintable) :
    Yields (variant v.doc) v.forms (· = .comma) (id · = id v) n := by
  intro ts rest _ hfront hr hf
  obtain ⟨name, value, doc⟩ := v
  obtain ⟨t, mid, rfl, ht, hfront⟩ := front_cons_iff.1 hfront
  cases value with
  | none =>
    obtain rfl := front_nil_iff.1 hfront
    refine ⟨_, variant_plain (kind_of_form ht) hr (by rw [hf]; decide), ?_⟩
    rw [value_of_form ht]
    rfl
  | some k =>
    obtain ⟨u, _, rfl, hu, hfront⟩ := front_cons_iff.1 hfront
    obtain ⟨w, rfl, hw⟩ := front_singleton_iff.1 hfront
    have hread : Number.readInteger w.value = .ok k := by
      rw [value_of_form hw]
      exact Number.readInteger_intText (h.length_value k rfl)
    refine ⟨_, variant_value (kind_of_form ht) (kind_of_form hu) (kind_of_form hw) hread hr, ?_⟩
    rw [value_of_form ht]
    rfl

/-! ## Declarations -/

variable {decl : Declaration}

theorem bracketed_names_of_front {opening close : Token.Kind} {cause : ParseCause}
    {item : Parse Token} {ss : List String}
    (hitem : ∀ (t : Token) (rest : TokenStream), t.kind = .identifier → rest ≠ [] →
      item (t :: rest) = .done t rest)
    (hclose : close ≠ .identifier) (h : Front (enclose opening close (Form.names ss)) ts rest)
    (hlen : ts.length ≤ rounds) (hr : rest ≠ []) (hf : rest.current.kind ≠ opening) :
    bracketed rounds opening close cause item Token.value ts = .done ss rest := by
  have hyields : ∀ s ∈ ss,
      Yields item [name s] (fun _ => True) (fun t => id t.value = id s) rounds := by
    intro s _ ts rest _ h hr _
    obtain ⟨t, rfl, ht⟩ := front_singleton_iff.1 h
    exact ⟨t, hitem t rest (kind_of_form ht) hr, value_of_form ht⟩
  obtain ⟨as, ha, has⟩ := bracketed_of_front hyields (fun s _ => ⟨_, _, rfl, hclose.symm⟩) trivial h
    hlen (Nat.le_refl rounds) hr hf
  rw [List.map_id, List.map_id] at has
  rwa [has] at ha

/-- An alias and a dispatch are read back from a word, a name, names between two symbols, and a type
behind a second word or symbol. -/
theorem exists_named_of_front {α : Type} {word separator : Form} {s : String}
    {opening close : Token.Kind} {cause : ParseCause} {item : Parse Token} {ss : List String}
    {target : TypeExpr} {f : Position → String → List String → TypeExpr → α}
    (hitem : ∀ (t : Token) (rest : TokenStream), t.kind = .identifier → rest ≠ [] →
      item (t :: rest) = .done t rest)
    (hclose : close ≠ .identifier) (hs : separator.kind ≠ opening) (ht : target.IsPrintable)
    (h : Front (word :: name s ::
      (enclose opening close (Form.names ss) ++ separator :: target.forms)) ts rest)
    (hlen : ts.length < n) (hr : rest ≠ []) (hf : rest.current.kind = .newline) :
    ts.current.kind = word.kind ∧ ∃ pos a, a.unplaced = target.unplaced ∧
      named n word.kind separator.kind (bracketed n opening close cause item Token.value) f ts =
        .done (f pos s ss a) rest := by
  obtain ⟨t, _, rfl, hword, h⟩ := front_cons_iff.1 h
  obtain ⟨u, mid, rfl, hu, h⟩ := front_cons_iff.1 h
  obtain ⟨next, hnames, h⟩ := front_append_iff.1 h
  obtain ⟨v, last, rfl, hv, htarget⟩ := front_cons_iff.1 h
  have hle := hnames.length_eq
  rw [List.length_cons] at hle
  rw [List.length_cons, List.length_cons] at hlen
  have hrun : bracketed n opening close cause item Token.value mid = .done ss (v :: last) :=
    bracketed_names_of_front hitem hclose hnames (by omega) (by simp)
      (by rw [current_cons, kind_of_form hv]; exact hs)
  obtain ⟨a, ha, hunplaced⟩ := (target.readsBack ht).typeExpr n last rest (by omega) htarget hr
    (by rw [hf]; rfl)
  refine ⟨kind_of_form hword, t.pos, a, hunplaced, ?_⟩
  rw [named_cons (kind_of_form hword) (kind_of_form hu) (hnames.ne_nil (by simp)) hrun
    (kind_of_form hv) (htarget.ne_nil hr) ha, value_of_form hu]
  rfl

theorem yields_alias {decl : Alias} (h : decl.IsPrintable) :
    Yields (declaration n decl.doc) (Declaration.bareForms (.alias decl)) (· = .newline)
      (·.unplaced = (Declaration.alias decl).unplaced) n := by
  intro ts rest hlen hfront hr hf
  obtain ⟨hk, pos, a, hunplaced, hrun⟩ := exists_named_of_front
    (f := fun pos name parameters target => Alias.mk pos name parameters target none)
    (fun _ _ => consume_cons) (by decide) (by decide) h.isPrintable_target hfront hlen hr hf
  refine ⟨_, declaration_alias hk hrun, ?_⟩
  simp only [Declaration.unplaced, hunplaced]

theorem yields_dispatch {pos : Position} {dispatcher : String} {indices : List String}
    {target : TypeExpr} (h : target.IsPrintable) :
    Yields (declaration n none) (Declaration.bareForms (.dispatch pos dispatcher indices target))
      (· = .newline) (·.unplaced = (Declaration.dispatch pos dispatcher indices target).unplaced)
      n := by
  intro ts rest hlen hfront hr hf
  obtain ⟨hk, pos, a, hunplaced, hrun⟩ := exists_named_of_front (fun _ _ => consumeOr_cons)
    (by decide) (by decide) h hfront hlen hr hf
  refine ⟨_, declaration_dispatch hk hrun, ?_⟩
  simp only [Declaration.unplaced, hunplaced]

/-- The documentation and the tokens of a member of a struct: a field, or a type spread into it. -/
def structMember : Field TypeExpr ⊕ TypeExpr → Option String × List Form
  | .inl f => (f.doc, f.forms)
  | .inr t => (none, symbol .ellipsis :: t.forms)

theorem yields_struct {pos : Position} {fields : List (Field TypeExpr)} {spreads : List TypeExpr}
    (hfields : ∀ f ∈ fields, f.IsPrintable) (hspreads : ∀ t ∈ spreads, t.IsPrintable) :
    Yields (declaration n none) (Declaration.bareForms (.anonymous (.struct pos fields spreads)))
      (· = .newline) (·.unplaced = (Declaration.anonymous (.struct pos fields spreads)).unplaced)
      n := by
  intro ts rest hlen hfront hr hf
  obtain ⟨t, mid, rfl, ht, hfront⟩ := front_cons_iff.1 hfront
  have ht : t.kind = .struct := kind_of_form ht
  let members := fields.map Sum.inl ++ spreads.map Sum.inr
  have hmembers : Front (symbol .leftBrace :: (members.flatMap (fun x =>
      memberForms (structMember x).1 (structMember x).2) ++ [symbol .rightBrace])) mid rest := by
    simpa [members, List.flatMap_append, List.flatMap_map, structMember] using hfront
  have hitem : ∀ x ∈ members, Yields (structItem (typeExpr n) (structMember x).1)
      (structMember x).2 (· = .comma) (Sum.map Field.unplaced TypeExpr.unplaced · =
        Sum.map Field.unplaced TypeExpr.unplaced x) n := by
    intro x hx
    rcases List.mem_append.1 hx with hx | hx
    · obtain ⟨f, hf, rfl⟩ := List.mem_map.1 hx
      exact yields_field (hfields f hf)
    · obtain ⟨t, ht, rfl⟩ := List.mem_map.1 hx
      exact yields_spread (hspreads t ht)
  have hfirst : ∀ x ∈ members, ∃ e es, (structMember x).2 = e :: es ∧
      startsMember e.kind = true := by
    rintro (f | t) _ <;> exact ⟨_, _, rfl, rfl⟩
  rw [List.length_cons] at hlen
  obtain ⟨as, ha, has⟩ := body_of_front hitem hfirst hmembers (by omega) (Nat.le_refl n) hr
  refine ⟨_, declaration_struct (by rw [current_cons, ht])
    (structType_cons ht (hmembers.ne_nil hr) ha), ?_⟩
  have hleft := congrArg (List.filterMap Sum.getLeft?) has
  have hright := congrArg (List.filterMap Sum.getRight?) has
  rw [filterMap_getLeft?_map, filterMap_getLeft?_map] at hleft
  rw [filterMap_getRight?_map, filterMap_getRight?_map] at hright
  have hfields' : members.filterMap Sum.getLeft? = fields := by
    simp [members, Function.comp_def]
  have hspreads' : members.filterMap Sum.getRight? = spreads := by
    simp [members, Function.comp_def]
  simp only [Declaration.unplaced, TypeExpr.unplaced, TypeExpr.unplacedAll_eq,
    TypeExpr.unplacedFields_eq, hleft, hright, hfields', hspreads']

theorem yields_enum {pos : Position} {variants : List Variant}
    (hvariants : ∀ v ∈ variants, v.IsPrintable) :
    Yields (declaration n none) (Declaration.bareForms (.anonymous (.enum pos variants)))
      (· = .newline) (·.unplaced = (Declaration.anonymous (.enum pos variants)).unplaced) n := by
  intro ts rest hlen hfront hr hf
  obtain ⟨t, mid, rfl, ht, hfront⟩ := front_cons_iff.1 hfront
  have ht : t.kind = .enum := kind_of_form ht
  rw [List.length_cons] at hlen
  obtain ⟨as, ha, has⟩ := body_of_front (fun v hv => yields_variant (hvariants v hv))
    (fun v _ => ⟨_, _, rfl, rfl⟩) hfront (by omega) (Nat.le_refl n) hr
  rw [List.map_id, List.map_id] at has
  subst has
  exact ⟨_, declaration_enum (by rw [current_cons, ht])
    (enumType_cons ht (hfront.ne_nil hr) ha), rfl⟩

def startsDeclaration (k : Token.Kind) : Bool :=
  k == .type || k == .struct || k == .enum || k == .dispatch

theorem exists_bareForms_eq_cons (h : decl.IsPrintable) :
    ∃ f fs, decl.bareForms = f :: fs ∧ startsDeclaration f.kind = true := by
  cases decl with
  | anonymous type =>
    cases type with
    | struct pos fields spreads => exact ⟨_, _, rfl, rfl⟩
    | enum pos variants => exact ⟨_, _, rfl, rfl⟩
    | _ => exact False.elim h
  | use pos path name => exact False.elim h
  | injection pos path fields => exact False.elim h
  | _ => exact ⟨_, _, rfl, rfl⟩

/-- Every declaration that can be printed is parsed back, up to its documentation. -/
theorem yields_declaration (h : decl.IsPrintable) :
    Yields (declaration n decl.doc) decl.bareForms (· = .newline) (·.unplaced = decl.unplaced) n := by
  cases decl with
  | «alias» decl => exact yields_alias h
  | anonymous type =>
    cases type with
    | struct pos fields spreads => exact yields_struct h.1 h.2
    | enum pos variants => exact yields_enum h
    | _ => exact False.elim h
  | dispatch pos dispatcher indices target => exact yields_dispatch h.2.2
  | use pos path name => exact False.elim h
  | injection pos path fields => exact False.elim h

/-! ## Documents -/

theorem joinedDoc_singleton {s : String} (h : s ≠ "") : joinedDoc [s] = some s := by
  rw [joinedDoc, String.intercalate_singleton, if_neg (by simpa using h)]

theorem declarationDoc_of_front (hd : ∀ s ∈ doc, s ≠ "")
    (h : Front (docLine doc) ts mid) (hm : mid ≠ []) (hn : mid.current.kind ≠ .newline)
    (hk : mid.current.kind ≠ .docComment) : declarationDoc ts = .done doc mid := by
  cases doc with
  | none =>
    obtain rfl := front_nil_iff.1 h
    exact declarationDoc_of_ne hk
  | some s =>
    obtain ⟨t, next, rfl, ht, h⟩ := front_cons_iff.1 h
    have hnext : next.current.kind = .newline := by
      obtain ⟨u, rfl, hu⟩ := front_singleton_iff.1 h
      exact kind_of_form hu
    have ht' : t.kind = .docComment := kind_of_form ht
    have hlines : docLines ([t] ++ next) = .done ([t].map Token.value) next :=
      docLines_append (by simpa using ht') (h.ne_nil hm) (by rw [hnext]; decide)
    have hdoc := declarationDoc_of_lines (by rw [List.singleton_append, current_cons, ht']) hlines
      (skipNewlines_newline h hm hn)
    rw [List.map_singleton, value_of_form ht, joinedDoc_singleton (hd s rfl)] at hdoc
    exact hdoc

theorem yields_declaration? (h : decl.IsPrintable) :
    Yields (declaration? n) decl.forms (· ≠ .newline)
      (Option.map Declaration.unplaced · = some decl.unplaced) n := by
  intro ts rest hlen hfront hr hn
  obtain ⟨mid, hdoc, hfront⟩ := front_append_iff.1 hfront
  obtain ⟨last, hbare, hnewline⟩ := front_append_iff.1 hfront
  have hlast : last.current.kind = .newline := by
    obtain ⟨u, rfl, hu⟩ := front_singleton_iff.1 hnewline
    exact kind_of_form hu
  have hmid : startsDeclaration mid.current.kind = true := by
    obtain ⟨f, fs, hfs, hk⟩ := exists_bareForms_eq_cons h
    rw [hfs] at hbare
    obtain ⟨t, _, rfl, ht, -⟩ := front_cons_iff.1 hbare
    rwa [current_cons, kind_of_form ht]
  have hl : last ≠ [] := hnewline.ne_nil hr
  have hle : mid.length ≤ ts.length := by
    rw [hdoc.length_eq]
    omega
  have hcurrent : ts.current.kind ≠ .newline ∧ ts.current.kind ≠ .eof := by
    rcases current_kind_docLine hdoc with hk | hk
    · rw [hk]
      decide
    · rw [hk]
      exact ⟨Text.ne_of_holds hmid (by decide), Text.ne_of_holds hmid (by decide)⟩
  obtain ⟨a, ha, hunplaced⟩ := @yields_declaration n decl h mid last (by omega) hbare hl hlast
  have hdocRun := declarationDoc_of_front (fun s hs => (Declaration.isLine_doc h s hs).2) hdoc
    (hbare.ne_nil hl) (Text.ne_of_holds hmid (by decide)) (Text.ne_of_holds hmid (by decide))
  exact ⟨some a, declaration?_some (skipNewlines_of_ne hcurrent.1) hcurrent.2 hdocRun ha
    (skipNewlines_newline hnewline hr hn), congrArg some hunplaced⟩

theorem exists_forms_eq_cons (h : decl.IsPrintable) :
    ∃ f fs, decl.forms = f :: fs ∧ (f.kind != .eof) = true ∧ f.kind ≠ .newline := by
  obtain ⟨f, fs, hfs, hk⟩ := exists_bareForms_eq_cons h
  cases hd : decl.doc with
  | none =>
    refine ⟨f, fs ++ [newline], by rw [Declaration.forms, hd, hfs]; rfl, ?_, ?_⟩
    · simpa using Text.ne_of_holds hk (by decide)
    · exact Text.ne_of_holds hk (by decide)
  | some s => exact ⟨⟨.docComment, s⟩, _, by rw [Declaration.forms, hd]; rfl, rfl, by simp⟩

/-- The tokens of a printed document make the document again, up to positions. -/
theorem ofTokens_of_front {doc : Document} (h : doc.IsPrintable) {last : Token}
    (hlast : last.kind = .eof) (hfront : Front (doc.declarations.flatMap Declaration.forms) ts [last]) :
    ∃ doc', Document.ofTokens ts = .ok doc' ∧ doc'.unplaced = doc.unplaced := by
  obtain ⟨as, hc, hl, has⟩ := exists_chain (· != .eof)
    (fun decl hd => yields_declaration? (h.declarations decl hd))
    (fun decl hd => exists_forms_eq_cons (h.declarations decl hd)) (Nat.lt_succ_self _) hfront
    (by simp) (by rw [current_cons, hlast]; decide) (by simp [hlast])
  refine ⟨{ declarations := as.reduceOption }, ?_, ?_⟩
  · have hrun : document (roundsFor ts) ts = .done { declarations := as.reduceOption } [last] :=
      document_of_chain hc (by rw [roundsFor]; omega)
    rw [Document.ofTokens, bounded, hrun]
    rfl
  · have hdeclarations : as.reduceOption.map Declaration.unplaced =
        doc.declarations.map Declaration.unplaced := by
      rw [← List.reduceOption_map, has, TypeExpr.reduceOption_map_some]
    rw [Document.unplaced, Document.unplaced, hdeclarations, h.docs]

end Parse

namespace Document

theorem exists_ofString_print {doc : Document} (h : doc.IsPrintable) :
    ∃ doc', ofString doc.print = .ok doc' ∧ doc'.unplaced = doc.unplaced := by
  obtain ⟨ts, hscan, hts⟩ := scan_print h
  obtain ⟨w, v, rfl, hw, hv⟩ := List.map_eq_append_iff.1 hts
  obtain ⟨last, rfl, hlast⟩ := List.map_eq_singleton_iff.1 hv
  obtain ⟨doc', hdoc, hunplaced⟩ := Parse.ofTokens_of_front h (kind_of_form hlast) ⟨w, rfl, hw⟩
  refine ⟨doc', ?_, hunplaced⟩
  rw [ofString, hscan]
  dsimp only
  rw [hdoc]

/-- **Printing and compiling.** A document that can be printed is compiled from its printed text again,
up to positions, and the documents that can be printed are all those that texts are compiled to. -/
theorem isPrintable_tfae (doc : Document) :
    [doc.IsPrintable,
      ∃ doc', ofString doc.print = .ok doc' ∧ doc'.unplaced = doc.unplaced,
      ∃ text doc', ofString text = .ok doc' ∧ doc'.unplaced = doc.unplaced].TFAE := by
  tfae_have 1 → 2 := exists_ofString_print
  tfae_have 2 → 3 := by
    intro h
    exact ⟨doc.print, h⟩
  tfae_have 3 → 1 := by
    rintro ⟨text, doc', hdoc, hunplaced⟩
    have hprintable := isPrintable_unplaced.2 (isPrintable_of_ofString hdoc)
    rw [hunplaced] at hprintable
    exact isPrintable_unplaced.1 hprintable
  tfae_finish

open Number in
/-- A document with unions in a union, short tuples, ranges without a lower bound and with an infinite
one, indices, and a string in which all but one character have to be escaped. -/
def intricate : Document where
  declarations :=
    [.alias
      { pos := .start, name := "Shape", parameters := ["T", "%q"], doc := some "/ a shape"
        target := .union .start
          [.union .start [.tuple .start [], .tuple .start [.any .start]],
            .list .start (.literal .start (.text "\"\\\n\x00") none)
              (some ⟨none, some (.infinity true), true, false⟩),
            .indexed .start
              (.reference .start "ns::Map" [.numeric .start "float"
                (some ⟨some (.finite false (2 ^ 52 + 2 ^ 51) (-52)), none, false, true⟩)])
              [.key "%fallback", .key "k"]] },
      .anonymous (.struct .start [⟨"a", .boolean .start, true, some ""⟩] [.reference .start "b" []]),
      .anonymous (.enum .start [⟨"c", some (-1), none⟩])]

open Number in
theorem isPrintable_tfae_intricate :
    intricate.IsPrintable ∧
      ∃ doc', ofString intricate.print = .ok doc' ∧ doc'.unplaced = intricate.unplaced := by
  have hinfinity : IsBound (.infinity true) := isBound_iff.2 trivial
  have hfinite : IsBound (.finite false (2 ^ 52 + 2 ^ 51) (-52)) :=
    isBound_iff.2 ⟨by decide, by decide, by decide, by decide⟩
  have hsize : NumberRange.IsPrintable ⟨none, some (.infinity true), true, false⟩ :=
    ⟨by simp, by simpa using hinfinity, by simp, by simp⟩
  have hrange : NumberRange.IsPrintable
      ⟨some (.finite false (2 ^ 52 + 2 ^ 51) (-52)), none, false, true⟩ :=
    ⟨by simpa using hfinite, by simp, by simp, by simp⟩
  have hpath : IsPath "ns::Map" := ⟨["ns", "Map"], by decide, by decide, by decide⟩
  have hkeys : Lexeme.isKey "%fallback" = true ∧ Lexeme.isKey "k" = true := by decide
  have hspread : IsPath "b" := ⟨["b"], by decide, by decide, by decide⟩
  have hprintable : intricate.IsPrintable := by
    refine ⟨?_, rfl⟩
    simp only [intricate, List.forall_mem_cons]
    refine ⟨⟨by decide, by decide, ?_, by decide⟩, ⟨?_, ?_⟩, ?_, by simp⟩
    · refine ⟨by decide, ⟨by decide, trivial, ⟨trivial, trivial⟩, trivial⟩,
        ⟨⟨by decide, rfl⟩, by simpa using hsize⟩, ⟨rfl, ⟨hpath, ?_, trivial⟩, by decide, ?_⟩, trivial⟩
      · exact ⟨by decide, by simpa using hrange⟩
      · exact List.forall_mem_cons.2 ⟨hkeys.1, List.forall_mem_singleton.2 hkeys.2⟩
    · exact List.forall_mem_singleton.2 ⟨by decide, trivial, by decide⟩
    · exact List.forall_mem_singleton.2 ⟨hspread, trivial⟩
    · exact List.forall_mem_singleton.2 ⟨by decide, by decide, by decide⟩
  exact ⟨hprintable, ((isPrintable_tfae intricate).out 0 1).1 hprintable⟩

end Document

end McdocSchema
