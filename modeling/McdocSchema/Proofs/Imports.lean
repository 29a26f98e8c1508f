import McdocSchema.Proofs.CorrectPrefix

/-!
# Imports

An import is read as far as its path goes and then refused. A document is refused in this way exactly
where it comes to an import behind declarations that are complete (`document_importAlias_iff`). The grammar
has no import in it, so that no list of tokens with the word of one makes a document
(`ofTokens_ne_ok_of_use`).
-/

namespace McdocSchema

namespace Ebnf

variable {N : Type} {k : Token.Kind} {rules : N → Ebnf N} {a b e : Ebnf N} {S : N → Prop}

/-- No token of the kind is named in the expression, and its rules are among those of `S`. -/
def Avoids (k : Token.Kind) (S : N → Prop) : Ebnf N → Prop
  | .empty => True
  | .token accepts => ∀ t : Token, accepts t = true → t.kind ≠ k
  | .rule n => S n
  | .seq a b => a.Avoids k S ∧ b.Avoids k S
  | .alt a b => a.Avoids k S ∧ b.Avoids k S
  | .many a => a.Avoids k S

@[simp] theorem avoids_kind {j : Token.Kind} : (kind j : Ebnf N).Avoids k S ↔ j ≠ k := by
  constructor
  · intro h
    exact h ⟨j, "", .start⟩ (beq_self_eq_true j)
  · intro h t ht
    rwa [eq_of_beq ht]

@[simp] theorem avoids_rule {n : N} : (rule n).Avoids k S ↔ S n := Iff.rfl

@[simp] theorem avoids_append : (a ++ b).Avoids k S ↔ a.Avoids k S ∧ b.Avoids k S := Iff.rfl

@[simp] theorem avoids_or : (a ||| b).Avoids k S ↔ a.Avoids k S ∧ b.Avoids k S := Iff.rfl

@[simp] theorem avoids_many : (many e).Avoids k S ↔ e.Avoids k S := Iff.rfl

@[simp] theorem avoids_opt : (opt e).Avoids k S ↔ e.Avoids k S :=
  and_iff_left trivial

/-- A kind that no rule names is the kind of no token that is derived. -/
theorem Avoids.kind_ne (hrules : ∀ n, S n → (rules n).Avoids k S) (he : e.Avoids k S)
    {w : List Token} (h : Derives rules e w) : ∀ t ∈ w, t.kind ≠ k := by
  induction h with
  | empty | manyNil => simp
  | token h => exact List.forall_mem_singleton.2 (he _ h)
  | rule h ih => exact ih (hrules _ he)
  | seq _ _ ihu ihv => exact List.forall_mem_append.2 ⟨ihu he.1, ihv he.2⟩
  | left _ ih => exact ih he.1
  | right _ ih => exact ih he.2
  | manyCons _ _ ihu ihv => exact List.forall_mem_append.2 ⟨ihu he, ihv he⟩

end Ebnf

namespace Grammar

open Ebnf Parse TokenStream

variable {ts mid rest : TokenStream} {rounds : Nat} {k : Token.Kind} {w : List Token}

/-- The rules in front of the end of the text name neither imports nor the end of the text. -/
theorem avoids_rules (hk : k = .use ∨ k = .eof) (n : Rule) (hn : n ≠ .document) :
    (rules n).Avoids k (· ≠ .document) := by
  have htoken : ∀ accepts ∈ [isBound, isVariantValue, isNumericWord, isLiteral, isIndexKey],
      (token accepts : Ebnf Rule).Avoids k (· ≠ .document) := by
    simp only [List.forall_mem_cons, List.not_mem_nil, false_implies, implies_true, and_true]
    refine ⟨?_, ?_, ?_, ?_, ?_⟩ <;> rintro t ht heq <;> rcases hk with rfl | rfl <;>
      simp [isBound, isVariantValue, isNumericWord, isLiteral, isIndexKey, heq, Token.Kind.isNumber,
        Token.Kind.isNumericType, Token.Kind.isSpecialKey] at ht
  simp only [List.forall_mem_cons, List.not_mem_nil, false_implies, implies_true, and_true] at htoken
  obtain ⟨hbound, hvalue, hnumeric, hliteral, hkey⟩ := htoken
  cases n with
  | document => exact absurd rfl hn
  | _ =>
    rcases hk with rfl | rfl <;>
      simp [rules, body, structItem, variant, bounds, parenthesized, reference, Grammar.path, newlines,
        commaList, oneOrMore, hbound, hvalue, hnumeric, hliteral, hkey]

/-! ## The way to an import -/

/-- From `ts` a document comes to an import, and `rest` is behind its path: there are declarations with
line breaks and documentation in front of it, and no path goes on with what is behind it. -/
def ReachesImport (ts rest : TokenStream) : Prop :=
  ∃ word afterWord, Spans rules (newlines ++ many declarationLines
      ++ opt (oneOrMore (kind .docComment) ++ newlines)) ts (word :: afterWord) ∧
    word.kind = .use ∧ Spans rules Grammar.path afterWord rest ∧ rest.current.kind ≠ .doubleColon

/-- In front of the end of the text a parser that is local fails because of a token. -/
theorem isFound_of_failed {α : Type} {I : ParseFault → Prop} {d : Nat} {g : Seam → α → α} {p : Parse α}
    {fault : ParseFault}
    (h : ∀ J : Seam, J.Uniform → Local J I (· = ts.current.kind) ts.length d (g J) p p) (hts : Ended ts)
    (hfail : p ts = .failed fault rest) : fault.IsFound ts I := by
  obtain ⟨front, last, rfl, hlast, -⟩ := hts
  have hlocal := h (.atEnd last [] hlast) rfl
  have hleaves := hlocal.leaves (front ++ [last])
  have htracks := hlocal.tracks front (by simp) rfl
  rw [hfail] at hleaves
  rw [Seam.before, Seam.atEnd, hfail] at htracks
  obtain hpast | ⟨_, left, -, rfl⟩ := Seam.exists_of_suffix (J := .atEnd last [] hlast) hleaves.1
  · exact absurd (List.length_eq_zero_iff.1 (Nat.lt_one_iff.1 hpast)) (hleaves.2 (by simp))
  · exact (htracks.of_failed (J := .atEnd last [] hlast) rfl).2

theorem ne_failed_importAlias {α : Type} {d : Nat} {g : Seam → α → α} {p : Parse α}
    (h : ∀ J : Seam, J.Uniform →
      Local J (fun _ => False) (· = ts.current.kind) ts.length d (g J) p p)
    (hts : Ended ts) : p ts ≠ .failed .importAlias rest := by
  intro hfail
  obtain hfalse | ⟨_, -, hfalse⟩ := isFound_of_failed h hts hfail <;> exact hfalse

theorem useStatement_importAlias (hts : Ended ts) (hlen : ts.length ≤ rounds)
    (h : useStatement rounds ts = .failed .importAlias rest) :
    ∃ word afterWord, ts = word :: afterWord ∧ word.kind = .use ∧
      Spans rules Grammar.path afterWord rest ∧ rest.current.kind ≠ .doubleColon := by
  rcases bind_failed h with hword | ⟨_, afterWord, hword, h⟩
  · exact absurd (map_failed hword) (ne_failed_importAlias (fun _ _ => local_word (by decide)) hts)
  obtain ⟨word, hword, -⟩ := map_done_iff.1 hword
  obtain ⟨hk, hcurrent, hbehind⟩ := consume_done_iff.1 hword
  obtain ⟨hcons, hended⟩ := hts.behind (by rw [hk]; decide)
  rw [hcurrent, hbehind] at hcons
  rw [hbehind] at hended
  have hlength : afterWord.length ≤ rounds := by
    have := congrArg List.length hcons
    rw [List.length_cons] at this
    omega
  rcases bind_failed h with hpath | ⟨_, last, hpath, h⟩
  · refine absurd (map_failed hpath) (ne_failed_importAlias (fun _ _ => local_path ?_ ?_) hended)
    · omega
    · omega
  obtain ⟨name, hpath, -⟩ := map_done_iff.1 hpath
  cases h
  refine ⟨word, afterWord, hcons, by rw [← hcurrent, hk], (reads_path.parsed _ _ _ hended hpath).1, ?_⟩
  obtain ⟨first, behindFirst, -, hothers⟩ := bind_done_iff.1 hpath
  obtain ⟨others, behindOthers, hrepeat, hpure⟩ := bind_done_iff.1 hothers
  obtain ⟨-, rfl⟩ := pure_done_iff.1 hpure
  simpa using (chain_of_repeatWhile hrepeat).stops

theorem declaration?_importAlias (hts : Ended ts) (hlen : ts.length ≤ rounds)
    (h : declaration? rounds ts = .failed .importAlias rest) :
    ∃ word afterWord, Spans rules (newlines ++ opt (oneOrMore (kind .docComment) ++ newlines)) ts
        (word :: afterWord) ∧
      word.kind = .use ∧ Spans rules Grammar.path afterWord rest ∧
      rest.current.kind ≠ .doubleColon := by
  rw [declaration?] at h
  rcases bind_failed h with h | ⟨_, ts₁, hskip, h⟩
  · exact absurd h (ne_failed_importAlias (fun _ => local_skipNewlines) hts)
  obtain ⟨hlines, h₁⟩ := parsed_skipNewlines _ _ _ hts hskip
  have hlen₁ := hlines.length_le
  rw [sees_bind] at h
  split at h
  · cases h
  rcases bind_failed h with h | ⟨doc, ts₂, hdoc, h⟩
  · exact absurd h (ne_failed_importAlias (fun _ => local_declarationDoc) h₁)
  obtain ⟨hdocs, h₂⟩ := reads_declarationDoc.parsed _ _ _ h₁ hdoc
  have hlen₂ := hdocs.length_le
  rcases bind_failed h with h | ⟨decl, ts₃, hdecl, h⟩
  · by_cases hk : ts₂.current.kind = .use
    · have huse : useStatement rounds ts₂ = .failed .importAlias rest := by
        rw [declaration, current_bind, hk] at h
        exact h
      obtain ⟨word, afterWord, rfl, hrest⟩ := useStatement_importAlias h₂ (by omega) huse
      exact ⟨word, afterWord, hlines.append hdocs, hrest⟩
    · refine absurd h (ne_failed_importAlias (fun J hJ => local_declaration doc (absurd hJ) ?_ ?_ ?_) h₂)
      · rintro k rfl huse
        exact hk huse
      · omega
      · omega
  · obtain ⟨-, h₃⟩ := (reads_declaration doc).parsed _ _ _ h₂ hdecl
    rcases bind_failed h with h | ⟨_, ts₄, -, h⟩
    · exact absurd h (ne_failed_importAlias (fun _ => local_skipNewlines) h₃)
    · cases h

theorem reachesImport_of_document (hts : Ended ts) (hlen : ts.length ≤ rounds)
    (h : document rounds ts = .failed .importAlias rest) : ReachesImport ts rest := by
  rcases bind_failed h with h | ⟨declarations, mid, -, h⟩
  · obtain ⟨mid, hrounds, -, -, hfail⟩ := repeatFrom_failed (by simp) h
    obtain ⟨hmany, hmid⟩ := spans_many_of_rounds
      (fun _ _ _ _ => spans_betweenBreaks reads_declarationLine) hts hrounds
    have hlen' := hmany.length_le
    obtain ⟨word, afterWord, hspan, hrest⟩ := declaration?_importAlias hmid (by omega) hfail
    obtain ⟨next, hlines, hdocs⟩ := spans_append_iff.1 hspan
    have hfront := spans_lines_of_many hmany (hlines.append (spans_many_nil next))
    exact ⟨word, afterWord, hfront.append hdocs, hrest⟩
  · cases h

/-! ## The way back -/

theorem goesOn_of_newlines (hlines : Spans rules newlines ts mid)
    (hmid : mid.current.kind = .docComment ∨ startsDeclaration mid.current.kind) :
    (ts.current.kind != .eof) = true := by
  rcases newline_of_spans_newlines hlines with rfl | ⟨hnl, -⟩
  · rcases hmid with hk | hk
    · simp [hk]
    · simpa using (ne_of_startsDeclaration hk).2.2
  · simp [hnl]

/-- Declarations are rounds, each with the line breaks behind it. -/
theorem exists_rounds_of_declarations (hlen : ts.length < rounds)
    (hlines : Spans rules newlines ts mid) (hmany : Spans rules (many declarationLines) mid rest)
    (hr : rest ≠ []) (hf : rest.current.kind = .docComment ∨ startsDeclaration rest.current.kind) :
    ∃ next, Relation.ReflTransGen (Round (· != .eof) (declaration? rounds)) ts next ∧
      next.length < rounds ∧ Spans rules newlines next rest := by
  rw [spans_many_iff] at hmany
  induction hmany using Relation.ReflTransGen.head_induction_on generalizing ts with
  | refl => exact ⟨ts, .refl, hlen, hlines⟩
  | @head mid next hdecl hmany ih =>
    have hmany := spans_many_iff.2 hmany
    have hnext : next.current.kind = .docComment ∨ startsDeclaration next.current.kind := by
      rcases spans_many_iff_cons.1 hmany with rfl | ⟨last, hlast, -⟩
      · exact hf
      · exact (starts_declarationLines next last hlast).1
    obtain ⟨hstart, -⟩ := starts_declarationLines mid next hdecl
    obtain ⟨decl, hdone⟩ := declaration?_of_spans (Nat.le_refl rounds) hlen hlines hdecl
      (Spans.ne_nil hmany hr) (.inr hnext)
    have hround : Round (· != .eof) (declaration? rounds) ts next :=
      ⟨goesOn_of_newlines hlines hstart, ⟨some decl, hdone⟩,
        goesOn_of_newlines (spans_many_nil next) hnext⟩
    have hle := hlines.length_le
    have hle' := hdecl.length_le
    obtain ⟨last, hrounds, hlast⟩ := ih (by omega) (spans_many_nil next)
    exact ⟨last, .head hround hrounds, hlast⟩

theorem repeatFrom_of_rounds {α : Type} {goesOn : Token.Kind → Bool} {step : Parse α}
    {fault : ParseFault} (h : Relation.ReflTransGen (Round goesOn step) ts mid)
    (hgoes : goesOn mid.current.kind = true) (hfail : step mid = .failed fault rest)
    (found : List α) (rounds : Nat) :
    repeatFrom goesOn step found rounds ts = .failed fault rest ∨
      ∃ last, repeatFrom goesOn step found rounds ts = .failed .endless last := by
  induction h using Relation.ReflTransGen.head_induction_on generalizing found rounds with
  | refl =>
    cases rounds with
    | zero => exact .inr ⟨mid, by simp [repeatFrom, hgoes]⟩
    | succ rounds =>
      rw [repeatFrom_succ hgoes, hfail]
      exact .inl rfl
  | @head ts next hround _ ih =>
    obtain ⟨hg, ⟨a, ha⟩, -⟩ := hround
    cases rounds with
    | zero => exact .inr ⟨ts, by simp [repeatFrom, hg]⟩
    | succ rounds =>
      rw [repeatFrom_succ hg, ha]
      exact ih (a :: found) rounds

theorem declaration?_of_import {word : Token} {afterWord : TokenStream} (hlen : ts.length < rounds)
    (hlines : Spans rules newlines ts mid)
    (hdocs : Spans rules (opt (oneOrMore (kind .docComment) ++ newlines)) mid (word :: afterWord))
    (hword : word.kind = .use) (hpath : Spans rules Grammar.path afterWord rest) (hr : rest ≠ [])
    (hcolon : rest.current.kind ≠ .doubleColon) :
    declaration? rounds ts = .failed .importAlias rest := by
  have hstart : startsDeclaration (TokenStream.current (word :: afterWord)).kind :=
    .inr (.inr (.inr (.inr hword)))
  obtain ⟨hneEof, hnl, doc, hdoc⟩ := declarationDoc_of_spans hdocs (by simp) hstart
  have hskip := skipNewlines_of_spans hlines (Spans.ne_nil hdocs (by simp)) hnl
  have hle := hlines.length_le
  have hle' := hdocs.length_le
  rw [List.length_cons] at hle'
  obtain ⟨name, hname⟩ := accepts_path (Nat.le_refl rounds) afterWord rest (by omega) hpath hr hcolon
  have huse : useStatement rounds (word :: afterWord) = .failed .importAlias rest := by
    rw [useStatement, discard_bind_of_done (consume_cons hword (Spans.ne_nil hpath hr)),
      discard_bind_of_done hname]
    rfl
  have hdecl : declaration rounds doc (word :: afterWord) = .failed .importAlias rest := by
    rw [declaration, current_bind, current_cons, hword]
    exact huse
  rw [declaration?, bind_of_done hskip, sees_bind, if_neg (by simpa using hneEof), bind_of_done hdoc,
    bind_apply, hdecl]

/-- The stream behind the path of an import still ends with the end of the text. -/
theorem ReachesImport.ended (h : ReachesImport ts rest) (hts : Ended ts) : Ended rest := by
  obtain ⟨word, _, ⟨w, rfl, hw⟩, hword, ⟨v, rfl, hv⟩, -⟩ := h
  have hne : ∀ {e : Ebnf Rule} {u : List Token}, e.Avoids .eof (· ≠ .document) → Derives rules e u →
      ∀ t ∈ u, t.kind ≠ .eof :=
    fun he hu => he.kind_ne (avoids_rules (.inr rfl)) hu
  have hfront := hne (by simp [declarationLines, newlines, oneOrMore]) hw
  have hpath := hne (by simp [Grammar.path]) hv
  have hword' : word.kind ≠ .eof := by simp [hword]
  exact ((hts.of_append hfront).tail hword').of_append hpath

theorem document_of_reachesImport (hts : Ended ts) (hlen : ts.length < rounds)
    (h : ReachesImport ts rest) : document rounds ts = .failed .importAlias rest := by
  have hr := (h.ended hts).ne_nil
  obtain ⟨word, afterWord, hspan, hword, hpath, hcolon⟩ := h
  obtain ⟨next, hdecls, hdocs⟩ := spans_append_iff.1 hspan
  obtain ⟨mid, hlines, hmany⟩ := spans_append_iff.1 hdecls
  have hne : next ≠ [] := Spans.ne_nil hdocs (by simp)
  have hstart : startsDeclaration (TokenStream.current (word :: afterWord)).kind :=
    .inr (.inr (.inr (.inr hword)))
  have hnext : next.current.kind = .docComment ∨ startsDeclaration next.current.kind := by
    rcases spans_opt_iff.1 hdocs with hd | rfl
    · obtain ⟨last, hfirst, -⟩ := spans_append_iff.1 hd
      have hstarts : Starts rules (oneOrMore (kind .docComment)) (· = .docComment) :=
        (starts_kind (by rfl)).append
      exact .inl (hstarts next last hfirst).1
    · exact .inr hstart
  obtain ⟨last, hrounds, hlen', hlast⟩ := exists_rounds_of_declarations hlen hlines hmany hne hnext
  have hfail := declaration?_of_import hlen' hlast hdocs hword hpath hr hcolon
  rcases repeatFrom_of_rounds hrounds (goesOn_of_newlines hlast hnext) hfail [] rounds with
    hrun | ⟨last, hrun⟩
  · rw [document, bind_apply, repeatWhile, hrun]
  · -- There are rounds enough.
    have hfail : document rounds ts = .failed .endless last := by
      rw [document, bind_apply, repeatWhile, hrun]
    obtain hne | ⟨_, -, hfalse⟩ := isFound_of_failed (I := (· ≠ .endless)) (fun J hJ =>
      local_document hJ (by decide) (Nat.le_of_lt hlen) (Nat.le_of_lt hlen)) hts hfail
    · exact absurd rfl hne
    · exact hfalse.elim

/-- A document is refused as an import is exactly where it comes to one, and then the stream begins
behind the path. -/
theorem document_importAlias_iff (hts : Ended ts) :
    bounded document ts = .failed .importAlias rest ↔ ReachesImport ts rest :=
  ⟨reachesImport_of_document hts (Nat.le_succ _), document_of_reachesImport hts (Nat.lt_succ_self _)⟩

/-- No list of tokens with an import among them makes a document. -/
theorem ofTokens_ne_ok_of_use (hts : Ended ts) {t : Token} (ht : t ∈ ts) (hk : t.kind = .use)
    (doc : Document) : Document.ofTokens ts ≠ .ok doc := by
  intro h
  cases hrun : bounded document ts with
  | failed fault rest =>
    rw [Document.ofTokens, hrun] at h
    cases h
  | done doc' rest =>
    have hderives := spans_nil_iff.1 (spans_of_document hts hrun)
    have havoids : (rules .document).Avoids .use (· ≠ .document) := by
      simp [rules, newlines, oneOrMore]
    exact havoids.kind_ne (avoids_rules (.inl rfl)) hderives t ht hk

end Grammar

end McdocSchema
