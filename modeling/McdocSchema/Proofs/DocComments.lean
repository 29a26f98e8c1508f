import McdocSchema.Proofs.EditedTexts

/-!
# Documentation in front of an item

Comments with three slashes in front of an alias, a field or a variant are its documentation. Behind the
line break after the first of them no parser is prepared for another comment. So a single line of
documentation is kept, as the label of the item, and nothing else is changed by it; with two lines or more
the second one is misplaced (`ofString_docBlock`).
-/

namespace McdocSchema

open Parse TokenStream Edit

namespace Spot

variable {spot : Spot} {name : String} {ts vs vs' : TokenStream} {t t' : Token}

theorem reader_comment {line : Token} (ht : t.kind = .docComment) (hv : t.value ≠ "")
    (hl : line.kind = .newline) (hne : ts ≠ []) (hk : ts.current.kind ≠ .newline) :
    spot.reader (t :: line :: ts) = .done (some t.value) ts := by
  obtain ⟨make, hreader⟩ := spot.exists_isDocReader
  rw [hreader.of_comment ht (List.cons_ne_nil _ _) (by rw [current_cons, hl]; decide),
    hreader.some_of_ne hv, bind_apply, skipNewlines_cons hl hne, skipNewlines_of_ne hk]
  rfl

theorem Names.of_forms (h : spot.Names name vs) (hforms : vs'.map Token.form = vs.map Token.form) :
    spot.Names name vs' := by
  obtain ⟨i, member⟩ := spot
  cases member with
  | none =>
    obtain ⟨word, t, rest, rfl, hword, ht, hname⟩ := h
    obtain ⟨word', ws, rfl, hkind, -, hws⟩ := Token.exists_cons_of_forms hforms
    obtain ⟨t', ws, rfl, hkind', hvalue, -⟩ := Token.exists_cons_of_forms hws
    exact ⟨word', t', ws, rfl, hkind.trans hword, hkind'.trans ht, hvalue.trans hname⟩
  | some j =>
    obtain ⟨t, rest, rfl, ht, hname⟩ := h
    obtain ⟨t', ws, rfl, hkind, hvalue, -⟩ := Token.exists_cons_of_forms hforms
    exact ⟨t', ws, rfl, hkind.trans ht, hvalue.trans hname⟩

/-- The text behind `front` starts with the item at the spot: an alias, a field or a variant of that name
which has no documentation. -/
def IsWritten (spot : Spot) (name front rest : String) : Prop :=
  ∃ us vs : TokenStream, Token.scan (front ++ rest) = .ok (us ++ vs) ∧ vs.current.pos = .after front.toList ∧
    spot.Opens (us ++ vs) vs ∧ spot.Names name vs

end Spot

/-! ## One line -/

section Lines

variable {spot : Spot} {name : String} {us vs vs' : TokenStream} {doc doc' : Document}
  {stray line : Token}

theorem label?_of_opens (hdoc : Document.ofTokens (us ++ vs) = .ok doc) (hopens : spot.Opens (us ++ vs) vs)
    (hname : spot.Names name vs) : doc.label? spot = some ⟨name, none⟩ := by
  obtain ⟨hne, hkind⟩ := hname.current
  obtain ⟨rest, hrun⟩ := ofTokens_ok_iff.1 hdoc
  have hread : spot.reader vs = .done none vs := by
    apply Spot.reader_of_ne
    rcases hname.kind with hk | hk <;> rw [hk] <;> decide
  exact hopens.label?_of_document (Nat.lt_succ_self _) hne (.inr hkind) hread hname hrun

theorem Spot.Opens.reader_annotated (hopens : spot.Opens (us ++ vs) vs) (hs : stray.kind = .docComment)
    (hv : stray.value ≠ "") (hl : line.kind = .newline) (hne : vs' ≠ [])
    (hk : vs'.current.kind ≠ .newline) :
    spot.Opens (us ++ stray :: line :: vs') (stray :: line :: vs') ∧
      spot.reader (stray :: line :: vs') = .done (some stray.value) vs' := by
  obtain ⟨front, hfront, hopens⟩ := isAboutFront_opens spot _ _ hopens
  obtain rfl := List.append_cancel_right hfront
  exact ⟨hopens _, reader_comment hs hv hl hne hk⟩

/-- A single comment is no obstacle, because the run of the parser comes behind it. -/
theorem not_misplaced_of_opens {cause : ParseCause} (hopens : spot.Opens (us ++ vs) vs)
    (hus : ∀ t ∈ us, t.kind ≠ .eof) (hs : stray.kind = .docComment) (hv : stray.value ≠ "")
    (hl : line.kind = .newline) (hname : spot.Names name vs') (hended : Ended vs')
    (hnotin : stray ∉ vs') :
    Document.ofTokens (us ++ stray :: line :: vs') ≠ .error (.misplaced cause stray) := by
  intro herror
  obtain ⟨rest, hrun⟩ := ofTokens_error_iff.1 herror
  have hk : vs'.current.kind ≠ .newline := by
    rcases hname.kind with hk | hk <;> rw [hk] <;> decide
  obtain ⟨hopens', hread⟩ := hopens.reader_annotated hs hv hl hended.ne_nil hk
  have hleaves := hopens'.leaves_of_failed (Nat.lt_succ_self _) (List.cons_ne_nil _ _) (.inl hs) hread hrun
  have hts : Ended (us ++ stray :: line :: vs') := by
    obtain ⟨front, last, rfl, hlast, hfront⟩ := hended
    refine ⟨us ++ stray :: line :: front, last, by simp, hlast, List.forall_mem_append.2 ⟨hus, ?_⟩⟩
    simpa [hs, hl] using hfront
  have hblames := Grammar.blames_of_document hts hrun
  obtain ⟨t, more, rfl⟩ := List.exists_cons_of_ne_nil hblames.ended.ne_nil
  exact hnotin (hleaves.1.subset (hblames.current ▸ List.mem_cons_self))

theorem label?_annotated (hdoc' : Document.ofTokens (us ++ stray :: line :: vs') = .ok doc')
    (hopens : spot.Opens (us ++ vs) vs) (hs : stray.kind = .docComment) (hv : stray.value ≠ "")
    (hl : line.kind = .newline) (hname : spot.Names name vs') :
    doc'.label? spot = some ⟨name, some stray.value⟩ := by
  obtain ⟨rest, hrun⟩ := ofTokens_ok_iff.1 hdoc'
  have hk : vs'.current.kind ≠ .newline := by
    rcases hname.kind with hk | hk <;> rw [hk] <;> decide
  obtain ⟨hopens', hread⟩ := hopens.reader_annotated hs hv hl hname.current.1 hk
  exact hopens'.label?_of_document (Nat.lt_succ_self _) (List.cons_ne_nil _ _) (.inl hs) hread hname hrun

/-- One comment is kept, and nothing else is changed. -/
theorem exists_annotated (stray line : Token) (hend : Ended (us ++ vs)) (hdocs : DocsEnded (us ++ vs))
    (hdoc : Document.ofTokens (us ++ vs) = .ok doc) (hopens : spot.Opens (us ++ vs) vs)
    (hname : spot.Names name vs) (hforms : vs'.map Token.form = vs.map Token.form)
    (hs : stray.kind = .docComment) (hv : stray.value ≠ "") (hl : line.kind = .newline)
    (hended : Ended vs') (hnotin : stray ∉ vs') :
    ∃ doc', Document.ofTokens (us ++ stray :: line :: vs') = .ok doc' ∧
      doc'.unplaced = (doc.setLabel spot ⟨name, some stray.value⟩).unplaced := by
  have hname' := hname.of_forms hforms
  have hlabel := label?_of_opens hdoc hopens hname
  have hk := hname.kind
  obtain ⟨t, ws, rfl⟩ := List.exists_cons_of_ne_nil hname.current.1
  obtain ⟨t', ws', rfl, hform, hrest⟩ := List.map_eq_cons_iff.1 hforms
  rcases exists_of_annotate hend hdocs hrest hdoc hform hk hs hv hl with ⟨doc', hdoc', h⟩ | ⟨cause, herror⟩
  · refine ⟨doc', hdoc', ?_⟩
    exact h.unplaced_eq_setLabel hlabel (label?_annotated hdoc' hopens hs hv hl hname') (by simp)
  · exact absurd herror (not_misplaced_of_opens hopens hend.ne_eof_of_mem_front hs hv hl hname' hended hnotin)

theorem exists_misplaced_second (stray line second : Token) (vs' : TokenStream)
    (hopens : spot.Opens (us ++ vs) vs)
    (hs : stray.kind = .docComment) (hv : stray.value ≠ "") (hl : line.kind = .newline)
    (hsecond : second.kind = .docComment) :
    ∃ cause, Document.ofTokens (us ++ stray :: line :: second :: vs') =
      .error (.misplaced cause second) := by
  have hcurrent : second.kind ≠ .newline := by
    rw [hsecond]
    decide
  obtain ⟨hopens', hread⟩ := hopens.reader_annotated hs hv hl (List.cons_ne_nil second vs') hcurrent
  obtain ⟨cause, hrun⟩ := hopens'.exists_misplaced (Nat.lt_succ_self _) (List.cons_ne_nil _ _) (.inl hs)
    hread hsecond
  exact ⟨cause, ofTokens_error_iff.2 ⟨_, hrun⟩⟩

end Lines

/-! ## Blocks of lines -/

/-- **Documentation is kept if it is one line.** Lines of documentation are put in front of an alias, a
field or a variant. Just if there is one line, the text still makes a document, and the document is that
without the line but for positions and for the documentation of the item. If there are more lines, the
text makes no document, because of the second line. -/
theorem Document.ofString_docBlock {spot : Spot} {name front rest d : String} {ds : List String}
    {doc : Document} (hdoc : Document.ofString (front ++ rest) = .ok doc)
    (hitem : spot.IsWritten name front rest) (hlines : ∀ s ∈ d :: ds, Form.IsLine s ∧ s ≠ "") :
    doc.label? spot = some ⟨name, none⟩ ∧
    ((∃ doc', Document.ofString (front ++ (docBlock (d :: ds) ++ rest)) = .ok doc' ∧
      doc'.unplaced = (doc.setLabel spot ⟨name, some ("\n".intercalate (d :: ds))⟩).unplaced) ↔
        ds = []) ∧
    ∀ second more, ds = second :: more → ∃ cause,
      Document.ofString (front ++ (docBlock (d :: ds) ++ rest)) =
        .error (.parse (.misplaced cause
          ⟨.docComment, second, .after (front ++ docBlock [d]).toList⟩)) := by
  obtain ⟨us, vs, hscan, hpos, hopens, hname⟩ := hitem
  have htokens := Document.ofTokens_of_ofString hscan hdoc
  obtain ⟨t, vs, rfl⟩ := List.exists_cons_of_ne_nil hname.current.1
  obtain ⟨ws, hscan', hforms⟩ := Token.scan_docBlock hscan hpos hname.kind fun s hs => (hlines s hs).1
  have hv : d ≠ "" := (hlines d List.mem_cons_self).2
  have hmisplaced : ∀ second more, ds = second :: more → ∃ cause,
      Document.ofString (front ++ (docBlock (d :: ds) ++ rest)) =
        .error (.parse (.misplaced cause
          ⟨.docComment, second, .after (front ++ docBlock [d]).toList⟩)) := by
    rintro second more rfl
    have hplace : Position.after (front ++ docBlock [d]).toList =
        (Position.after front.toList).advance ("/// " ++ d ++ "\n").toList := by
      rw [String.toList_append, Position.after_append, docBlock, docBlock, String.append_empty]
    obtain ⟨cause, herror⟩ := exists_misplaced_second ⟨.docComment, d, .after front.toList⟩
      ⟨.newline, _, _⟩ ⟨.docComment, second, _⟩ _ hopens rfl hv rfl rfl
    refine ⟨cause, ?_⟩
    rw [Document.ofString_of_scan hscan', hplace]
    exact congrArg (Except.mapError DocumentFault.parse) herror
  refine ⟨label?_of_opens htokens hopens hname, ⟨?_, ?_⟩, hmisplaced⟩
  · rintro ⟨doc', hdoc', -⟩
    cases ds with
    | nil => rfl
    | cons second more =>
      obtain ⟨cause, herror⟩ := hmisplaced second more rfl
      rw [herror] at hdoc'
      cases hdoc'
  · rintro rfl
    let stray : Token := ⟨.docComment, d, .after front.toList⟩
    let line : Token := ⟨.newline, "\\n", (Position.after front.toList).advance ("/// " ++ d).toList⟩
    have hscan' : Token.scan (front ++ (docBlock [d] ++ rest)) = .ok (us ++ stray :: line :: ws) := hscan'
    have hended : Ended ws :=
      (((Token.scan_ended hscan').of_append (Token.scan_ended hscan').ne_eof_of_mem_front).tail
        (by simp)).tail (by simp)
    have hnotin : stray ∉ ws := by
      have hbefore := (List.pairwise_append.1 (Token.pairwise_of_scan hscan')).2.1
      intro hmem
      exact ((List.pairwise_cons.1 hbefore).1 stray (List.mem_cons_of_mem _ hmem)).ne rfl
    obtain ⟨doc', hdoc', hsame⟩ := exists_annotated stray line (Token.scan_ended hscan)
      (Token.docsEnded_of_scan hscan) htokens hopens hname hforms rfl hv rfl hended hnotin
    refine ⟨doc', ?_, ?_⟩
    · rw [Document.ofString_of_scan hscan', hdoc']
      rfl
    · rw [String.intercalate_singleton]
      exact hsame

/-- The second member of a struct, a field behind a spread type. -/
theorem Document.ofString_docBlock_field :
    let front := "struct \x7b ...A,\n"
    let rest := "x: any \x7d"
    let spot : Spot := ⟨0, some 0⟩
    ∃ doc, Document.ofString (front ++ rest) = .ok doc ∧ spot.IsWritten "x" front rest ∧
      doc.label? spot = some ⟨"x", none⟩ ∧
      (∃ doc', Document.ofString (front ++ (docBlock ["a"] ++ rest)) = .ok doc' ∧
        doc'.unplaced = (doc.setLabel spot ⟨"x", some "a"⟩).unplaced) ∧
      ∃ cause, Document.ofString (front ++ (docBlock ["a", "b"] ++ rest)) =
        .error (.parse (.misplaced cause ⟨.docComment, "b", ⟨3, 1⟩⟩)) := by
  intro front rest spot
  let vs : TokenStream := [⟨.identifier, "x", ⟨2, 1⟩⟩, ⟨.colon, ":", ⟨2, 2⟩⟩, ⟨.any, "any", ⟨2, 4⟩⟩,
    ⟨.rightBrace, "\x7d", ⟨2, 8⟩⟩, ⟨.eof, "", ⟨2, 9⟩⟩]
  let comma : TokenStream := ⟨.comma, ",", ⟨1, 14⟩⟩ :: ⟨.newline, "\\n", ⟨1, 15⟩⟩ :: vs
  let spread : TokenStream := ⟨.ellipsis, "...", ⟨1, 10⟩⟩ :: ⟨.identifier, "A", ⟨1, 13⟩⟩ :: comma
  let tokens : TokenStream :=
    ⟨.struct, "struct", ⟨1, 1⟩⟩ :: ⟨.leftBrace, "\x7b", ⟨1, 8⟩⟩ :: spread
  have hscan : Token.scan (front ++ rest) = .ok tokens := by
    dsimp only [front, rest, tokens, spread, comma, vs]
    cbv
  have htype : Ebnf.Spans Grammar.rules (.rule .type) spread.tail comma :=
    ((Grammar.reads_typeExpr 1).parsed _ (.reference ⟨1, 13⟩ "A" []) comma
      ⟨spread.tail.dropLast, _, rfl, rfl, by decide⟩ rfl).1
  have hkind : ∀ (t : Token) (ts : TokenStream), Ebnf.Spans Grammar.rules (.kind t.kind) (t :: ts) ts :=
    fun t ts => Ebnf.spans_kind_iff.2 ⟨t, rfl, rfl⟩
  have hmember : Ebnf.Spans Grammar.rules (Grammar.memberLines Grammar.spread) spread vs :=
    (((Ebnf.spans_opt_nil _).append ((hkind _ _).append htype)).append (hkind _ _).opt).append
      ((hkind _ _).many_cons (Ebnf.spans_many_nil _))
  have hitem : spot.IsWritten "x" front rest := by
    refine ⟨tokens.take 6, vs, hscan, by decide, ?_, ⟨_, _, rfl, rfl, rfl⟩⟩
    refine .field ⟨_, Ebnf.spans_many_nil _, .nil _⟩ ?_ (.skip hmember (.nil _))
    exact (((Ebnf.spans_opt_nil _).append (hkind _ _)).append (hkind _ _)).append (Ebnf.spans_many_nil _)
  let doc : Document := { declarations := [.anonymous (.struct ⟨1, 1⟩ [⟨"x", .any ⟨2, 4⟩, false, none⟩]
    [.reference ⟨1, 13⟩ "A" []])] }
  have hdoc : Document.ofString (front ++ rest) = .ok doc := by
    rw [Document.ofString_of_scan hscan]
    rfl
  have hone : ∀ s ∈ ["a"], Form.IsLine s ∧ s ≠ "" := by simp; decide
  have htwo : ∀ s ∈ ["a", "b"], Form.IsLine s ∧ s ≠ "" := by simp; decide
  have hpos : Position.after (front ++ docBlock ["a"]).toList = ⟨3, 1⟩ := by decide
  obtain ⟨hlabel, hkept, -⟩ := Document.ofString_docBlock hdoc hitem hone
  obtain ⟨-, -, hmisplaced⟩ := Document.ofString_docBlock hdoc hitem htwo
  rw [hpos] at hmisplaced
  exact ⟨doc, hdoc, hitem, hlabel, hkept.2 rfl, hmisplaced "b" [] rfl⟩

/-- Two lines of documentation in front of an alias, a field and a variant, none of which is kept. -/
theorem Document.two_lines_not_kept :
    (∀ text ∈ ["type X = any", "struct \x7bx: any\x7d", "enum \x7bA\x7d"],
      ∃ doc, Document.ofString text = .ok doc) ∧
    ∀ text ∈ ["/// a\n/// b\ntype X = any", "struct \x7b\n/// a\n/// b\nx: any\x7d",
      "enum \x7b\n/// a\n/// b\nA\x7d"], ∃ cause pos, Document.ofString text =
        .error (.parse (.misplaced cause ⟨.docComment, "b", pos⟩)) := by
  simp only [List.forall_mem_cons]
  refine ⟨⟨⟨_, by cbv⟩, ⟨_, by cbv⟩, ⟨_, by cbv⟩, by simp⟩, ?_⟩
  exact ⟨⟨_, _, by cbv⟩, ⟨_, _, by cbv⟩, ⟨_, _, by cbv⟩, by simp⟩

end McdocSchema
