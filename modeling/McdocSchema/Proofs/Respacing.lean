import McdocSchema.Proofs.RangeText
import McdocSchema.Proofs.ScannedParts

/-!
# Texts with other spaces

The lexemes of a text are read again, to the same tokens, wherever gaps keep them apart (`Spaced`): the
first character of a gap ends every lexeme but documentation. So a text whose lexemes are joined by single
spaces has the same tokens, however often it is done. The text itself does not stay the same: a space in
front of a line break becomes part of the documentation there (`Token.scan_respace`).
-/

namespace McdocSchema

theorem Text.isBlank_of_isNameChar {c : Char} (h : isNameChar c = true) : isBlank c = false := by
  rw [isNameChar, isAlphanumeric, Bool.or_eq_true, Bool.or_eq_true, Bool.or_eq_true] at h
  rcases h with ((h | h) | h) | h
  · exact isBlank_of_isNameStart (by rw [isNameStart, h, Bool.true_or])
  · exact isBlank_of_isDigit h
  · exact RangeTable.not_holds_of_apart (by decide +kernel) h
  · exact isBlank_of_isNameStart (by rw [isNameStart, h, Bool.or_true])

/-- Blanks at the end are removed whether there are more of them or not. -/
theorem Text.strip_append_blanks {cs blanks : List Char} (h : ∀ c ∈ blanks, isBlank c = true) :
    strip (cs ++ blanks) = strip cs := by
  unfold strip
  rw [List.dropWhile_append]
  split
  · next hempty =>
    rw [List.isEmpty_iff.1 hempty, List.dropWhile_eq_nil_iff.2 h]
  · unfold stripEnd
    rw [List.reverse_append, List.dropWhile_append_of_pos fun c hc => h c (List.mem_reverse.1 hc)]

namespace Lexeme

open Text

/-! ## Lexemes of a text -/

/-- The lexemes of a text, up to its end, a zero or a fault. -/
def lexemes (cs : List Char) : List (List Char) :=
  match _h : (next cs).value with
  | .stop => []
  | .gap => lexemes (next cs).rest
  | .token _ _ => (next cs).taken :: lexemes (next cs).rest
  | .fault _ => []
termination_by cs.length
decreasing_by
  all_goals exact next_rest_lt (by rw [_h]; rfl)

variable {cs rest gap taken l : List Char} {ls : List (List Char)} {kind : Token.Kind} {value : String}

theorem lexemes_of_stop (h : (next cs).value = .stop) : lexemes cs = [] := by
  rw [lexemes]
  split
  all_goals
    next h' => cases h.symm.trans h' <;> rfl

theorem lexemes_of_gap (h : (next cs).value = .gap) : lexemes cs = lexemes (next cs).rest := by
  rw [lexemes]
  split
  all_goals
    next h' => cases h.symm.trans h' <;> rfl

theorem lexemes_of_token (h : (next cs).value = .token kind value) :
    lexemes cs = (next cs).taken :: lexemes (next cs).rest := by
  rw [lexemes]
  split
  all_goals
    next h' => cases h.symm.trans h' <;> rfl

/-- Whether a lexeme is documentation. -/
def isDoc (l : List Char) : Bool :=
  ['/', '/', '/'].isPrefixOf l

theorem Spells.ne_docComment (h : Spells l kind value) (hdoc : isDoc l = false) :
    kind ≠ .docComment := by
  intro hk
  obtain ⟨body, rfl⟩ := h.exists_of_docComment hk
  cases hdoc

theorem Spells.next_self (h : Spells l kind value) : next l = ⟨.token kind value, l, []⟩ := by
  have hnil : Follows kind [] := by rintro c ⟨⟩
  have hnext := h.next_append hnil
  rwa [List.append_nil] at hnext

/-- A lexeme with three slashes in front is a documentation comment, and nothing else. -/
theorem Spells.exists_of_isDoc (h : Spells l kind value) (hdoc : isDoc l = true) :
    ∃ body, l = '/' :: '/' :: '/' :: body ∧ kind = .docComment ∧
      value = String.ofList (strip body) ∧ ∀ c ∈ body, isCommentChar c = true := by
  obtain ⟨body, rfl⟩ := List.isPrefixOf_iff_prefix.1 hdoc
  -- At the end of the text the comment is the whole body.
  have hfound : next ('/' :: '/' :: '/' :: body) =
      ⟨.token .docComment (String.ofList (strip (body.takeWhile isCommentChar))),
        '/' :: '/' :: '/' :: body.takeWhile isCommentChar, body.dropWhile isCommentChar⟩ := rfl
  have hsame := hfound.symm.trans h.next_self
  injection hsame with hvalue htaken
  injection hvalue with hkind hvalue
  have hbody : body.takeWhile isCommentChar = body := by simpa using htaken
  refine ⟨body, rfl, hkind.symm, ?_, List.takeWhile_eq_self_iff.1 hbody⟩
  rw [← hvalue, hbody]

/-- At the end of a line there is nothing but a line break. -/
theorem eq_newline_of_stops (h : Stops isCommentChar cs) : ∀ m ∈ (lexemes cs).head?, m = ['\n'] := by
  cases cs with
  | nil =>
    rw [lexemes_of_stop rfl]
    rintro m ⟨⟩
  | cons c cs =>
    have hc := stops_cons.1 h
    rw [isCommentChar, Bool.and_eq_false_iff] at hc
    rcases hc with hc | hc
    · obtain rfl : c = '\n' := by simpa using hc
      rw [@lexemes_of_token ('\n' :: cs) .newline "\\n" rfl]
      rintro m ⟨⟩
      rfl
    · obtain rfl : c = '\x00' := by simpa using hc
      rw [lexemes_of_stop rfl]
      rintro m ⟨⟩

/-- Behind documentation there is nothing but a line break. -/
def DocsEnded (ls : List (List Char)) : Prop :=
  ls.IsChain fun l m => isDoc l = true → m = ['\n']

theorem docsEnded_lexemes (cs : List Char) : DocsEnded (lexemes cs) := by
  induction cs using lexemes.induct with
  | case1 cs hstop =>
    rw [lexemes_of_stop hstop]
    exact .nil
  | case2 cs hgap ih =>
    rw [lexemes_of_gap hgap]
    exact ih
  | case3 cs kind value htoken ih =>
    rw [lexemes_of_token htoken]
    refine List.isChain_cons.2 ⟨fun m hm hdoc => ?_, ih⟩
    obtain ⟨-, -, rfl, -⟩ := (next_spells htoken).exists_of_isDoc hdoc
    exact eq_newline_of_stops (stops_of_docComment htoken) m hm
  | case4 cs cause hfault =>
    have hnil : lexemes cs = [] := by
      rw [lexemes]
      split
      all_goals
        next h' => cases hfault.symm.trans h' <;> rfl
    rw [hnil]
    exact .nil

/-! ## Gaps that are skipped -/

variable {fs : List Form}

/-- Nothing but gaps is read in front of the rest. -/
inductive Skips : List Char → List Char → Prop
  | refl (rest : List Char) : Skips rest rest
  | gap {cs taken more rest : List Char} (h : next cs = ⟨.gap, taken, more⟩) (hs : Skips more rest) :
      Skips cs rest

theorem Skips.lexemes_eq (h : Skips cs rest) : lexemes cs = lexemes rest := by
  induction h with
  | refl => rfl
  | gap h _ ih => rw [lexemes_of_gap (by rw [h]), h, ih]

theorem Skips.reads (h : Skips cs rest) (hrest : Reads rest fs) : Reads cs fs := by
  induction h with
  | refl => exact hrest
  | gap h _ ih => exact .gap h (ih hrest)

/-- A blank is a gap of its own, or it is taken together with those that follow it. -/
theorem Skips.blank {c : Char} (h : Skips cs rest) (hc : isInlineBlank c = true)
    (hr : Stops isInlineBlank rest) : Skips (c :: cs) rest := by
  by_cases hcs : Stops isInlineBlank cs
  · have hnext := @next_of_isInlineBlank ([] ++ cs) c hc
    rw [takeWhile_append_of_stops (by simp) hcs, dropWhile_append_of_stops (by simp) hcs] at hnext
    exact .gap hnext h
  · cases h with
    | refl => exact absurd hr hcs
    | @gap _ taken more _ hnext hs =>
      obtain ⟨d, hd, hblank⟩ : ∃ d ∈ cs.head?, isInlineBlank d = true := by simpa [Stops] using hcs
      obtain ⟨ds, rfl⟩ : ∃ ds, cs = d :: ds := ⟨_, (List.cons_head?_tail hd).symm⟩
      rw [next_of_isInlineBlank hblank] at hnext
      injection hnext with _ _ hmore
      have hnext' := @next_of_isInlineBlank (d :: ds) c hc
      rw [List.dropWhile_cons_of_pos hblank, hmore] at hnext'
      exact .gap hnext' hs

theorem IsGap.skips (h : IsGap gap rest) (hr : Stops isInlineBlank rest) : Skips (gap ++ rest) rest := by
  induction h with
  | nil => exact .refl _
  | blank hc _ ih => exact (ih hr).blank hc hr
  | comment hb hthird hend _ ih =>
    rw [List.append_assoc]
    exact .gap (next_comment hb hthird hend) (ih hr)

/-! ## Lexemes in front of gaps -/

/-- Whether the character ends every lexeme that is not documentation: a blank, or the first slash of a
comment. -/
def endsLexeme (c : Char) : Bool :=
  isBlank c || c == '/'

theorem stops_of_endsLexeme {p : Char → Bool} (h : ∀ c ∈ rest.head?, endsLexeme c = true)
    (hp : ∀ c, p c = true → endsLexeme c = false) : Stops p rest := by
  intro c hc
  by_contra hpc
  exact ne_of_holds (h c hc) (hp c (by simpa using hpc)) rfl

/-- Of what ends lexemes, no lexeme but documentation takes anything. -/
theorem yields_of_endsLexeme (h : ∀ c ∈ rest.head?, endsLexeme c = true) : Yields [' '] rest := by
  refine ⟨fun p hp hspace => ?_, stops_cons.2 (by decide), ?_⟩
  · have hspace := stops_cons.1 hspace
    rw [runClasses] at hp
    simp only [List.mem_cons, List.not_mem_nil, or_false] at hp
    rcases hp with rfl | rfl | rfl | rfl | rfl
    · refine stops_of_endsLexeme h fun c hc => ?_
      rw [endsLexeme, isBlank_of_isDigit hc, beq_false_of_ne (ne_of_holds hc (by decide))]
      rfl
    · refine stops_of_endsLexeme h fun c hc => ?_
      have hmem : c ∈ ['+', '-'] := by simpa [isSign] using hc
      exact eq_false_of_any (by decide) hmem
    · refine stops_of_endsLexeme h fun c hc => ?_
      rw [endsLexeme, isBlank_of_isNameChar hc, beq_false_of_ne (ne_of_holds hc (by decide))]
      rfl
    -- The other two classes have the space in them.
    · cases hspace
    · cases hspace
  · have hsymbols : ∀ entry ∈ symbols, entry.1.any endsLexeme = false := by decide
    intro c hc entry hentry hmem
    exact ne_of_holds (h c hc) (eq_false_of_any (hsymbols entry hentry) hmem) rfl

theorem yieldsTail_of_endsLexeme (h : ∀ c ∈ rest.head?, endsLexeme c = true) :
    YieldsTail [' '] rest := by
  intro p hp _
  rw [tailClasses] at hp
  simp only [List.mem_cons, List.not_mem_nil, or_false] at hp
  rcases hp with rfl | rfl
  · refine stops_of_endsLexeme h fun c hc => ?_
    have hmem : c ∈ ['e', 'E'] := by simpa [startsExponent] using hc
    exact eq_false_of_any (by decide) hmem
  · exact stops_of_endsLexeme h fun c hc => eq_false_of_any (by decide) (mem_of_isSuffix hc)

/-- What may stand between a lexeme and the rest: a gap, whose first character ends the lexeme unless it
is documentation. Behind that there are only blanks up to the end of the line. -/
structure Separates (l gap rest : List Char) : Prop where
  isGap : IsGap gap rest
  doc : isDoc l = true → (∀ c ∈ gap, isInlineBlank c = true) ∧ Stops isCommentChar rest
  other : isDoc l = false → ∀ c ∈ (gap ++ rest).head?, endsLexeme c = true

theorem Spells.next_of_other (h : Spells l kind value) (hdoc : isDoc l = false)
    (hr : ∀ c ∈ rest.head?, endsLexeme c = true) :
    next (l ++ rest) = ⟨.token kind value, l, rest⟩ := by
  have hfollows : Follows kind [' '] := by
    rintro c ⟨⟩
    exact .inr ⟨rfl, h.ne_docComment hdoc⟩
  exact token_swap (r := []) (yields_of_endsLexeme hr) (fun _ => yieldsTail_of_endsLexeme hr)
    (h.next_append hfollows)

theorem Spells.next_of_doc (h : Spells l kind value) (hdoc : isDoc l = true)
    (hgap : ∀ c ∈ gap, isInlineBlank c = true) (hr : Stops isCommentChar rest) :
    next (l ++ gap ++ rest) = ⟨.token kind value, l ++ gap, rest⟩ := by
  obtain ⟨body, rfl, rfl, rfl, hbody⟩ := h.exists_of_isDoc hdoc
  have hblank : ∀ c ∈ gap, isBlank c = true := by
    intro c hc
    have hinline := hgap c hc
    rw [isInlineBlank, Bool.and_eq_true] at hinline
    exact hinline.1
  have hmore : ∀ c ∈ body ++ gap, isCommentChar c = true := by
    intro c hc
    rcases List.mem_append.1 hc with hc | hc
    · exact hbody c hc
    · exact isCommentChar_of_holds (hgap c hc) (by decide) (by decide)
  rw [← strip_append_blanks hblank]
  exact next_doc_of_stops hmore hr

/-! ## Lexemes with gaps between them -/

/-- The text is made of the lexemes in their order, with a gap behind each of them. -/
inductive Spaced : List (List Char) → List Char → Prop
  | nil : Spaced [] []
  | cons {l gap rest : List Char} {ls : List (List Char)} (hsep : Separates l gap rest)
      (h : Spaced ls rest) : Spaced (l :: ls) (l ++ gap ++ rest)

/-- The text is made of the lexemes, and a gap may stand in front of them. -/
def IsSpacing (ls : List (List Char)) (cs : List Char) : Prop :=
  ∃ gap rest, cs = gap ++ rest ∧ IsGap gap rest ∧ Spaced ls rest

/-- The lexemes are those of tokens with the forms. -/
abbrev SpellAll (ls : List (List Char)) (fs : List Form) : Prop :=
  List.Forall₂ (fun l f => Spells l f.kind f.value) ls fs

theorem Spaced.stops_isInlineBlank (h : Spaced ls cs) (hs : SpellAll ls fs) :
    Stops isInlineBlank cs := by
  cases h with
  | nil => exact stops_nil
  | cons hsep h =>
    cases hs with
    | cons hspells hs =>
      rw [List.append_assoc]
      exact Form.stops_isInlineBlank hspells

theorem Spaced.reads (h : Spaced ls cs) (hs : SpellAll ls fs) : Reads cs fs := by
  induction h generalizing fs with
  | nil =>
    cases hs
    exact .nil
  | @cons l gap rest ls hsep h ih =>
    cases hs with
    | cons hspells hs =>
      -- Documentation takes the gap with it, and behind other lexemes it is skipped.
      cases hdoc : isDoc l with
      | true =>
        obtain ⟨hgap, hr⟩ := hsep.doc hdoc
        exact .token (hspells.next_of_doc hdoc hgap hr) (ih hs)
      | false =>
        rw [List.append_assoc]
        refine .token (hspells.next_of_other hdoc (hsep.other hdoc)) ?_
        exact (hsep.isGap.skips (h.stops_isInlineBlank hs)).reads (ih hs)

theorem IsSpacing.reads (h : IsSpacing ls cs) (hs : SpellAll ls fs) : Reads cs fs := by
  obtain ⟨gap, rest, rfl, hgap, hspaced⟩ := h
  exact (hgap.skips (hspaced.stops_isInlineBlank hs)).reads (hspaced.reads hs)

/-! ## Single spaces -/

/-- Lexemes joined by single spaces. -/
def join (ls : List (List Char)) : List Char :=
  [' '].intercalate ls

theorem join_cons (l : List Char) (h : ls ≠ []) : join (l :: ls) = l ++ [' '] ++ join ls := by
  obtain ⟨m, ls, rfl⟩ := List.exists_cons_of_ne_nil h
  rw [join, List.intercalate_cons_cons]
  rfl

theorem join_singleton (l : List Char) : join [l] = l :=
  List.intercalate_singleton

theorem isInlineBlank_of_mem_space : ∀ c ∈ [' '], isInlineBlank c = true := by
  intro c hc
  obtain rfl := List.mem_singleton.1 hc
  decide

theorem stops_join (h : DocsEnded (l :: ls)) (hdoc : isDoc l = true) : Stops isCommentChar (join ls) := by
  cases ls with
  | nil => exact stops_nil
  | cons m ls =>
    obtain rfl := (List.isChain_cons_cons.1 h).1 hdoc
    cases ls with
    | nil => exact stops_cons.2 (by decide)
    | cons m ls =>
      rw [join_cons _ (by simp)]
      exact stops_cons.2 (by decide)

theorem spaced_join (h : DocsEnded ls) : Spaced ls (join ls) := by
  induction ls with
  | nil => exact .nil
  | cons l ls ih =>
    have hspaced := ih h.tail
    by_cases hls : ls = []
    · subst hls
      have hlast : Separates l [] [] :=
        ⟨.nil, fun _ => ⟨by simp, stops_nil⟩, by rintro - c ⟨⟩⟩
      have hone := Spaced.cons hlast .nil
      rw [List.append_nil, List.append_nil] at hone
      rw [join_singleton]
      exact hone
    · rw [join_cons l hls]
      refine .cons ⟨isGap_of_blanks isInlineBlank_of_mem_space, fun hdoc => ?_, ?_⟩ hspaced
      · exact ⟨isInlineBlank_of_mem_space, stops_join h hdoc⟩
      · rintro - c ⟨⟩
        decide

/-- Lexemes with one more space at the end of documentation, unless it is the last one. -/
def widen : List (List Char) → List (List Char)
  | l :: m :: ls => (if isDoc l then l ++ [' '] else l) :: widen (m :: ls)
  | ls => ls

theorem widen_cons (l : List Char) (h : ls ≠ []) :
    widen (l :: ls) = (if isDoc l then l ++ [' '] else l) :: widen ls := by
  obtain ⟨m, ls, rfl⟩ := List.exists_cons_of_ne_nil h
  rfl

theorem widen_ne_nil (h : ls ≠ []) : widen ls ≠ [] := by
  cases ls with
  | nil => exact h
  | cons l ls => cases ls <;> simp [widen]

/-- Of lexemes that are joined, the space behind documentation becomes part of it. -/
theorem lexemes_join (h : DocsEnded ls) (hs : SpellAll ls fs) :
    lexemes (join ls) = widen ls := by
  induction hs with
  | nil => exact lexemes_of_stop rfl
  | @cons l f ls fs hspells hs ih =>
    have ih := ih h.tail
    by_cases hls : ls = []
    · subst hls
      have hnext := hspells.next_self
      rw [join_singleton, lexemes_of_token (by rw [hnext]), hnext, lexemes_of_stop rfl]
      rfl
    · rw [join_cons l hls, widen_cons l hls, ← ih]
      cases hdoc : isDoc l with
      | true =>
        have hnext := hspells.next_of_doc hdoc isInlineBlank_of_mem_space (stops_join h hdoc)
        rw [lexemes_of_token (by rw [hnext]), hnext]
        rfl
      | false =>
        have hends : ∀ c ∈ ([' '] ++ join ls).head?, endsLexeme c = true := by
          rintro c ⟨⟩
          decide
        have hnext := hspells.next_of_other hdoc hends
        have hskips : Skips ([' '] ++ join ls) (join ls) :=
          (Skips.refl _).blank (by decide) ((spaced_join h.tail).stops_isInlineBlank hs)
        rw [List.append_assoc, lexemes_of_token (by rw [hnext]), hnext, hskips.lexemes_eq]
        rfl

theorem length_join_widen (ls : List (List Char)) :
    (join (widen ls)).length = (join ls).length + ls.dropLast.countP isDoc := by
  induction ls with
  | nil => rfl
  | cons l ls ih =>
    by_cases hls : ls = []
    · subst hls
      rfl
    · rw [widen_cons l hls, join_cons l hls, join_cons _ (widen_ne_nil hls),
        List.dropLast_cons_of_ne_nil hls, List.countP_cons]
      simp only [List.length_append, ih]
      cases isDoc l
      · simp only [if_false, Bool.false_eq_true]
        omega
      · simp only [if_true, List.length_append, List.length_singleton]
        omega

theorem widen_eq_self (h : ∀ l ∈ ls.dropLast, isDoc l = false) : widen ls = ls := by
  induction ls with
  | nil => rfl
  | cons l ls ih =>
    by_cases hls : ls = []
    · subst hls
      rfl
    · rw [List.dropLast_cons_of_ne_nil hls, List.forall_mem_cons] at h
      rw [widen_cons l hls, h.1, ih h.2]
      rfl

/-- Widening changes the joined text just if there is documentation that is not at the end. -/
theorem join_widen_eq_iff : join (widen ls) = join ls ↔ ∀ l ∈ ls.dropLast, isDoc l = false := by
  constructor
  · -- Every space that is added makes the text longer.
    intro h l hl
    have hlength := length_join_widen ls
    rw [h] at hlength
    have hzero : ls.dropLast.countP isDoc = 0 := by omega
    simpa using List.countP_eq_zero.1 hzero l hl
  · intro h
    rw [widen_eq_self h]

end Lexeme

/-! ## Texts -/

namespace Scanner

open Lexeme

/-- The lexeme spells the token and stands in the text at the token's position. -/
def IsLexemeOf (cs l : List Char) (t : Token) : Prop :=
  Spells l t.kind t.value ∧ ∃ i, t.pos = .ofOffset cs i ∧ l <+: cs.drop i

end Scanner

namespace Token

open Lexeme Scanner

variable {text text' : String} {ts : List Token}

/-- The text whose lexemes are those of the given one, joined by single spaces. -/
def respace (text : String) : String :=
  String.ofList (join (lexemes text.toList))

theorem exists_lexemes_of_scan (h : scan text = .ok ts) :
    ∃ us pos, ts = us ++ [eofAt pos] ∧ List.Forall₂ (IsLexemeOf text.toList) (lexemes text.toList) us := by
  refine of_scan (P := fun s ts => s.StandsIn text.toList → ∃ us pos, ts = us ++ [eofAt pos] ∧
    List.Forall₂ (IsLexemeOf text.toList) (lexemes s.rest) us) ?_ ?_ ?_ h (standsIn_ofString text)
  · intro s hstop _
    exact ⟨[], s.pos, rfl, by rw [lexemes_of_stop hstop]; exact .nil⟩
  · intro s ts hgap ih hs
    rw [lexemes_of_gap hgap]
    exact ih (hs.moveBehind (next_append s.rest)).1
  · intro s ts kind value htoken ih hs
    obtain ⟨us, pos, rfl, hus⟩ := ih (hs.moveBehind (next_append s.rest)).1
    have hplace : (next s.rest).taken <+: text.toList.drop s.offset := by
      rw [← hs.text_eq, Scanner.text, offset, ← List.length_reverse, List.drop_left]
      exact ⟨_, next_append s.rest⟩
    refine ⟨⟨kind, value, s.pos⟩ :: us, pos, rfl, ?_⟩
    rw [lexemes_of_token htoken]
    exact .cons ⟨next_spells htoken, _, hs.pos_eq, hplace⟩ hus

theorem spellAll_of_scan (h : scan text = .ok ts) :
    ∃ fs, SpellAll (lexemes text.toList) fs ∧ ts.map form = fs ++ [Form.eof] := by
  obtain ⟨us, pos, rfl, hus⟩ := exists_lexemes_of_scan h
  refine ⟨us.map form, ?_, by rw [List.map_append]; rfl⟩
  rw [SpellAll, List.forall₂_map_right_iff]
  exact hus.imp fun _ _ hl => hl.1

/-- Lexemes that are kept apart are read to the same tokens, whatever stands between them. -/
theorem scan_of_isSpacing (h : scan text = .ok ts) (hs : IsSpacing (lexemes text.toList) text'.toList) :
    ∃ ts', scan text' = .ok ts' ∧ ts'.map form = ts.map form := by
  obtain ⟨fs, hspell, hfs⟩ := spellAll_of_scan h
  obtain ⟨ts', hscan, hts'⟩ := scan_of_reads (hs.reads hspell)
  rw [String.ofList_toList] at hscan
  exact ⟨ts', hscan, hts'.trans hfs.symm⟩

theorem isSpacing_respace (text : String) : IsSpacing (lexemes text.toList) (respace text).toList := by
  rw [respace, String.toList_ofList]
  exact ⟨[], _, rfl, .nil, spaced_join (docsEnded_lexemes _)⟩

theorem scan_iterate_respace (h : scan text = .ok ts) (n : Nat) :
    ∃ ts', scan (respace^[n] text) = .ok ts' ∧ ts'.map form = ts.map form := by
  induction n generalizing text ts with
  | zero => exact ⟨ts, h, rfl⟩
  | succ n ih =>
    obtain ⟨us, hus, hforms⟩ := scan_of_isSpacing h (isSpacing_respace text)
    obtain ⟨ts', hts', hforms'⟩ := ih hus
    exact ⟨ts', hts', hforms'.trans hforms⟩

theorem lexemes_respace (h : scan text = .ok ts) :
    lexemes (respace text).toList = widen (lexemes text.toList) := by
  obtain ⟨fs, hspell, -⟩ := spellAll_of_scan h
  rw [respace, String.toList_ofList, lexemes_join (docsEnded_lexemes _) hspell]

/-- **Lexemes end where they do by themselves.** A text that is scanned has the same tokens, but for
positions, when its lexemes are joined by single spaces, as often as one likes, and whenever they are
kept apart by other blanks and comments. Joining the lexemes again puts one more space behind every
documentation comment that is not at the end. So the text is the same again just if there is none. -/
theorem scan_respace (h : scan text = .ok ts) :
    let ls := lexemes text.toList
    (∃ us pos, ts = us ++ [eofAt pos] ∧ List.Forall₂ (IsLexemeOf text.toList) ls us) ∧
    (∀ n, ∃ ts', scan (respace^[n] text) = .ok ts' ∧ ts'.map form = ts.map form) ∧
    (∀ text', IsSpacing ls text'.toList → ∃ ts', scan text' = .ok ts' ∧ ts'.map form = ts.map form) ∧
    lexemes (respace text).toList = widen ls ∧
    (respace (respace text) = respace text ↔ ∀ l ∈ ls.dropLast, isDoc l = false) := by
  intro ls
  refine ⟨exists_lexemes_of_scan h, scan_iterate_respace h, fun _ => scan_of_isSpacing h,
    lexemes_respace h, ?_⟩
  rw [← join_widen_eq_iff, ← String.ofList_inj, ← lexemes_respace h]
  rfl

/-- A number in front of a range, and documentation in front of a line break. -/
theorem scan_respace_range :
    let text := "1..<2//a\n/// b\nx"
    ∃ ts, scan text = .ok ts ∧
      ∀ n, ∃ ts', scan (respace^[n] text) = .ok ts' ∧ ts'.map form = ts.map form := by
  intro text
  obtain ⟨ts, hscan⟩ : ∃ ts, scan text = .ok ts := ⟨_, by cbv⟩
  exact ⟨ts, hscan, (scan_respace hscan).2.1⟩

/-- Documentation is wider each time. -/
theorem respace_not_idempotent :
    let text := "/// a\n"
    (∃ ts, scan text = .ok ts) ∧ respace (respace text) ≠ respace text := by
  intro text
  have hone : respace "/// a\n" = "/// a \n" := by cbv
  have htwo : respace "/// a \n" = "/// a  \n" := by cbv
  refine ⟨⟨_, by cbv⟩, ?_⟩
  rw [hone, htwo]
  decide

end Token

end McdocSchema
