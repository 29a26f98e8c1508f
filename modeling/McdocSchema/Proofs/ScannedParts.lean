import McdocSchema.Proofs.JoinedText
import McdocSchema.Proofs.Legible
import McdocSchema.Proofs.TruePositions

/-!
# Parts of a text that are scanned one after the other

`Scanner.Reaches` says to which place of a text a scanner comes and with which tokens. It comes to every
place where a token starts (`reaches_of_scan`), and with the same tokens if the text behind the place is
replaced by one that cuts no lexeme short (`Reaches.swap`). What is read behind the place has nothing to do
with the text in front of it but for the positions (`run_elsewhere`).
-/

namespace McdocSchema

theorem Position.Before.ne {p q : Position} (h : p.Before q) : p ≠ q := by
  rintro rfl
  unfold Before at h
  omega

/-- At the starts of a text, different places have different positions. -/
theorem Position.eq_of_after_eq {x y x' y' : List Char} (h : x ++ y = x' ++ y')
    (hpos : after x = after x') : x = x' := by
  have hlonger : ∀ {x z : List Char}, after (x ++ z) = after x → z = [] := by
    intro x z heq
    by_contra hne
    have hbefore := before_advance (after x) hne
    rw [← after_append, heq] at hbefore
    exact hbefore.ne rfl
  rcases List.append_eq_append_iff.1 h with ⟨z, rfl, -⟩ | ⟨z, rfl, -⟩
  · rw [hlonger hpos.symm, List.append_nil]
  · rw [hlonger hpos, List.append_nil]

/-- Every documentation comment reaches to the end of its line. -/
def TokenStream.DocsEnded (ts : TokenStream) : Prop :=
  ts.IsChain fun t u => t.kind = .docComment → u.kind = .newline ∨ u.kind = .eof

namespace Scanner

open Lexeme Text

/-- The scanner reads the tokens and then stands at another place. -/
inductive Reaches : Scanner → List Token → Scanner → Prop
  | refl (s : Scanner) : Reaches s [] s
  | gap {s s' : Scanner} {ts : List Token} (h : (next s.rest).value = .gap)
      (hs : Reaches (s.moveBehind (next s.rest)) ts s') : Reaches s ts s'
  | token {s s' : Scanner} {ts : List Token} {kind : Token.Kind} {value : String}
      (h : (next s.rest).value = .token kind value)
      (hs : Reaches (s.moveBehind (next s.rest)) ts s') : Reaches s (⟨kind, value, s.pos⟩ :: ts) s'

variable {s s' s'' : Scanner} {ts us vs done : List Token} {t : Token}

theorem Reaches.trans (h : Reaches s ts s') (h' : Reaches s' us s'') : Reaches s (ts ++ us) s'' := by
  induction h with
  | refl => exact h'
  | gap hgap _ ih => exact .gap hgap (ih h')
  | token htoken _ ih => exact .token htoken (ih h')

theorem Reaches.run_eq (h : Reaches s ts s') (done : List Token) :
    run s done = run s' (ts.reverse ++ done) := by
  induction h generalizing done with
  | refl => rfl
  | gap hgap _ ih => rw [run_of_gap hgap, ih]
  | token htoken _ ih =>
    rw [run_of_token htoken, ih, List.reverse_cons, List.append_assoc, List.singleton_append]

theorem Reaches.standsIn {cs : List Char} (h : Reaches s ts s') (hs : s.StandsIn cs) :
    s'.StandsIn cs := by
  induction h with
  | refl => exact hs
  | gap _ _ ih | token _ _ ih => exact ih (hs.moveBehind (next_append _)).1

theorem Reaches.exists_append (h : Reaches s ts s') : ∃ x, s.rest = x ++ s'.rest := by
  induction h with
  | refl => exact ⟨[], rfl⟩
  | @gap s _ _ _ _ ih | @token s _ _ _ _ _ _ ih =>
    obtain ⟨x, hx⟩ := ih
    refine ⟨(next s.rest).taken ++ x, ?_⟩
    rw [List.append_assoc, ← hx]
    exact (next_append s.rest).symm

theorem exists_reaches (s : Scanner) (done us : List Token)
    (h : (run s done).tokens = done.reverse ++ (us ++ t :: vs)) :
    ∃ s', Reaches s us s' ∧ s'.pos = t.pos ∧
      (t.kind ≠ .eof → (next s'.rest).value = .token t.kind t.value) := by
  induction s, done using run.induct generalizing us with
  | case1 s done r hstop =>
    rw [Scanner.run_eq, hstop, List.reverse_cons, List.append_cancel_left_eq] at h
    cases us with
    | nil =>
      obtain ⟨rfl, -⟩ := List.cons.inj h
      exact ⟨s, .refl s, rfl, fun hne => absurd rfl hne⟩
    | cons u us => simp at h
  | case2 s done r hgap ih =>
    rw [run_of_gap hgap] at h
    obtain ⟨s', hs, hpos, hnext⟩ := ih us h
    exact ⟨s', .gap hgap hs, hpos, hnext⟩
  | case3 s done r kind value htoken ih =>
    rw [run_of_token htoken] at h
    obtain ⟨ts, hts, -, -⟩ :=
      run_lower 0 [] (s.moveBehind (next s.rest)) (⟨kind, value, s.pos⟩ :: done) []
    rw [h, List.reverse_cons, List.append_assoc, List.append_cancel_left_eq] at hts
    cases us with
    | nil =>
      obtain ⟨rfl, -⟩ := List.cons.inj hts
      exact ⟨s, .refl s, rfl, fun _ => htoken⟩
    | cons u us =>
      obtain ⟨rfl, -⟩ := List.cons.inj hts
      obtain ⟨s', hs, hpos, hnext⟩ := ih us (by rw [h]; simp)
      exact ⟨s', .token htoken hs, hpos, hnext⟩
  | case4 s done r cause hfault =>
    rw [Scanner.run_eq, hfault] at h
    simp at h

/-- Where a token starts in a text, the scanner comes by. -/
theorem reaches_of_scan {front rest : String}
    (h : Token.scan (front ++ rest) = .ok (us ++ t :: vs)) (hpos : t.pos = .after front.toList) :
    Reaches (ofString (front ++ rest)) us
        ⟨front.toList.reverse, rest.toList, .after front.toList⟩ ∧
      (t.kind ≠ .eof → (next rest.toList).value = .token t.kind t.value) := by
  obtain ⟨⟨past, more, pos⟩, hreaches, hpos', hnext⟩ :=
    exists_reaches _ [] us (scan_eq_ok_iff.1 h).2
  have hstands := hreaches.standsIn (standsIn_ofString (front ++ rest))
  have htext : past.reverse ++ more = front.toList ++ rest.toList := by
    rw [← String.toList_append]
    exact hstands.text_eq
  have hsame : past.reverse = front.toList := by
    apply Position.eq_of_after_eq htext
    rw [← hpos, ← hpos']
    exact hstands.pos_eq_after.symm
  rw [hsame, List.append_cancel_left_eq] at htext
  have hplace : (⟨past, more, pos⟩ : Scanner) =
      ⟨front.toList.reverse, rest.toList, .after front.toList⟩ := by
    rw [← hsame, List.reverse_reverse, htext, hsame, ← hpos, ← hpos']
  rw [hplace] at hreaches hnext
  exact ⟨hreaches, hnext⟩

theorem Reaches.eq_nil_of_rest_eq (h : Reaches s ts s') (hrest : s.rest = s'.rest) : ts = [] := by
  have hstep : ∀ {us : List Token}, Reaches (s.moveBehind (next s.rest)) us s' →
      (next s.rest).value.goesOn = true → False := by
    intro us hs hgoes
    obtain ⟨x, hx⟩ := hs.exists_append
    have htaken := List.length_pos_of_ne_nil (next_taken_ne_nil hgoes)
    have htext := congrArg List.length (next_append s.rest)
    have hbehind := congrArg List.length hx
    rw [List.length_append] at htext hbehind
    rw [← hrest] at hbehind
    change (next s.rest).rest.length = _ at hbehind
    omega
  cases h with
  | refl => rfl
  | gap hgap hs => exact (hstep hs (by rw [hgap]; rfl)).elim
  | token htoken hs => exact (hstep hs (by rw [htoken]; rfl)).elim

/-- A step of a scanner that comes to the text `y` later on is the same if that text is replaced. -/
theorem Reaches.next_swap {x y y' : List Char} (h : Reaches (s.moveBehind (next s.rest)) ts s')
    (hy : Yields y y') (hy' : s'.rest = y) (hx : s.rest = x ++ y)
    (hgoes : (next s.rest).value.goesOn = true)
    (ht : ∀ kind value, (next s.rest).value = .token kind value → kind.isNumber = true →
      YieldsTail y y' ∨ ts ≠ []) :
    ∃ r, (s.moveBehind (next s.rest)).rest = r ++ y ∧
      next (x ++ y') = ⟨(next s.rest).value, (next s.rest).taken, r ++ y'⟩ := by
  obtain ⟨r, hr⟩ := h.exists_append
  rw [hy'] at hr
  refine ⟨r, hr, ?_⟩
  have htail : ∀ kind value, (next s.rest).value = .token kind value → kind.isNumber = true →
      YieldsTail (r ++ y) (r ++ y') := by
    intro kind value htoken hnumber
    rcases ht kind value htoken hnumber with htail | hts
    · exact htail.append r
    · refine yieldsTail_append_of_ne_nil ?_
      rintro rfl
      exact hts (h.eq_nil_of_rest_eq (hr.trans hy'.symm))
  rw [hx] at hgoes htail ⊢
  rw [hx] at hr
  exact Lexeme.next_swap hy hgoes htail hr

/-- Text behind the place to which a scanner comes can be replaced. -/
theorem Reaches.swap {y y' past : List Char} {pos : Position} (hy : Yields y y')
    (ht : YieldsTail y y' ∨ ∀ t ∈ ts.getLast?, t.kind.isNumber = false)
    (h : Reaches s ts ⟨past, y, pos⟩) : ∀ x, s.rest = x ++ y →
      Reaches ⟨s.past, x ++ y', s.pos⟩ ts ⟨past, y', pos⟩ := by
  generalize hs' : (⟨past, y, pos⟩ : Scanner) = s' at h
  have hrest : s'.rest = y := by rw [← hs']
  induction h with
  | refl s =>
    intro x hx
    subst hs'
    obtain rfl : x = [] := by simpa using hx
    exact .refl _
  | @gap s s' ts hgap hs ih =>
    intro x hx
    obtain ⟨r, hr, hnext⟩ := hs.next_swap hy hrest hx (by rw [hgap]; rfl) fun _ _ htoken => by
      cases hgap.symm.trans htoken
    refine .gap (by rw [hnext, hgap]) ?_
    rw [hnext]
    exact ih ht hs' hrest r hr
  | @token s s' ts kind value htoken hs ih =>
    intro x hx
    -- If nothing is read behind a number, then it is the last token.
    have hnumber : kind.isNumber = true → YieldsTail y y' ∨ ts ≠ [] := by
      intro hnumber
      refine ht.imp_right ?_
      rintro hlast rfl
      cases hnumber.symm.trans (hlast ⟨kind, value, s.pos⟩ rfl)
    have ht' : YieldsTail y y' ∨ ∀ t ∈ ts.getLast?, t.kind.isNumber = false := by
      refine ht.imp_right fun hlast t hmem => hlast t ?_
      rw [Option.mem_def, List.getLast?_cons, Option.mem_def.1 hmem]
      rfl
    obtain ⟨r, hr, hnext⟩ := hs.next_swap hy hrest hx (by rw [htoken]; rfl) fun _ _ htoken' => by
      cases htoken.symm.trans htoken'
      exact hnumber
    refine .token (s := ⟨s.past, x ++ y', s.pos⟩) (by rw [hnext, htoken]) ?_
    rw [hnext]
    exact ih ht' hs' hrest r hr

/-- What is read from a text does not depend on what stands in front of it, but for positions. -/
theorem run_elsewhere (s : Scanner) (done : List Token) (past : List Char) (pos : Position)
    (done' : List Token) :
    ∃ ts ts', (run s done).tokens = done.reverse ++ ts ∧
      (run ⟨past, s.rest, pos⟩ done').tokens = done'.reverse ++ ts' ∧
      ts'.map Token.form = ts.map Token.form ∧
      (run ⟨past, s.rest, pos⟩ done').fault.isSome = (run s done).fault.isSome := by
  induction s, done using run.induct generalizing past pos done' with
  | case1 s done r hstop =>
    rw [Scanner.run_eq, Scanner.run_eq ⟨past, _, _⟩, hstop]
    exact ⟨[Token.eofAt s.pos], [Token.eofAt pos], by simp, by simp, rfl, rfl⟩
  | case2 s done r hgap ih =>
    rw [run_of_gap hgap, @run_of_gap ⟨past, _, _⟩ _ hgap]
    exact ih _ _ done'
  | case3 s done r kind value htoken ih =>
    rw [run_of_token htoken, @run_of_token ⟨past, _, _⟩ _ _ _ htoken]
    obtain ⟨ts, ts', hts, hts', hforms, hfault⟩ :=
      ih (r.taken.reverseAux past) (pos.advance r.taken) (⟨kind, value, pos⟩ :: done')
    refine ⟨⟨kind, value, s.pos⟩ :: ts, ⟨kind, value, pos⟩ :: ts', ?_, ?_, ?_, hfault⟩
    · exact hts.trans (by simp)
    · exact hts'.trans (by simp)
    · rw [List.map_cons, List.map_cons, hforms]
      rfl
  | case4 s done r cause hfault =>
    rw [Scanner.run_eq, Scanner.run_eq ⟨past, _, _⟩, hfault]
    exact ⟨[], [], by simp, by simp, rfl, rfl⟩

theorem reaches_token (past : List Char) (pos : Position) {cs taken rest : List Char}
    {kind : Token.Kind} {value : String} (h : next cs = ⟨.token kind value, taken, rest⟩) :
    Reaches ⟨past, cs, pos⟩ [⟨kind, value, pos⟩] ⟨taken.reverseAux past, rest, pos.advance taken⟩ := by
  have hstep : Reaches (moveBehind ⟨past, cs, pos⟩ (next cs)) []
      ⟨taken.reverseAux past, rest, pos.advance taken⟩ := by
    rw [h]
    exact .refl _
  exact .token (by rw [h]) hstep

/-- Two scanners that come to the same rest read the same there, but for positions. -/
theorem Reaches.elsewhere {past past' rest : List Char} {pos pos' : Position}
    (h : Reaches s us ⟨past, rest, pos⟩) (h' : Reaches s' vs ⟨past', rest, pos'⟩) :
    ∃ ts ts', (run s []).tokens = us ++ ts ∧ (run s' []).tokens = vs ++ ts' ∧
      ts'.map Token.form = ts.map Token.form ∧ (run s' []).fault.isSome = (run s []).fault.isSome := by
  rw [h.run_eq, h'.run_eq]
  obtain ⟨ts, ts', hts, hts', hforms, hfault⟩ := run_elsewhere ⟨past, rest, pos⟩ (us.reverse ++ []) past'
    pos' (vs.reverse ++ [])
  exact ⟨ts, ts', by simpa using hts, by simpa using hts', hforms, hfault⟩

theorem next_of_stops {cs : List Char} (h : Stops isCommentChar cs) :
    (next cs).value = .stop ∨ (next cs).value = .token .newline "\\n" := by
  cases cs with
  | nil => exact .inl rfl
  | cons c cs =>
    have hc := stops_cons.1 h
    rw [isCommentChar, Bool.and_eq_false_iff] at hc
    rcases hc with hc | hc
    · obtain rfl : c = '\n' := by simpa using hc
      exact .inr rfl
    · obtain rfl : c = '\x00' := by simpa using hc
      exact .inl rfl

end Scanner

open Lexeme Scanner Text

/-! ## Words -/

theorem Lexeme.next_name {cs : List Char} {kind : Token.Kind} {value : String}
    (h : (next cs).value = .token kind value) (hk : kind = .identifier ∨ kind = .type) :
    (next cs).taken = value.toList ∧ Stops isNameChar (next cs).rest ∧
      ∃ c ∈ cs.head?, isNameStart c = true ∨ c = '%' := by
  have hspells := next_spells h
  have happend := next_append cs
  have hno : ∀ k : Token.Kind, k ≠ .identifier → k ≠ .type → kind ≠ k := by
    rintro k hi ht rfl
    exact hk.elim hi ht
  generalize htaken : (next cs).taken = lexeme at hspells happend
  cases hspells with
  | newline => exact absurd rfl (hno _ (by decide) (by decide))
  | symbol hmem =>
    have hall : ∀ entry ∈ symbols, entry.2 ≠ .identifier ∧ entry.2 ≠ .type := by decide
    exact absurd rfl (hno _ (hall _ hmem).1 (hall _ hmem).2)
  | @word c cs' hc hcs =>
    rw [← happend, List.cons_append, next_of_isNameStart hc]
    exact ⟨by simp, stops_dropWhile _ _, c, rfl, .inl hc⟩
  | @key cs' hcs =>
    rw [← happend, List.cons_append, next_of_startsOther (by decide), if_pos (beq_self_eq_true _)]
    exact ⟨by simp, stops_dropWhile _ _, '%', rfl, .inr rfl⟩
  | @number sign digits fraction exponent suffix hnumber =>
    have hisNumber := isNumber_numberKind fraction exponent (suffix.map Char.toLower)
    rcases hk with hk | hk <;> rw [hk] at hisNumber <;> cases hisNumber
  | string => exact absurd rfl (hno _ (by decide) (by decide))
  | doc => exact absurd rfl (hno _ (by decide) (by decide))

theorem Text.isNameChar_of_isNameStart {c : Char} (h : isNameStart c = true) : isNameChar c = true := by
  rw [isNameStart, Bool.or_eq_true] at h
  rw [isNameChar, isAlphanumeric, Bool.or_eq_true]
  refine h.imp_left fun hletter => ?_
  rw [hletter, Bool.true_or, Bool.true_or]

/-- A character with which a name starts may stand in a comment. -/
theorem Lexeme.isCommentChar_of_name {c : Char} (h : isNameStart c = true ∨ c = '%') :
    isCommentChar c = true := by
  rcases h with h | rfl
  · exact isCommentChar_of_holds h (by decide) (by decide)
  · decide

theorem Lexeme.stops_point_of_name {y : List Char} (h : ∃ c ∈ y.head?, isNameStart c = true ∨ c = '%') :
    Stops (· == '.') y := by
  obtain ⟨c, hc, hname⟩ := h
  intro d hd
  obtain rfl := Option.some.inj (hc.symm.trans hd)
  rcases hname with hname | rfl
  · exact beq_false_of_ne (ne_of_holds hname (by decide))
  · rfl

/-- Whether a lexeme that ends in front of a name goes on with another text is told by the first
characters. -/
theorem Lexeme.yields_of_heads {y y' : List Char} {c c' : Char} (hc : c ∈ y.head?)
    (hname : isNameStart c = true ∨ c = '%') (hc' : y'.head? = some c')
    (hruns : ∀ p ∈ runClasses, p c = true ∨ p c' = false)
    (hsymbol : ∀ entry ∈ symbols, c' ∉ entry.1) : Yields y y' where
  stops := by
    intro p hp hstops d hd
    obtain rfl := Option.some.inj (hc'.symm.trans hd)
    rcases hruns p hp with hyes | hno
    · rw [hstops c hc] at hyes
      cases hyes
    · exact hno
  point := stops_point_of_name ⟨c, hc, hname⟩
  symbol := by
    intro d hd
    obtain rfl := Option.some.inj (hc'.symm.trans hd)
    exact hsymbol

/-- The text is a word, perhaps a keyword. -/
def Lexeme.IsWord (s : String) : Prop :=
  ∃ c cs, s.toList = c :: cs ∧ isNameStart c = true ∧ ∀ d ∈ cs, isNameChar d = true

namespace Lexeme.IsWord

variable {s : String} {y back : List Char}

theorem next_eq (h : IsWord s) (hback : Stops isNameChar back) :
    next (s.toList ++ back) = ⟨.token (kindIn keywords s) s, s.toList, back⟩ := by
  obtain ⟨c, cs, hs, hc, hcs⟩ := h
  have heq : s = String.ofList (c :: cs) := by rw [← hs, String.ofList_toList]
  rw [hs, List.cons_append, next_of_isNameStart hc, word_append_of_stops hcs hback, ← heq]

theorem not_mem_symbols {c : Char} (hc : isNameStart c = true) : ∀ entry ∈ symbols, c ∉ entry.1 := by
  have hall : symbols.all (fun entry => entry.1.all fun d => !isNameStart d) = true := by decide
  intro entry hentry hmem
  have hno := List.all_eq_true.1 (List.all_eq_true.1 hall entry hentry) c hmem
  rw [hc] at hno
  cases hno

/-- A lexeme that ends in front of a word that is no key ends in front of each word. -/
theorem yields (h : IsWord s) (hy : ∃ c ∈ y.head?, isNameStart c = true) : Yields y s.toList := by
  obtain ⟨c', cs, hs, hc', -⟩ := h
  obtain ⟨c, hc, hname⟩ := hy
  have hruns : ∀ p ∈ runClasses, p c = true ∨ p c' = false := by
    have hsign : isSign c' = false := by
      rw [isSign, beq_false_of_ne (ne_of_holds hc' (by decide)),
        beq_false_of_ne (ne_of_holds hc' (by decide)), Bool.or_false]
    have hblank : isInlineBlank c' = false := by
      rw [isInlineBlank, isBlank_of_isNameStart hc', Bool.false_and]
    simp only [runClasses, List.forall_mem_cons]
    exact ⟨.inr (isDigit_of_isNameStart hc'), .inr hsign, .inl (isNameChar_of_isNameStart hname),
      .inr hblank, .inl (isCommentChar_of_name (.inl hname)), by simp⟩
  exact yields_of_heads hc (.inl hname) (by rw [hs]; rfl) hruns (not_mem_symbols hc')

end Lexeme.IsWord

namespace Token

variable {text front rest old new back : String} {ts us us' vs vs' : List Token} {t t' : Token}

theorem docsEnded_of_scan (h : scan text = .ok ts) : TokenStream.DocsEnded ts := by
  refine (of_scan (P := fun s ts => TokenStream.DocsEnded ts ∧ (Stops isCommentChar s.rest →
    ∀ t ∈ ts.head?, t.kind = .newline ∨ t.kind = .eof)) ?_ ?_ ?_ h).1
  · intro s _
    refine ⟨.singleton _, ?_⟩
    rintro - t ⟨⟩
    exact .inr rfl
  · rintro s ts hgap ⟨hts, -⟩
    refine ⟨hts, fun hstops => ?_⟩
    rcases next_of_stops hstops with hnext | hnext <;> cases hgap.symm.trans hnext
  · rintro s ts kind value htoken ⟨hts, hfirst⟩
    refine ⟨List.isChain_cons.2 ⟨?_, hts⟩, ?_⟩
    · rintro u hu rfl
      exact hfirst (stops_of_docComment htoken) u hu
    · rintro hstops t ⟨⟩
      rcases next_of_stops hstops with hnext | hnext
      · cases htoken.symm.trans hnext
      · cases htoken.symm.trans hnext
        exact .inl rfl

/-- The tokens of a text are in the order of their positions. -/
theorem pairwise_of_scan (h : scan text = .ok ts) : ts.Pairwise fun t u => t.pos.Before u.pos := by
  obtain ⟨-, rfl⟩ := scan_eq_ok_iff.1 h
  obtain ⟨ps, n, hin⟩ := exists_tokens_isIn (standsIn_ofString text)
  exact hin.pairwise

/-- The text of an identifier stands in the text where its token starts. -/
theorem exists_text_of_identifier (h : scan text = .ok (us ++ t :: vs)) (hk : t.kind = .identifier) :
    ∃ front back, text = front ++ (t.value ++ back) ∧ t.pos = .after front.toList := by
  obtain ⟨⟨past, more, pos⟩, hreaches, hpos, hnext⟩ := exists_reaches _ [] us (scan_eq_ok_iff.1 h).2
  have hstands := hreaches.standsIn (standsIn_ofString text)
  have hnext := hnext (by rw [hk]; decide)
  have happend := next_append more
  rw [(next_name hnext (.inl hk)).1] at happend
  refine ⟨String.ofList past.reverse, String.ofList (next more).rest, ?_, ?_⟩
  · apply String.toList_injective
    rw [String.toList_append, String.toList_append, String.toList_ofList, String.toList_ofList, happend]
    exact hstands.text_eq.symm
  · rw [String.toList_ofList, ← hpos]
    exact hstands.pos_eq_after

theorem scan_of_reaches {past : List Char} {pos : Position}
    (h : Reaches (ofString text) us ⟨past, [], pos⟩) : scan text = .ok (us ++ [Token.eofAt pos]) := by
  rw [scan_eq_ok_iff, h.run_eq [], Scanner.run_eq]
  exact ⟨rfl, by simp [next]⟩

/-- The text in front of a word is scanned by itself to the tokens in front of it. -/
theorem scan_front (h : scan (front ++ rest) = .ok (us ++ t :: vs)) (hpos : t.pos = .after front.toList)
    (hrest : ∃ c ∈ rest.toList.head?, isNameStart c = true ∨ c = '%') :
    scan front = .ok (us ++ [Token.eofAt (.after front.toList)]) := by
  have hreaches := (reaches_of_scan h hpos).1
  have hfront := hreaches.swap (yields_nil (stops_point_of_name hrest)) (.inl (yieldsTail_nil _))
    front.toList (by simp [ofString, ofChars])
  rw [List.append_nil] at hfront
  exact scan_of_reaches hfront

/-- Where two texts go on in the same way, the tokens differ in positions only. -/
theorem scan_elsewhere {text' : String} {past past' more : List Char} {pos pos' : Position}
    (h : scan text = .ok (us ++ vs)) (hus : Reaches (ofString text) us ⟨past, more, pos⟩)
    (hus' : Reaches (ofString text') us' ⟨past', more, pos'⟩) :
    ∃ vs', scan text' = .ok (us' ++ vs') ∧ vs'.map Token.form = vs.map Token.form := by
  obtain ⟨ts, vs', hts, hvs', hforms, hfault⟩ := hus.elsewhere hus'
  obtain ⟨hok, htokens⟩ := scan_eq_ok_iff.1 h
  rw [htokens, List.append_cancel_left_eq] at hts
  subst hts
  refine ⟨vs', scan_eq_ok_iff.2 ⟨?_, hvs'⟩, hforms⟩
  rw [hok] at hfault
  simpa using hfault

/-- The word starts a token behind the text: it is not joined with a lexeme at the end of the text. -/
def StartsBehind (front word : String) : Prop :=
  ∃ ts, scan (front ++ word) = .ok ts ∧ ∃ t ∈ ts, t.pos = .after front.toList

/-- The scanner comes to a word that starts a token. -/
theorem StartsBehind.reaches (h : StartsBehind front new) (hnew : IsWord new)
    (hfront : scan front = .ok (us ++ [Token.eofAt (.after front.toList)])) (back : String) :
    Reaches (ofString (front ++ (new ++ back))) us
      ⟨front.toList.reverse, (new ++ back).toList, .after front.toList⟩ := by
  obtain ⟨ts, hts, t, ht, hpos⟩ := h
  obtain ⟨us', vs, rfl⟩ := List.append_of_mem ht
  obtain ⟨c, cs, hcs, hc, -⟩ := hnew
  have hhead : c ∈ new.toList.head? := by rw [hcs]; rfl
  have hhead' : (new.toList ++ back.toList).head? = new.toList.head? := by rw [hcs]; rfl
  have hsame := scan_front hts hpos ⟨c, hhead, .inl hc⟩
  rw [hfront, Except.ok.injEq, List.append_cancel_right_eq] at hsame
  subst hsame
  have hy : Yields new.toList (new.toList ++ back.toList) :=
    yields_of_heads hhead (.inl hc) (hhead'.trans hhead) (fun p _ => by cases p c <;> simp)
      (IsWord.not_mem_symbols hc)
  have htail : YieldsTail new.toList (new.toList ++ back.toList) := fun p _ hstops d hd =>
    hstops d (by rwa [hhead'] at hd)
  have hreaches := (reaches_of_scan hts hpos).1.swap hy (.inl htail) front.toList
    (by simp [ofString, ofChars])
  rw [← String.toList_append, ← String.toList_append] at hreaches
  exact hreaches

/-- **A word is replaced by another one.** If the new word is not joined with what stands in front of it,
the tokens there stay as they are, and those behind the word have other positions only. -/
theorem scan_replace (h : scan (front ++ (old ++ back)) = .ok (us ++ t :: vs))
    (hpos : t.pos = .after front.toList) (hk : t.kind = .identifier) (hold : t.value = old)
    (hnew : IsWord new) (hstarts : StartsBehind front new) :
    ∃ vs', scan (front ++ (new ++ back)) =
        .ok (us ++ ⟨kindIn keywords new, new, .after front.toList⟩ :: vs') ∧
      vs'.map Token.form = vs.map Token.form := by
  obtain ⟨hreaches, hnext⟩ := reaches_of_scan h hpos
  have hnext := hnext (by rw [hk]; decide)
  obtain ⟨htaken, hstops, hhead⟩ := next_name hnext (.inl hk)
  have hbackRest : (next (old ++ back).toList).rest = back.toList := by
    have happend := next_append (old ++ back).toList
    rw [htaken, hold, String.toList_append, List.append_cancel_left_eq] at happend
    rw [String.toList_append]
    exact happend
  rw [hbackRest] at hstops
  have holdNext : next (old ++ back).toList =
      ⟨.token t.kind t.value, (next (old ++ back).toList).taken, back.toList⟩ := by
    rw [← hnext, ← hbackRest]
  have hnewNext : next (new ++ back).toList =
      ⟨.token (kindIn keywords new) new, new.toList, back.toList⟩ := by
    rw [String.toList_append]
    exact hnew.next_eq hstops
  -- Behind the two words, the texts are the same.
  have hbehind := hreaches.trans (reaches_token _ _ holdNext)
  have hbehind' := (hstarts.reaches hnew (scan_front h hpos hhead) back).trans
    (reaches_token _ _ hnewNext)
  rw [← hpos] at hbehind
  have hscan : scan (front ++ (old ++ back)) = .ok ((us ++ [t]) ++ vs) := by
    rw [List.append_assoc]
    exact h
  obtain ⟨vs', hscan', hforms⟩ := scan_elsewhere hscan hbehind hbehind'
  rw [List.append_assoc] at hscan'
  exact ⟨vs', hscan', hforms⟩

/-- In the place of a word, another one can only be joined with a number in front of it. -/
theorem startsBehind_of_scan (h : scan (front ++ (old ++ back)) = .ok (us ++ t :: vs))
    (hpos : t.pos = .after front.toList) (hold : IsWord old) (hnew : IsWord new)
    (hlast : ∀ u ∈ us.getLast?, u.kind.isNumber = false) : StartsBehind front new := by
  obtain ⟨hreaches, -⟩ := reaches_of_scan h hpos
  have hhead : ∃ c ∈ (old ++ back).toList.head?, isNameStart c = true := by
    obtain ⟨c, cs, hcs, hc, -⟩ := hold
    exact ⟨c, by rw [String.toList_append, hcs]; rfl, hc⟩
  have hfront := hreaches.swap (hnew.yields hhead) (.inr hlast) front.toList (by simp [ofString, ofChars])
  have hnewNext := hnew.next_eq stops_nil
  rw [List.append_nil] at hnewNext
  have hend := hfront.trans (reaches_token _ _ hnewNext)
  rw [← String.toList_append] at hend
  exact ⟨_, scan_of_reaches hend, ⟨kindIn keywords new, new, .after front.toList⟩, by simp, rfl⟩

end Token

/-! ## Lines of documentation -/

/-- Lines of documentation, each with a line feed behind it. -/
def docBlock : List String → String
  | [] => ""
  | d :: ds => "/// " ++ d ++ "\n" ++ docBlock ds

/-- The tokens of lines of documentation. -/
def Token.ofLines (pos : Position) : List String → List Token
  | [] => []
  | d :: ds =>
    ⟨.docComment, d, pos⟩ :: ⟨.newline, "\\n", pos.advance ("/// " ++ d).toList⟩ ::
      ofLines (pos.advance ("/// " ++ d ++ "\n").toList) ds

theorem Lexeme.next_docLine {d : String} (hd : Form.IsLine d) (more : List Char) :
    next (("/// " ++ d).toList ++ '\n' :: more) =
      ⟨.token .docComment d, ("/// " ++ d).toList, '\n' :: more⟩ := by
  have hcs : ∀ c ∈ ' ' :: d.toList, isCommentChar c = true :=
    List.forall_mem_cons.2 ⟨by decide, hd.2⟩
  have hstrip : strip (' ' :: d.toList) = d.toList := hd.1
  have hline : ("/// " ++ d).toList = '/' :: '/' :: '/' :: ' ' :: d.toList := by
    rw [String.toList_append]
    rfl
  rw [hline, next_doc_of_stops hcs (stops_cons.2 (by decide)), hstrip, String.ofList_toList]

theorem Scanner.reaches_docBlock {lines : List String} (hlines : ∀ d ∈ lines, Form.IsLine d)
    (past more : List Char) (pos : Position) :
    ∃ past' pos', Reaches ⟨past, (docBlock lines).toList ++ more, pos⟩ (Token.ofLines pos lines)
      ⟨past', more, pos'⟩ := by
  induction lines generalizing past pos with
  | nil => exact ⟨past, pos, .refl _⟩
  | cons d ds ih =>
    have hline := reaches_token past pos
      (next_docLine (hlines d List.mem_cons_self) ((docBlock ds).toList ++ more))
    have hbreak := reaches_token (("/// " ++ d).toList.reverseAux past)
      (pos.advance ("/// " ++ d).toList)
      (show next ('\n' :: ((docBlock ds).toList ++ more)) =
        ⟨.token .newline "\\n", ['\n'], (docBlock ds).toList ++ more⟩ from rfl)
    rw [← Position.advance_append] at hbreak
    obtain ⟨past', pos', hrest⟩ := ih (fun d hd => hlines d (List.mem_cons_of_mem _ hd)) _ _
    refine ⟨past', pos', ?_⟩
    have htext : (docBlock (d :: ds)).toList ++ more =
        ("/// " ++ d).toList ++ '\n' :: ((docBlock ds).toList ++ more) := by
      simp [docBlock]
    rw [htext]
    have hall := hline.trans (hbreak.trans hrest)
    simpa [Token.ofLines] using hall

/-- No lexeme that ends in front of a name goes on with the slashes of a comment. -/
theorem Lexeme.yields_slash {y : List Char} (hy : ∃ c ∈ y.head?, isNameStart c = true ∨ c = '%')
    (more : List Char) : Yields y ('/' :: more) ∧ YieldsTail y ('/' :: more) := by
  obtain ⟨c, hc, hname⟩ := hy
  -- Of all classes, only the characters of comments have the slash among them.
  have hruns : ∀ p ∈ runClasses, p c = true ∨ p '/' = false := by
    have hall : ∀ p ∈ runClasses.dropLast, p '/' = false := by
      simp only [runClasses, List.dropLast, List.forall_mem_cons]
      decide
    intro p hp
    rcases List.mem_append.1 (show p ∈ runClasses.dropLast ++ [isCommentChar] from hp) with hp | hp
    · exact .inr (hall p hp)
    · rw [List.mem_singleton.1 hp]
      exact .inl (isCommentChar_of_name hname)
  have htails : ∀ p ∈ tailClasses, p '/' = false := by
    simp only [tailClasses, List.forall_mem_cons]
    decide
  exact ⟨yields_of_heads hc hname rfl hruns (by simp [symbols]), fun p hp _ => stops_cons.2 (htails p hp)⟩

/-- **Lines of documentation are put in front of a name.** -/
theorem Token.scan_docBlock {front rest : String} {us vs : List Token} {t : Token} {d : String}
    {ds : List String} (h : Token.scan (front ++ rest) = .ok (us ++ t :: vs))
    (hpos : t.pos = .after front.toList) (hk : t.kind = .identifier ∨ t.kind = .type)
    (hlines : ∀ line ∈ d :: ds, Form.IsLine line) :
    ∃ vs', Token.scan (front ++ (docBlock (d :: ds) ++ rest)) =
        .ok (us ++ (ofLines (.after front.toList) (d :: ds) ++ vs')) ∧
      vs'.map Token.form = (t :: vs).map Token.form := by
  obtain ⟨hreaches, hnext⟩ := reaches_of_scan h hpos
  have hnext := hnext (by rcases hk with hk | hk <;> rw [hk] <;> decide)
  have hhead := (next_name hnext hk).2.2
  obtain ⟨past', pos', hblock⟩ := reaches_docBlock hlines front.toList.reverse rest.toList
    (.after front.toList)
  have hslash : (docBlock (d :: ds)).toList ++ rest.toList =
      '/' :: ("// " ++ d ++ "\n" ++ docBlock ds ++ rest).toList := by
    simp [docBlock]
  obtain ⟨hy, htail⟩ := yields_slash hhead ("// " ++ d ++ "\n" ++ docBlock ds ++ rest).toList
  rw [← hslash] at hy htail
  have hfront := hreaches.swap hy (.inl htail) front.toList (by simp [ofString, ofChars])
  have hstart : (⟨[], front.toList ++ ((docBlock (d :: ds)).toList ++ rest.toList), .start⟩ : Scanner) =
      ofString (front ++ (docBlock (d :: ds) ++ rest)) := by
    simp [ofString, ofChars]
  have hall : Reaches (ofString (front ++ (docBlock (d :: ds) ++ rest)))
      (us ++ ofLines (.after front.toList) (d :: ds)) ⟨past', rest.toList, pos'⟩ := by
    rw [← hstart]
    exact hfront.trans hblock
  obtain ⟨vs', hscan, hforms⟩ := scan_elsewhere h hreaches hall
  exact ⟨vs', by rw [hscan, List.append_assoc], hforms⟩

end McdocSchema
