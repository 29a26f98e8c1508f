import McdocSchema.Proofs.Tiling

/-!
# Positions are true

The place of an offset can be told from the text alone: its line from the number of line feeds in front
of it, its column from the number of characters behind the last of them. A scanner counts instead, and
whatever it is asked for, its count agrees with the text. So every token stands at the place of the first
character of its lexeme, and every fault at the place where the scanner was stopped (`positions_true`).
-/

namespace McdocSchema

namespace Position

/-! ## Places of offsets -/

/-- The place of an offset in a text: its line is one more than the number of line feeds in front of
it, and its column one more than the number of characters in front of it behind the last line feed. -/
def ofOffset (cs : List Char) (i : Nat) : Position where
  line := 1 + (cs.take i).count '\n'
  column := 1 + ((cs.take i).reverse.takeWhile (· != '\n')).length

theorem after_concat (cs : List Char) (c : Char) : after (cs ++ [c]) = (after cs).step c := by
  rw [after_append]
  rfl

/-- What is counted while reading is what the text read says. -/
theorem after_eq (cs : List Char) :
    after cs = ⟨1 + cs.count '\n', 1 + (cs.reverse.takeWhile (· != '\n')).length⟩ := by
  induction cs using List.reverseRecOn with
  | nil => rfl
  | append_singleton cs c ih =>
    rw [after_concat, ih, step]
    by_cases hc : c = '\n'
    · subst hc
      simp [add_assoc]
    · simp [hc, add_assoc]

theorem ofOffset_eq_after (cs : List Char) (i : Nat) : ofOffset cs i = after (cs.take i) :=
  (after_eq (cs.take i)).symm

/-- The place of an offset inside the front of a text depends on the front only. -/
theorem ofOffset_append_left (as bs : List Char) : ofOffset (as ++ bs) as.length = after as := by
  rw [ofOffset_eq_after, List.take_left]

/-! ## The order of places -/

/-- The one place comes before the other: on an earlier line, or further to the left on the same. -/
def Before (p q : Position) : Prop :=
  p.line < q.line ∨ p.line = q.line ∧ p.column < q.column

theorem Before.trans {p q r : Position} (h : p.Before q) (h' : q.Before r) : p.Before r := by
  unfold Before at *
  omega

theorem before_step (p : Position) (c : Char) : p.Before (p.step c) := by
  unfold Before step
  split
  · exact .inl (by simp)
  · exact .inr ⟨rfl, by simp⟩

theorem before_advance (p : Position) {cs : List Char} (h : cs ≠ []) : p.Before (p.advance cs) := by
  induction cs generalizing p with
  | nil => exact absurd rfl h
  | cons c cs ih =>
    rw [advance_cons]
    cases cs with
    | nil => exact before_step p c
    | cons d cs => exact (before_step p c).trans (ih (p.step c) (by simp))

/-- The places of a text are in the order of their offsets. -/
theorem ofOffset_before {cs : List Char} {i j : Nat} (hij : i < j) (hj : j ≤ cs.length) :
    (ofOffset cs i).Before (ofOffset cs j) := by
  have hsplit : cs.take j = cs.take i ++ (cs.take j).drop i := by
    nth_rewrite 1 [← List.take_append_drop i (cs.take j)]
    rw [List.take_take, min_eq_left hij.le]
  rw [ofOffset_eq_after, ofOffset_eq_after, hsplit, after_append]
  apply before_advance
  rw [← List.length_pos_iff, List.length_drop, List.length_take]
  omega

end Position

/-! ## The order of lexemes -/

section

variable {cs : List Char} {a n : Nat} {ps : List Placed}

theorem Tiling.le_stop (h : Tiling cs a ps n) : a ≤ n := by
  induction h with
  | stop hgap => exact hgap.1
  | lexeme hgap hlt _ _ _ ih => exact hgap.1.trans (hlt.le.trans ih)

theorem Tiling.start_lt (h : Tiling cs a ps n) : ∀ p ∈ ps, p.start < n := by
  induction h with
  | stop => simp
  | lexeme _ hlt _ _ h ih => exact List.forall_mem_cons.2 ⟨hlt.trans_le h.le_stop, ih⟩

theorem Tiling.pairwise (h : Tiling cs a ps n) : ps.Pairwise fun p q => p.start < q.start := by
  induction h with
  | stop => exact .nil
  | lexeme _ hlt _ _ h ih => exact .cons (fun q hq => hlt.trans_le (h.le_start q hq)) ih

end

namespace Scanner

open Lexeme Text

variable {s : Scanner} {cs : List Char} {done : List Token}

/-! ## Scanners in a text -/

/-- The scanner stands in the text, and its position is the place of its offset. -/
structure StandsIn (s : Scanner) (cs : List Char) : Prop where
  text_eq : s.text = cs
  pos_eq : s.pos = .ofOffset cs s.offset

theorem standsIn_ofString (text : String) : (ofString text).StandsIn text.toList :=
  ⟨rfl, rfl⟩

theorem StandsIn.offset_le (h : s.StandsIn cs) : s.offset ≤ cs.length := by
  rw [← h.text_eq, text, offset, List.length_append, List.length_reverse]
  exact Nat.le_add_right _ _

theorem StandsIn.pos_eq_after (h : s.StandsIn cs) : s.pos = .after s.past.reverse := by
  rw [h.pos_eq, ← h.text_eq, text, offset, ← List.length_reverse]
  exact Position.ofOffset_append_left _ _

/-- Behind a stretch of its rest the scanner stands in the same text, further on. -/
theorem StandsIn.moveBehind {α : Type} {r : Reading α} (h : s.StandsIn cs)
    (hr : r.taken ++ r.rest = s.rest) :
    (s.moveBehind r).StandsIn cs ∧ s.offset ≤ (s.moveBehind r).offset := by
  have hpast : (s.moveBehind r).past.reverse = s.past.reverse ++ r.taken := by
    simp [Scanner.moveBehind]
  have htext : (s.moveBehind r).text = cs := by
    rw [text, hpast, List.append_assoc, ← h.text_eq, text, ← hr]
    rfl
  refine ⟨⟨htext, ?_⟩, ?_⟩
  · have hpos : (s.moveBehind r).pos = .after (s.moveBehind r).past.reverse := by
      rw [hpast, Position.after_append, ← h.pos_eq_after]
      rfl
    rw [hpos, ← htext, text, offset, ← List.length_reverse]
    exact (Position.ofOffset_append_left _ _).symm
  · have hlength := congrArg List.length hpast
    rw [List.length_append, List.length_reverse, List.length_reverse] at hlength
    show s.past.length ≤ (s.moveBehind r).past.length
    omega

/-! ## Runs in a text -/

/-- The tokens of a run from the offset `a` on, with their lexemes. Each stands at the place of the first
character of its lexeme, and the end of the text, which only a run without a fault has, at the place
where the run stopped. A fault is at the position of the scanner it leaves. -/
structure Run.IsIn (r : Run) (cs : List Char) (a : Nat) (ps : List Placed) (n : Nat) : Prop where
  tiling : Tiling cs a ps n
  starts : ∀ p ∈ ps, p.token.pos = .ofOffset cs p.start
  tokens : r.tokens = ps.map Placed.token ++
    if r.fault.isNone then [Token.eofAt (.ofOffset cs n)] else []
  stops : n ≤ r.scanner.offset ∧ (r.fault = none → n = r.scanner.offset)
  standsIn : r.scanner.StandsIn cs
  fault : ∀ fault ∈ r.fault, fault.pos = r.scanner.pos

/-- A run from a scanner that stands in a text is in that text. The tokens found before it started are
in front of its own ones. -/
theorem exists_isIn (s : Scanner) (done : List Token) (h : s.StandsIn cs) :
    ∃ ps n own, (run s done).tokens = done.reverse ++ own ∧
      Run.IsIn { run s done with tokens := own } cs s.offset ps n := by
  have hstart := h.offset_le
  induction s, done using run.induct with
  | case1 s done r hstop =>
    rw [run_eq, hstop]
    refine ⟨[], s.offset, [Token.eofAt s.pos], by simp, .stop (.refl hstart), by simp, ?_, ?_, h, ?_⟩
    · rw [← h.pos_eq]
      rfl
    · exact ⟨le_rfl, fun _ => rfl⟩
    · simp
  | case2 s done r hgap ih =>
    obtain ⟨hnext, hle⟩ := h.moveBehind (next_append s.rest)
    obtain ⟨ps, n, own, hown, hin⟩ := ih hnext hnext.offset_le
    rw [run_eq, hgap]
    rw [offset_moveBehind] at hin
    refine ⟨ps, n, own, hown, ?_, hin.starts, hin.tokens, hin.stops, hin.standsIn, hin.fault⟩
    exact hin.tiling.prepend (h.text_eq ▸ gapBetween_of_gap hgap)
  | case3 s done r kind value htoken ih =>
    obtain ⟨hnext, hle⟩ := h.moveBehind (next_append s.rest)
    obtain ⟨ps, n, own, hown, hin⟩ := ih hnext hnext.offset_le
    rw [run_eq, htoken]
    rw [offset_moveBehind] at hin
    -- The token of this step stands in front of those of the rest.
    let p : Placed := ⟨⟨kind, value, s.pos⟩, s.offset, s.offset + (next s.rest).taken.length⟩
    refine ⟨p :: ps, n, p.token :: own, ?_, ?_, ?_, ?_, hin.stops, hin.standsIn, hin.fault⟩
    · rw [hown]
      simp [p]
    · have hne : (next s.rest).taken ≠ [] := next_taken_ne_nil (by rw [htoken]; rfl)
      have hspells : Spells (cs.extract p.start p.stop) kind value := by
        rw [← h.text_eq, extract_text_taken]
        exact next_spells htoken
      have hstop : p.stop ≤ cs.length := h.text_eq ▸ offset_add_le s
      exact .lexeme (.refl hstart) (Nat.lt_add_of_pos_right (List.length_pos_iff.2 hne)) hstop
        hspells hin.tiling
    · exact List.forall_mem_cons.2 ⟨h.pos_eq, hin.starts⟩
    · have htokens := hin.tokens
      simp only at htokens
      rw [List.map_cons, List.cons_append, ← htokens]
  | case4 s done r cause hfault =>
    obtain ⟨hnext, hle⟩ := h.moveBehind (next_append s.rest)
    rw [run_eq, hfault]
    refine ⟨[], s.offset, [], by simp, .stop (.refl hstart), by simp, by simp, ?_, hnext, ?_⟩
    · exact ⟨hle, by simp⟩
    · rintro fault ⟨⟩
      rfl

theorem exists_tokens_isIn (h : s.StandsIn cs) :
    ∃ ps n, s.tokens.IsIn cs s.offset ps n := by
  obtain ⟨ps, n, own, hown, hin⟩ := exists_isIn s [] h
  rw [List.reverse_nil, List.nil_append] at hown
  exact ⟨ps, n, by rwa [← hown] at hin⟩

/-- The tokens of a run, the end of the text included, are in the order of the text. -/
theorem Run.IsIn.pairwise {r : Run} {a n : Nat} {ps : List Placed} (h : r.IsIn cs a ps n) :
    r.tokens.Pairwise fun t u => t.pos.Before u.pos := by
  have hlength := h.tiling.le_length
  have hstops : ∀ p ∈ ps, p.token.pos.Before (.ofOffset cs n) := by
    intro p hp
    have hlt := h.tiling.start_lt p hp
    rw [h.starts p hp]
    exact Position.ofOffset_before hlt hlength
  have hps : ps.Pairwise fun p q => p.token.pos.Before q.token.pos := by
    refine h.tiling.pairwise.imp_of_mem fun {p q} hp hq hpq => ?_
    have hlt := h.tiling.start_lt q hq
    rw [h.starts p hp, h.starts q hq]
    exact Position.ofOffset_before hpq (hlt.le.trans hlength)
  rw [h.tokens, List.pairwise_append]
  refine ⟨List.pairwise_map.2 hps, by split <;> simp, ?_⟩
  intro t ht u hu
  obtain ⟨p, hp, rfl⟩ := List.mem_map.1 ht
  split at hu
  · rw [List.mem_singleton.1 hu]
    exact hstops p hp
  · cases hu

/-! ## What a scanner is asked for -/

/-- What a scanner can be asked for. -/
inductive Request
  | peek (distance : Int)
  | advance
  | skipBlanks
  | string
  | number
  | word
  | comment
  | tokens
  /-- To fail with a message. -/
  | report (message : String)
  deriving DecidableEq, Repr

/-- What a scanner answers. -/
inductive Reply
  | nothing
  | char (c : Char)
  /-- There is no character so far in front of the text. -/
  | outside
  | text (content : List Char)
  | lexeme (content : List Char) (kind : Token.Kind)
  | tokens (ts : List Token)
  | fault (fault : ScanFault)
  deriving DecidableEq, Repr

/-- Answers a request; the second part is the scanner behind it, also behind a fault. -/
def answer (s : Scanner) : Request → Reply × Scanner
  | .peek distance => (((s.peek? distance).map Reply.char).getD .outside, s)
  | .advance => (.char s.advance.1, s.advance.2)
  | .skipBlanks => (.nothing, s.skipBlanks)
  | .string =>
    match s.string with
    | (.ok content, s') => (.text content, s')
    | (.error fault, s') => (.fault fault, s')
  | .number => (.lexeme s.number.1.1 s.number.1.2, s.number.2)
  | .word => (.text s.word.1, s.word.2)
  | .comment => (.lexeme s.comment.1.1 s.comment.1.2, s.comment.2)
  | .tokens => ((s.tokens.fault.map Reply.fault).getD (.tokens s.tokens.tokens), s.tokens.scanner)
  | .report message => (.fault (s.fault (.reported message)), s)

/-- The scanner behind requests, answered or refused one after the other. -/
def behind (s : Scanner) (requests : List Request) : Scanner :=
  requests.foldl (fun s request => (s.answer request).2) s

theorem takeRun_append (p : Char → Bool) (cs : List Char) :
    (takeRun p cs).taken ++ (takeRun p cs).rest = cs :=
  List.takeWhile_append_dropWhile

theorem StandsIn.advance (h : s.StandsIn cs) :
    s.advance.2.StandsIn cs ∧ s.offset ≤ s.advance.2.offset := by
  unfold Scanner.advance
  split
  · exact ⟨h, le_rfl⟩
  · next c rest hrest => exact h.moveBehind hrest.symm

/-- **A step keeps the position true.** Behind a request the scanner stands in the same text, not before
the place where it stood, and a fault is reported at the place where it stands then. -/
theorem StandsIn.answer (h : s.StandsIn cs) (request : Request) :
    (s.answer request).2.StandsIn cs ∧ s.offset ≤ (s.answer request).2.offset ∧
      ∀ fault, (s.answer request).1 = .fault fault → fault.pos = (s.answer request).2.pos := by
  cases request with
  | peek distance =>
    refine ⟨h, le_rfl, fun fault hfault => ?_⟩
    rw [Scanner.answer] at hfault
    cases hc : s.peek? distance <;> rw [hc] at hfault <;> cases hfault
  | advance => exact ⟨h.advance.1, h.advance.2, by simp [Scanner.answer]⟩
  | skipBlanks =>
    obtain ⟨hin, hle⟩ := h.moveBehind (takeRun_append isInlineBlank s.rest)
    exact ⟨hin, hle, by simp [Scanner.answer]⟩
  | string =>
    obtain ⟨hin, hle⟩ := h.moveBehind (string_append s.rest)
    rw [Scanner.answer, Scanner.string]
    cases (Lexeme.string s.rest).value with
    | none =>
      refine ⟨hin, hle, ?_⟩
      rintro fault ⟨⟩
      rfl
    | some content => exact ⟨hin, hle, by simp⟩
  | number =>
    obtain ⟨hin, hle⟩ := h.moveBehind (number_append s.rest)
    exact ⟨hin, hle, by simp [Scanner.answer]⟩
  | word =>
    obtain ⟨hin, hle⟩ := h.moveBehind (takeRun_append isNameChar s.rest)
    exact ⟨hin, hle, by simp [Scanner.answer]⟩
  | comment =>
    obtain ⟨hin, hle⟩ := h.moveBehind (comment_append s.rest)
    exact ⟨hin, hle, by simp [Scanner.answer]⟩
  | tokens =>
    obtain ⟨ps, n, hin⟩ := exists_tokens_isIn h
    refine ⟨hin.standsIn, hin.tiling.le_stop.trans hin.stops.1, fun fault hfault => ?_⟩
    rw [Scanner.answer] at hfault
    cases hf : s.tokens.fault with
    | none =>
      rw [hf] at hfault
      cases hfault
    | some fault' =>
      rw [hf] at hfault
      cases hfault
      exact hin.fault _ hf
  | report message =>
    refine ⟨h, le_rfl, ?_⟩
    rintro fault ⟨⟩
    rfl

/-- **A run keeps the position true.** -/
theorem StandsIn.behind (h : s.StandsIn cs) (requests : List Request) :
    (s.behind requests).StandsIn cs ∧ s.offset ≤ (s.behind requests).offset := by
  induction requests generalizing s with
  | nil => exact ⟨h, le_rfl⟩
  | cons request requests ih =>
    obtain ⟨hstep, hle, -⟩ := h.answer request
    obtain ⟨hrun, hle'⟩ := ih hstep
    exact ⟨hrun, hle.trans hle'⟩

/-- **Reported positions are true.** Behind any requests, answered or refused, the scanner of a text is
at an offset inside the text, and its position is the place of that offset: one line for each line feed
in front of it, one column for each character behind the last of them. The offset never decreases. A
fault that is answered next is at the place where the scanner stands behind it. The tokens that are read
next, up to a fault or to the end, stand at the places of the first characters of their lexemes, the end
of the text where the scanner stopped, and each place is behind the one of the token before. -/
theorem positions_true (text : String) (before : List Request) :
    let cs := text.toList
    let s := (ofString text).behind before
    (s.text = cs ∧ s.offset ≤ cs.length ∧
      s.pos.line = 1 + (cs.take s.offset).count '\n' ∧
      s.pos.column = 1 + ((cs.take s.offset).reverse.takeWhile (· != '\n')).length) ∧
    (∀ more : List Request, s.offset ≤ (s.behind more).offset) ∧
    (∀ request fault, (s.answer request).1 = .fault fault →
      fault.pos = .ofOffset cs (s.answer request).2.offset) ∧
    (∃ ps n, s.tokens.IsIn cs s.offset ps n) ∧
    s.tokens.tokens.Pairwise fun t u => t.pos.Before u.pos := by
  intro cs s
  have hs : s.StandsIn cs := ((standsIn_ofString text).behind before).1
  obtain ⟨ps, n, hin⟩ := exists_tokens_isIn hs
  refine ⟨⟨hs.text_eq, hs.offset_le, ?_, ?_⟩, fun more => (hs.behind more).2, ?_, ⟨ps, n, hin⟩,
    hin.pairwise⟩
  · rw [hs.pos_eq]
    rfl
  · rw [hs.pos_eq]
    rfl
  · intro request fault hfault
    obtain ⟨hstep, -, hpos⟩ := hs.answer request
    rw [hpos fault hfault, hstep.pos_eq]

end Scanner

end McdocSchema
