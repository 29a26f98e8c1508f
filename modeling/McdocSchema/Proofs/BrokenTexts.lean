import McdocSchema.Proofs.ScannedParts
import McdocSchema.Proofs.StringLiterals

/-!
# Texts that cannot be scanned

A text cannot be scanned for one of two reasons: a character with which no lexeme and no gap starts
(`StartsNothing`), or a quote without a closing one. The tokens that are left behind are those of the text
in front of the place (`scan_error_precise`).
-/

namespace McdocSchema

namespace Lexeme

open Text

/-! ## Faults of a step -/

variable {cs : List Char}

/-- Whether the character ends the text, or starts a lexeme or a gap, whatever follows it: a zero, a
blank, a quote, a digit, the start of a name, a percent sign or a symbol. -/
def startsAlone (c : Char) : Bool :=
  c == '\x00' || isBlank c || c == '"' || c == '\'' || isDigit c || isNameStart c || c == '%'
    || symbols.any fun entry => entry.1 == [c]

/-- Neither a lexeme nor a gap starts with the character in front of the rest. A sign would need a digit
behind it, and a slash another slash. -/
structure StartsNothing (c : Char) (rest : List Char) : Prop where
  not_alone : startsAlone c = false
  sign : isSign c = true → Stops isDigit rest
  slash : c = '/' → Stops (· == '/') rest

theorem startsWithDigit_eq_false_iff :
    startsWithDigit cs = false ↔ Stops isDigit cs := by
  cases cs with
  | nil => exact ⟨fun _ => stops_nil, fun _ => rfl⟩
  | cons c cs =>
    rw [stops_cons]
    rfl

theorem startsWith_eq_false_iff {c : Char} :
    startsWith c cs = false ↔ Stops (· == c) cs := by
  cases cs with
  | nil => exact ⟨fun _ => stops_nil, fun _ => rfl⟩
  | cons d cs =>
    rw [stops_cons]
    rfl

/-- A text in front of which no symbol stands does not start with a symbol of one character. -/
theorem any_symbols_of_symbol?_eq_none {c : Char} (h : symbol? (c :: cs) = none) :
    (symbols.any fun entry => entry.1 == [c]) = false := by
  rw [symbol?, List.find?_eq_none] at h
  rw [List.any_eq_false]
  intro entry hentry heq
  apply h entry hentry
  rw [eq_of_beq heq]
  simp

/-- What is wrong where a step fails. -/
inductive Fails : List Char → ScanCause → List Char → Prop
  | unexpected {c : Char} {rest : List Char} (h : StartsNothing c rest) :
      Fails (c :: rest) (.unexpected c) []
  | unterminated {quote : Char} {body rest : List Char} (hq : quote = '"' ∨ quote = '\'')
      (hno : ¬ StartsWithString quote (quote :: body ++ rest)) (h : BreaksOff quote body rest) :
      Fails (quote :: body ++ rest) .unterminated (quote :: body)

theorem foundString_fails {quote : Char} {cause : ScanCause}
    (hq : quote = '"' ∨ quote = '\'') (h : (foundString (quote :: cs)).value = .fault cause) :
    Fails (quote :: cs) cause (foundString (quote :: cs)).taken := by
  have hnone : (stringBody quote cs).value = none := by
    cases hv : (stringBody quote cs).value with
    | none => rfl
    | some content =>
      rw [foundString, string, hv] at h
      cases h
  have hcause : cause = .unterminated := by
    rw [foundString, string, hnone] at h
    cases h
    rfl
  have hno : ¬ StartsWithString quote (quote :: cs) := (string_value_eq_none_iff hq).1 hnone
  have happend := stringBody_append quote cs
  have hfails := Fails.unterminated hq (by rwa [List.cons_append, happend]) (breaksOff_of_stringBody hnone)
  rw [List.cons_append, happend, ← hcause] at hfails
  exact hfails

/-- A step fails in front of a string that is not closed, or of a character that starts nothing. -/
theorem next_fails {cause : ScanCause} :
    (next cs).value = .fault cause → Fails cs cause (next cs).taken := by
  fun_cases next cs with
  | case5 c cs hz hn hb hc =>
    intro h
    obtain ⟨tail, rfl, rfl⟩ := slashes_of_startsWith hc
    rcases foundComment_cases tail with ⟨body, rest, -, hf⟩ | ⟨body, rest, -, -, -, hf⟩ <;>
      rw [hf] at h <;> cases h
  | case6 c cs hz hn hb hc hq => exact foundString_fails (by simpa using hq)
  | case10 c cs hz hn hb hslash hq hd hname hpercent =>
    intro h
    rw [foundSymbol] at h ⊢
    cases hs : symbol? (c :: cs) with
    | some entry =>
      rw [hs] at h
      cases h
    | none =>
      rw [hs] at h
      cases h
      simp only [Bool.not_eq_true, Bool.or_eq_false_iff, Bool.and_eq_false_iff] at hslash hq hd
      rw [Bool.not_eq_true] at hz hb hname hpercent
      refine .unexpected ⟨?_, fun hsign => ?_, fun heq => ?_⟩
      · simp only [startsAlone, hz, hb, hq, hd.1, hname, hpercent, any_symbols_of_symbol?_eq_none hs,
          Bool.or_false]
      · exact startsWithDigit_eq_false_iff.1 (hd.2.resolve_left (by simp [hsign]))
      · exact startsWith_eq_false_iff.1 (hslash.resolve_left (by simp [heq]))
  | _ =>
    intro h
    cases h

theorem Fails.stops_point {cs taken : List Char} {cause : ScanCause} (h : Fails cs cause taken) :
    Stops (· == '.') cs := by
  cases h with
  | @unexpected c rest h =>
    refine stops_cons.2 (beq_false_of_ne ?_)
    rintro rfl
    exact absurd h.not_alone (by decide)
  | unterminated hq => rcases hq with rfl | rfl <;> exact stops_cons.2 (by decide)

end Lexeme

namespace Scanner

open Lexeme Text

variable {fault : ScanFault}

/-- A scanner that fails comes to the place where a step does. -/
theorem exists_reaches_of_fault (s : Scanner) (done : List Token) (h : (run s done).fault = some fault) :
    ∃ ts s', Reaches s ts s' ∧ (run s done).tokens = done.reverse ++ ts ∧
      (run s done).scanner = s'.moveBehind (next s'.rest) ∧
      fault.pos = (s'.moveBehind (next s'.rest)).pos ∧
      Fails s'.rest fault.cause (next s'.rest).taken := by
  induction s, done using run.induct with
  | case1 s done r hstop =>
    rw [Scanner.run_eq, hstop] at h
    cases h
  | case2 s done r hgap ih =>
    rw [run_of_gap hgap] at h ⊢
    obtain ⟨ts, s', hreaches, hrun⟩ := ih h
    exact ⟨ts, s', .gap hgap hreaches, hrun⟩
  | case3 s done r kind value htoken ih =>
    rw [run_of_token htoken] at h ⊢
    obtain ⟨ts, s', hreaches, htokens, hrun⟩ := ih h
    refine ⟨⟨kind, value, s.pos⟩ :: ts, s', .token htoken hreaches, ?_, hrun⟩
    rw [htokens, List.reverse_cons, List.append_assoc, List.singleton_append]
  | case4 s done r cause hfault =>
    rw [Scanner.run_eq, hfault] at h ⊢
    cases h
    exact ⟨[], s, .refl s, by simp, rfl, rfl, next_fails hfault⟩

end Scanner

/-! ## Faults of a text -/

namespace Token

open Lexeme Scanner Text

variable {text : String} {fault : ScanFault}

theorem scan_eq_error_iff : scan text = .error fault ↔ ((ofString text).run []).fault = some fault := by
  rw [scan, tokens]
  cases ((ofString text).run []).fault <;> simp

/-- **A text fails at one place, and its front does not.** If a text cannot be scanned, then there is a
place in it where a lexeme should start, and the text in front of the place is scanned to the tokens
that are left behind, with the end of the text behind them. Either the character at the place starts
nothing: it is reported there, and the scanner stays there. Or it is a quote with which no string
starts: that is reported where the string breaks off, in front of a zero that is not escaped or at the
end of the text, and the scanner stays there. -/
theorem scan_error_precise (h : scan text = .error fault) :
    let cs := text.toList
    let run := (ofString text).tokens
    ∃ i, scan (String.ofList (cs.take i)) = .ok (run.tokens ++ [eofAt (.ofOffset cs i)]) ∧
      ((∃ c rest, cs.drop i = c :: rest ∧ StartsNothing c rest ∧
        fault = ⟨.unexpected c, .ofOffset cs i⟩ ∧ run.scanner.offset = i ∧
        fault.message = (Position.ofOffset cs i).describe ("Unexpected character: " ++ .singleton c)) ∨
      ∃ quote body rest, cs.drop i = quote :: body ++ rest ∧ (quote = '"' ∨ quote = '\'') ∧
        ¬ StartsWithString quote (cs.drop i) ∧ BreaksOff quote body rest ∧
        fault = ⟨.unterminated, .ofOffset cs (i + (body.length + 1))⟩ ∧
        run.scanner.offset = i + (body.length + 1) ∧
        fault.message =
          (Position.ofOffset cs (i + (body.length + 1))).describe "Unterminated string") := by
  intro cs run
  obtain ⟨cause, pos⟩ := fault
  obtain ⟨ts, s, hreaches, htokens, hscanner, rfl, hfails⟩ :=
    exists_reaches_of_fault _ _ (scan_eq_error_iff.1 h)
  have hstands := hreaches.standsIn (standsIn_ofString text)
  obtain ⟨hbehind, -⟩ := hstands.moveBehind (next_append s.rest)
  have htext : s.past.reverse ++ s.rest = cs := hstands.text_eq
  have htake : cs.take s.offset = s.past.reverse := by
    rw [← htext, offset, ← List.length_reverse, List.take_left]
  have hdrop : cs.drop s.offset = s.rest := by
    rw [← htext, offset, ← List.length_reverse, List.drop_left]
  have hoffset : run.scanner.offset = s.offset + (next s.rest).taken.length := by
    rw [← offset_moveBehind]
    exact congrArg offset hscanner
  have hpos : (s.moveBehind (next s.rest)).pos = .ofOffset cs (s.offset + (next s.rest).taken.length) := by
    rw [hbehind.pos_eq, offset_moveBehind]
  refine ⟨s.offset, ?_, ?_⟩
  · -- No step in front of the place looks behind it, as a point would have to stand there.
    have hfront := hreaches.swap (yields_nil hfails.stops_point) (.inl (yieldsTail_nil s.rest))
      s.past.reverse htext.symm
    rw [List.append_nil, ← htake] at hfront
    have hofString : Reaches (ofString (String.ofList (cs.take s.offset))) ts ⟨s.past, [], s.pos⟩ := by
      rw [ofString, String.toList_ofList]
      exact hfront
    rw [scan_of_reaches hofString, ← hstands.pos_eq]
    exact congrArg _ (congrArg (· ++ _) htokens.symm)
  · rw [hdrop, hoffset, hpos]
    generalize (next s.rest).taken = taken at hfails
    generalize s.rest = rest at hfails
    cases hfails with
    | unexpected hnothing => exact .inl ⟨_, _, rfl, hnothing, rfl, rfl, rfl⟩
    | unterminated hq hno hbreaks =>
      exact .inr ⟨_, _, _, rfl, hq, hno, hbreaks, rfl, rfl, rfl⟩

/-- The number in front of the quote looked for a second point there. -/
theorem scan_error_precise_behind_point :
    let text := "1.'it\\'s"
    scan text = .error ⟨.unterminated, ⟨1, 9⟩⟩ ∧
      ∃ i, scan (String.ofList (text.toList.take i)) =
        .ok ((ofString text).tokens.tokens ++ [eofAt (.ofOffset text.toList i)]) := by
  intro text
  have hscan : scan text = .error ⟨.unterminated, ⟨1, 9⟩⟩ := by
    dsimp only [text]
    cbv
  obtain ⟨i, hfront, -⟩ := scan_error_precise hscan
  exact ⟨hscan, i, hfront⟩

end Token

end McdocSchema
