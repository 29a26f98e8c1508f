import McdocSchema.Proofs.LexemeRests
import McdocSchema.Proofs.Relocation
import McdocSchema.Proofs.Tiling

/-!
# Two texts with a line feed between them

No lexeme but a string goes over the end of a line, and a string that is closed does not look behind its
quote. So a reader that comes to the end of the text stops as well in front of a line feed
(`next_append_newline`), and behind it the scanner starts anew some lines further down
(`Token.scan_append_newline`).
-/

namespace McdocSchema

/-! ## Steps in front of a line feed -/

namespace Lexeme

open Text

theorem stops_newline (more : List Char) {p : Char → Bool} (hp : p ∈ runClasses ++ tailClasses) :
    Stops p ('\n' :: more) := by
  have hall : (runClasses ++ tailClasses).all (fun p => !p '\n') = true := by decide
  have hstop := List.all_eq_true.1 hall p hp
  exact stops_cons.2 (by simpa using hstop)

theorem yields_newline (more : List Char) : Yields [] ('\n' :: more) where
  stops p hp _ := stops_newline more (List.mem_append_left _ hp)
  point := stops_nil
  symbol := by
    rintro c ⟨⟩
    simp [symbols]

theorem yieldsTail_newline (y more : List Char) : YieldsTail y ('\n' :: more) :=
  fun _ hp _ => stops_newline more (List.mem_append_right _ hp)

/-- A step that goes on takes the same from a text and from the text with a line feed behind it. -/
theorem next_append_newline (more : List Char) {cs : List Char} (h : (next cs).value.goesOn = true) :
    next (cs ++ '\n' :: more) =
      ⟨(next cs).value, (next cs).taken, (next cs).rest ++ '\n' :: more⟩ := by
  have htail := (yieldsTail_newline [] more).append (next cs).rest
  have hswap := next_swap (yields_newline more) (x := cs) (r := (next cs).rest)
  rw [List.append_nil] at htail
  rw [List.append_nil, List.append_nil] at hswap
  exact hswap h (fun _ _ _ _ => htail) rfl

end Lexeme

/-! ## Runs of the scanner -/

namespace Scanner

open Lexeme

variable {s : Scanner} {done : List Token}

theorem advance_moveBehind (s : Scanner) :
    (s.moveBehind (next s.rest)).pos.advance (s.moveBehind (next s.rest)).rest =
      s.pos.advance s.rest := by
  show (s.pos.advance (next s.rest).taken).advance (next s.rest).rest = _
  rw [← Position.advance_append, next_append]

theorem not_mem_moveBehind {c : Char} (h : c ∉ s.rest) : c ∉ (s.moveBehind (next s.rest)).rest := by
  intro hc
  apply h
  rw [← next_append s.rest]
  exact List.mem_append_right _ hc

/-- A scanner that is some lines further down reads the same tokens there. -/
theorem run_lower (k : Int) (past : List Char) (s : Scanner) (done done' : List Token) :
    ∃ ts, (run s done).tokens = done.reverse ++ ts ∧
      (run ⟨past, s.rest, s.pos.lower k⟩ done').tokens =
        done'.reverse ++ ts.map (Token.relocate (Position.lower k)) ∧
      (run ⟨past, s.rest, s.pos.lower k⟩ done').fault =
        (run s done).fault.map (ScanFault.relocate (Position.lower k)) := by
  induction s, done using run.induct generalizing past done' with
  | case1 s done r hstop =>
    rw [run_eq, run_eq ⟨past, _, _⟩, hstop]
    exact ⟨[Token.eofAt s.pos], by simp, by simp [Token.eofAt, Token.relocate], rfl⟩
  | case2 s done r hgap ih =>
    rw [run_of_gap hgap, @run_of_gap ⟨past, _, _⟩ _ hgap]
    simp only [moveBehind, Position.lower_advance]
    exact ih _ done'
  | case3 s done r kind value htoken ih =>
    rw [run_of_token htoken, @run_of_token ⟨past, _, _⟩ _ _ _ htoken]
    simp only [moveBehind, Position.lower_advance]
    obtain ⟨ts, hts, hts', hfault⟩ := ih (r.taken.reverseAux past) (⟨kind, value, s.pos.lower k⟩ :: done')
    refine ⟨⟨kind, value, s.pos⟩ :: ts, ?_, ?_, hfault⟩
    · exact hts.trans (by simp)
    · exact hts'.trans (by simp [Token.relocate])
  | case4 s done r cause hfault =>
    rw [run_eq, run_eq ⟨past, _, _⟩, hfault]
    refine ⟨[], by simp, by simp, ?_⟩
    simp only [moveBehind, fault, Position.lower_advance]
    rfl

/-- A scanner that comes to the end of the text would come to a line feed there, with the same tokens
read, and go on behind it. -/
theorem run_append_newline (more : List Char) (s : Scanner) (done : List Token)
    (hz : '\x00' ∉ s.rest) (h : (run s done).fault = none) :
    ∃ ts past, (run s done).tokens = done.reverse ++ ts ++ [Token.eofAt (s.pos.advance s.rest)] ∧
      run ⟨s.past, s.rest ++ '\n' :: more, s.pos⟩ done =
        run ⟨past, more, (s.pos.advance s.rest).step '\n'⟩
          (⟨.newline, "\\n", s.pos.advance s.rest⟩ :: (ts.reverse ++ done)) := by
  induction s, done using run.induct with
  | case1 s done r hstop =>
    -- Without zeros the scanner stops at the end of the text only.
    have hrest : s.rest = [] := by
      cases hs : s.rest with
      | nil => rfl
      | cons c cs =>
        have hc := next_stop hstop c (by rw [hs]; rfl)
        rw [hs, hc] at hz
        simp at hz
    refine ⟨[], '\n' :: s.past, ?_, ?_⟩
    · rw [run_eq, hstop, hrest]
      simp
    · rw [hrest, List.nil_append, run_eq]
      rfl
  | case2 s done r hgap ih =>
    have hnext := next_append_newline more (by rw [hgap]; rfl : (next s.rest).value.goesOn = true)
    have hgap' : (next (s.rest ++ '\n' :: more)).value = .gap := by rw [hnext, hgap]
    rw [run_of_gap hgap] at h ⊢
    rw [@run_of_gap ⟨s.past, _, s.pos⟩ _ hgap', hnext, ← advance_moveBehind]
    exact ih (not_mem_moveBehind hz) h
  | case3 s done r kind value htoken ih =>
    have hnext := next_append_newline more (by rw [htoken]; rfl : (next s.rest).value.goesOn = true)
    have htoken' : (next (s.rest ++ '\n' :: more)).value = .token kind value := by rw [hnext, htoken]
    rw [run_of_token htoken] at h ⊢
    rw [@run_of_token ⟨s.past, _, s.pos⟩ _ _ _ htoken', hnext, ← advance_moveBehind]
    obtain ⟨ts, past, htokens, hrun⟩ := ih (not_mem_moveBehind hz) h
    refine ⟨⟨kind, value, s.pos⟩ :: ts, past, ?_, ?_⟩
    · rw [htokens, List.reverse_cons, List.append_assoc done.reverse, List.singleton_append]
    · rw [List.reverse_cons, List.append_assoc, List.singleton_append]
      exact hrun
  | case4 s done r cause hfault =>
    rw [run_eq, hfault] at h
    cases h

end Scanner

/-- How many lines a text is moved down by one in front of it, with a line feed between them. -/
def linesOf (text : String) : Int := 1 + text.toList.count '\n'

theorem step_after (text : String) :
    (Position.after text.toList).step '\n' = Position.start.lower (linesOf text) := by
  have hline := Position.line_advance .start text.toList
  show Position.mk ((Position.start.advance text.toList).line + 1) 1 = ⟨1 + linesOf text, 1⟩
  rw [hline, linesOf, Position.start, Int.add_comm]

/-- The tokens of two texts with a line feed between them: those of the first text up to its end, the
line feed, and those of the second text, moved down. If the second text cannot be scanned, that is told
in the same way, further down. -/
theorem Token.scan_append {a : String} (hz : '\x00' ∉ a.toList) {ts : List Token}
    (ha : Token.scan a = .ok ts) (b : String) :
    ∃ ta, ts = ta ++ [Token.eofAt (Position.after a.toList)] ∧
      Token.scan (a ++ "\n" ++ b) =
        ((Token.scan b).mapError (ScanFault.relocate (Position.lower (linesOf a)))).map fun tb =>
          ta ++ ⟨.newline, "\\n", Position.after a.toList⟩ ::
            tb.map (Token.relocate (Position.lower (linesOf a))) := by
  have hstart : Scanner.ofString (a ++ "\n" ++ b) =
      ⟨[], a.toList ++ '\n' :: b.toList, .start⟩ := by
    simp [Scanner.ofString, Scanner.ofChars]
  rw [Token.scan, Scanner.tokens] at ha
  split at ha
  · cases ha
  · next hfault =>
    cases ha
    obtain ⟨ta, past, htokens, hrun⟩ :=
      Scanner.run_append_newline b.toList (Scanner.ofString a) [] hz hfault
    obtain ⟨tb, htb, htb', hfault'⟩ := Scanner.run_lower (linesOf a) past (Scanner.ofString b) []
      (⟨.newline, "\\n", Position.after a.toList⟩ :: (ta.reverse ++ []))
    refine ⟨ta, htokens, ?_⟩
    have hjoined : (Scanner.ofString (a ++ "\n" ++ b)).run [] =
        Scanner.run ⟨past, b.toList, Position.start.lower (linesOf a)⟩
          (⟨.newline, "\\n", Position.after a.toList⟩ :: (ta.reverse ++ [])) := by
      rw [hstart, ← step_after]
      exact hrun
    rw [Token.scan, Token.scan, Scanner.tokens, Scanner.tokens, hjoined]
    simp only [Scanner.ofString, Scanner.ofChars] at hfault' htb htb' ⊢
    rw [hfault', htb']
    cases hb : (Scanner.run ⟨[], b.toList, .start⟩ []).fault with
    | some fault => rfl
    | none =>
      simp [Except.map, Except.mapError, htb]

end McdocSchema
