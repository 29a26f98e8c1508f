import Mathlib.Data.List.TakeWhile
import McdocSchema.Proofs.Spelling

/-!
# What a step of the scanner takes

From the front of the rest, a step takes the lexeme of a token, or a gap, or it stops in front of a zero
or at the end. A gap has blanks within a line and plain comments; it is said like the lexemes, without a
scanner.
-/

namespace McdocSchema

namespace Lexeme

open Text

/-- What may stand between two lexemes, in front of the given rest: blanks within a line, and comments
that start with two slashes but not three and end where the line, the text or what is read of it
does. -/
inductive IsGap : List Char → List Char → Prop
  | nil {rest : List Char} : IsGap [] rest
  | blank {c : Char} {cs rest : List Char} (hc : isInlineBlank c = true) (h : IsGap cs rest) :
      IsGap (c :: cs) rest
  | comment {body cs rest : List Char} (hb : ∀ c ∈ body, isCommentChar c = true)
      (hthird : ∀ c ∈ body.head?, c ≠ '/') (hend : Stops isCommentChar (cs ++ rest))
      (h : IsGap cs rest) : IsGap ('/' :: '/' :: body ++ cs) rest

theorem IsGap.append {cs cs' rest : List Char} (h : IsGap cs (cs' ++ rest)) (h' : IsGap cs' rest) :
    IsGap (cs ++ cs') rest := by
  generalize hr : cs' ++ rest = more at h
  induction h with
  | nil => exact h'
  | blank hc _ ih => exact .blank hc (ih hr)
  | comment hb hthird hend _ ih =>
    rw [List.append_assoc]
    refine .comment hb hthird ?_ (ih hr)
    rwa [List.append_assoc, hr]

theorem isGap_of_blanks {cs rest : List Char} (h : ∀ c ∈ cs, isInlineBlank c = true) :
    IsGap cs rest := by
  induction cs with
  | nil => exact .nil
  | cons c cs ih =>
    exact .blank (h c List.mem_cons_self) (ih fun d hd => h d (List.mem_cons_of_mem c hd))

theorem isCommentChar_of_holds {p : Char → Bool} {c : Char} (h : p c = true)
    (hn : p '\n' = false) (hz : p '\x00' = false) : isCommentChar c = true := by
  rw [isCommentChar, Bool.and_eq_true, bne_iff_ne, bne_iff_ne]
  exact ⟨ne_of_holds h hn, ne_of_holds h hz⟩

theorem IsGap.isCommentChar_of_mem {cs rest : List Char} (h : IsGap cs rest) :
    ∀ c ∈ cs, isCommentChar c = true := by
  induction h with
  | nil => simp
  | blank hc _ ih =>
    intro d hd
    rcases List.mem_cons.1 hd with rfl | hd
    · exact isCommentChar_of_holds hc (by decide) (by decide)
    · exact ih d hd
  | comment hb _ _ _ ih =>
    intro d hd
    rcases List.mem_append.1 hd with hd | hd
    · simp only [List.mem_cons] at hd
      rcases hd with rfl | rfl | hd
      · decide
      · decide
      · exact hb d hd
    · exact ih d hd

/-! ## What a step takes -/

variable {cs : List Char} {kind : Token.Kind} {value : String}

theorem isSign_takeSign (cs : List Char) : IsSign (takeSign cs).1 := by
  cases cs with
  | nil => exact .inl rfl
  | cons c cs =>
    by_cases hc : isSign c = true
    · rw [takeSign, if_pos hc]
      exact .inr ⟨c, rfl, hc⟩
    · rw [takeSign, if_neg hc]
      exact .inl rfl

theorem areDigits_takeWhile (cs : List Char) : AreDigits (cs.takeWhile isDigit) :=
  fun _ hc => List.mem_takeWhile_imp hc

theorem isFraction_takeFraction (cs : List Char) : IsFraction (takeFraction cs).1 := by
  unfold takeFraction
  split
  · exact .inl rfl
  · exact .inr ⟨_, rfl, areDigits_takeWhile _⟩
  · exact .inl rfl

theorem isExponent_takeExponent (cs : List Char) : IsExponent (takeExponent cs).1 := by
  cases cs with
  | nil => exact .inl rfl
  | cons c cs =>
    by_cases hc : startsExponent c = true
    · rw [takeExponent, if_pos (by exact hc)]
      exact .inr ⟨c, _, _, rfl, hc, isSign_takeSign cs, areDigits_takeWhile _⟩
    · rw [takeExponent, if_neg (by exact hc)]
      exact .inl rfl

theorem isSuffix_takeSuffix (cs : List Char) : IsSuffix (takeSuffix cs).1 := by
  cases cs with
  | nil => exact .inl rfl
  | cons c cs =>
    by_cases hc : isSuffix c.toLower = true
    · rw [takeSuffix, if_pos hc]
      exact .inr ⟨c, rfl, hc⟩
    · rw [takeSuffix, if_neg hc]
      exact .inl rfl

/-- The content of a string is what its characters stand for. -/
theorem unescapes_of_stringBody {quote : Char} {cs content : List Char}
    (h : (stringBody quote cs).value = some content) :
    ∃ body, (stringBody quote cs).taken = body ++ [quote] ∧ Unescapes quote body content := by
  fun_induction stringBody quote cs generalizing content with
  | case1 => cases h
  | case2 => cases h
  | case3 c cs hz hq =>
    cases h
    exact ⟨[], by rw [eq_of_beq hq]; rfl, .nil⟩
  | case4 => cases h
  | case5 c hz hq hb e cs r =>
    rename_i ih
    obtain ⟨tail, htail, rfl⟩ := Option.map_eq_some_iff.1 h
    obtain ⟨body, hbody, hu⟩ := ih htail
    refine ⟨'\\' :: e :: body, ?_, .escaped hu⟩
    rw [hbody, eq_of_beq hb]
    rfl
  | case6 c cs hz hq hb r =>
    rename_i ih
    obtain ⟨tail, htail, rfl⟩ := Option.map_eq_some_iff.1 h
    obtain ⟨body, hbody, hu⟩ := ih htail
    refine ⟨c :: body, ?_, .plain (by simpa using hq) (by simpa using hb) (by simpa using hz) hu⟩
    rw [hbody]
    rfl

theorem foundString_value (cs : List Char) :
    (∃ value, (foundString cs).value = .token .string value) ∨
      (foundString cs).value = .fault .unterminated := by
  rw [foundString]
  cases (Lexeme.string cs).value with
  | none => exact .inr rfl
  | some content => exact .inl ⟨_, rfl⟩

theorem foundString_spells {quote : Char}
    (hq : quote = '"' ∨ quote = '\'') (h : (foundString (quote :: cs)).value = .token kind value) :
    Spells (foundString (quote :: cs)).taken kind value := by
  show Spells (quote :: (stringBody quote cs).taken) kind value
  rw [foundString, Lexeme.string] at h
  cases hv : (stringBody quote cs).value with
  | none =>
    rw [hv] at h
    cases h
  | some content =>
    rw [hv] at h
    cases h
    obtain ⟨body, hbody, hu⟩ := unescapes_of_stringBody hv
    rw [hbody]
    exact .string hq hu

theorem foundNumber_spells {c : Char}
    (hc : (isDigit c || (isSign c && startsWithDigit cs)) = true)
    (h : (foundNumber (c :: cs)).value = .token kind value) :
    Spells (foundNumber (c :: cs)).taken kind value := by
  have hne : (takeSign (c :: cs)).2.takeWhile isDigit ≠ [] := by
    by_cases hs : isSign c = true
    · rw [isDigit_of_isSign hs, hs, Bool.false_or, Bool.true_and] at hc
      rw [takeSign, if_pos hs]
      cases cs with
      | nil => cases hc
      | cons d ds =>
        rw [startsWithDigit] at hc
        simp [hc]
    · have hd : isDigit c = true := by simpa [hs] using hc
      rw [takeSign, if_neg hs]
      simp [hd]
  injection h with hkind hvalue
  rw [← hkind, ← hvalue]
  exact Spells.number ⟨isSign_takeSign (c :: cs), areDigits_takeWhile _, hne,
    isFraction_takeFraction _, isExponent_takeExponent _, isSuffix_takeSuffix _⟩

theorem foundSymbol_value (c : Char) (cs : List Char) :
    (∃ kind value, (foundSymbol c cs).value = .token kind value) ∨
      (foundSymbol c cs).value = .fault (.unexpected c) := by
  rw [foundSymbol]
  cases symbol? (c :: cs) with
  | none => exact .inr rfl
  | some entry => exact .inl ⟨_, _, rfl⟩

theorem foundSymbol_spells {c : Char}
    (h : (foundSymbol c cs).value = .token kind value) :
    Spells (foundSymbol c cs).taken kind value := by
  rw [foundSymbol] at h ⊢
  cases hs : symbol? (c :: cs) with
  | none =>
    rw [hs] at h
    cases h
  | some entry =>
    rw [hs] at h
    cases h
    exact .symbol (List.mem_of_find?_eq_some hs)

theorem stops_dropWhile (p : Char → Bool) (cs : List Char) : Stops p (cs.dropWhile p) := by
  induction cs with
  | nil => exact stops_nil
  | cons c cs ih =>
    by_cases hc : p c = true
    · rwa [List.dropWhile_cons_of_pos hc]
    · rw [List.dropWhile_cons_of_neg hc]
      exact stops_cons.2 (by simpa using hc)

/-- A comment with three slashes is documentation, and one with two is a gap. -/
theorem foundComment_cases (cs : List Char) :
    (∃ body rest, (∀ c ∈ body, isCommentChar c = true) ∧
      foundComment ('/' :: '/' :: cs) = ⟨.token .docComment (String.ofList (strip body)),
        '/' :: '/' :: '/' :: body, rest⟩) ∨
    ∃ body rest, (∀ c ∈ body, isCommentChar c = true) ∧ (∀ c ∈ body.head?, c ≠ '/') ∧
      Stops isCommentChar rest ∧
      foundComment ('/' :: '/' :: cs) = ⟨.gap, '/' :: '/' :: body, rest⟩ := by
  by_cases hthird : ∃ tail, cs = '/' :: tail
  · obtain ⟨tail, rfl⟩ := hthird
    exact .inl ⟨_, _, fun _ => List.mem_takeWhile_imp, rfl⟩
  · have hbody : commentBody cs = ⟨(strip (cs.takeWhile isCommentChar), .comment),
        cs.takeWhile isCommentChar, cs.dropWhile isCommentChar⟩ := by
      unfold commentBody
      split
      · exact absurd ⟨_, rfl⟩ hthird
      · rfl
    have hhead : ∀ c ∈ (cs.takeWhile isCommentChar).head?, c ≠ '/' := by
      rintro c hc rfl
      rw [List.head?_takeWhile] at hc
      have hcs : cs.head? = some '/' := (Option.mem_filter_iff.1 hc).1
      exact hthird ⟨cs.tail, (List.cons_head?_tail hcs).symm⟩
    refine .inr ⟨cs.takeWhile isCommentChar, cs.dropWhile isCommentChar,
      fun _ => List.mem_takeWhile_imp, hhead, stops_dropWhile isCommentChar cs, ?_⟩
    rw [foundComment, comment, hbody]

theorem slashes_of_startsWith {c : Char}
    (h : (c == '/' && startsWith '/' cs) = true) : ∃ tail, c = '/' ∧ cs = '/' :: tail := by
  cases cs with
  | nil => simp [startsWith] at h
  | cons d cs =>
    obtain ⟨rfl, rfl⟩ : c = '/' ∧ d = '/' := by simpa [startsWith] using h
    exact ⟨cs, rfl, rfl⟩

theorem next_spells :
    (next cs).value = .token kind value → Spells (next cs).taken kind value := by
  fun_cases next cs with
  | case1 => simp
  | case2 => simp
  | case3 c cs hz hn =>
    intro h
    cases h
    rw [eq_of_beq hn]
    exact .newline
  | case4 => simp
  | case5 c cs hz hn hb hc =>
    intro h
    obtain ⟨tail, rfl, rfl⟩ := slashes_of_startsWith hc
    rcases foundComment_cases tail with ⟨body, rest, hbody, hf⟩ | ⟨body, rest, -, -, -, hf⟩
    · rw [hf] at h ⊢
      cases h
      exact .doc hbody
    · rw [hf] at h
      cases h
  | case6 c cs hz hn hb hc hq =>
    exact foundString_spells (by simpa using hq)
  | case7 c cs hz hn hb hc hq hd => exact foundNumber_spells hd
  | case8 c cs hz hn hb hc hq hd hname =>
    intro h
    cases h
    exact .word hname fun _ => List.mem_takeWhile_imp
  | case9 c cs hz hn hb hc hq hd hname hpercent =>
    intro h
    cases h
    rw [eq_of_beq hpercent]
    exact .key fun _ => List.mem_takeWhile_imp
  | case10 c cs => exact foundSymbol_spells

/-- A gap is blanks or a comment. -/
theorem next_gap_cases (h : (next cs).value = .gap) :
    (∃ c blanks, (next cs).taken = c :: blanks ∧ (∀ d ∈ c :: blanks, isInlineBlank d = true) ∧
      Stops isInlineBlank (next cs).rest) ∨
    ∃ body, (next cs).taken = '/' :: '/' :: body ∧ (∀ c ∈ body, isCommentChar c = true) ∧
      (∀ c ∈ body.head?, c ≠ '/') ∧ Stops isCommentChar (next cs).rest := by
  revert h
  fun_cases next cs with
  | case4 c cs hz hn hb =>
    intro _
    have hc : isInlineBlank c = true := by
      rw [isInlineBlank, hb]
      simpa using hn
    refine .inl ⟨c, _, rfl, ?_, stops_dropWhile _ _⟩
    exact List.forall_mem_cons.2 ⟨hc, fun _ => List.mem_takeWhile_imp⟩
  | case5 c cs hz hn hb hc =>
    intro h
    obtain ⟨tail, rfl, rfl⟩ := slashes_of_startsWith hc
    rcases foundComment_cases tail with ⟨body, rest, -, hf⟩ | ⟨body, rest, hbody, hthird, hend, hf⟩
    · rw [hf] at h
      cases h
    · rw [hf]
      exact .inr ⟨body, rfl, hbody, hthird, hend⟩
  | case6 c cs =>
    intro h
    rcases foundString_value (c :: cs) with ⟨value, hv⟩ | hv <;> rw [hv] at h <;> cases h
  | case10 c cs =>
    intro h
    rcases foundSymbol_value c cs with ⟨kind, value, hv⟩ | hv <;> rw [hv] at h <;> cases h
  | _ =>
    intro h
    cases h

theorem next_isGap (h : (next cs).value = .gap) : IsGap (next cs).taken (next cs).rest := by
  rcases next_gap_cases h with ⟨c, blanks, htaken, hblanks, -⟩ | ⟨body, htaken, hbody, hthird, hend⟩
  · rw [htaken]
    exact .blank (hblanks c List.mem_cons_self)
      (isGap_of_blanks fun d hd => hblanks d (List.mem_cons_of_mem c hd))
  · rw [htaken, ← List.append_nil body]
    exact .comment hbody hthird hend .nil

/-- A step that stops is at the end of the text or in front of a zero. -/
theorem next_stop : (next cs).value = .stop → ∀ c ∈ cs.head?, c = '\x00' := by
  fun_cases next cs with
  | case1 => simp
  | case2 c cs hz => simpa using hz
  | case5 c cs hz hn hb hc =>
    intro h
    obtain ⟨tail, rfl, rfl⟩ := slashes_of_startsWith hc
    rcases foundComment_cases tail with ⟨body, rest, -, hf⟩ | ⟨body, rest, -, -, -, hf⟩ <;>
      rw [hf] at h <;> cases h
  | case6 c cs =>
    intro h
    rcases foundString_value (c :: cs) with ⟨value, hv⟩ | hv <;> rw [hv] at h <;> cases h
  | case10 c cs =>
    intro h
    rcases foundSymbol_value c cs with ⟨kind, value, hv⟩ | hv <;> rw [hv] at h <;> cases h
  | _ =>
    intro h
    cases h

end Lexeme

end McdocSchema
