import McdocSchema.Proofs.Tiling

/-!
# Writing tokens

How a list of tokens is written as a text that is scanned to those tokens again. A token is written as
its lexeme with a space in front of it; a line break has no space, so that it can end a documentation
comment. Nothing else can end one, and so `Writable` asks for a line break behind each of them.
-/

namespace McdocSchema

/-- What a token is apart from its position. -/
structure Form where
  kind : Token.Kind
  value : String
  deriving DecidableEq, Repr

def Token.form (t : Token) : Form := ⟨t.kind, t.value⟩

namespace Form

open Lexeme

/-! ## Lexemes -/

/-- A character within a string. Only the quote, the backslash and the character zero have to be
escaped. -/
def escape (c : Char) : List Char :=
  if c = '"' ∨ c = '\\' ∨ c = '\x00' then ['\\', c] else [c]

/-- The lexeme of a token with the form. -/
def lexeme (f : Form) : List Char :=
  match f.kind with
  | .string => '"' :: f.value.toList.flatMap escape ++ ['"']
  | .docComment => '/' :: '/' :: '/' :: f.value.toList
  | .newline => ['\n']
  | _ => f.value.toList

/-- What stands in front of the lexeme. -/
def margin (f : Form) : List Char :=
  if f.kind = .newline then [] else [' ']

/-- A line break. -/
def newline : Form := ⟨.newline, "\\n"⟩

/-- The end of the text. -/
def eof : Form := ⟨.eof, ""⟩

/-- The text of tokens. -/
def write (fs : List Form) : List Char :=
  fs.flatMap fun f => f.margin ++ f.lexeme

theorem write_cons (f : Form) (fs : List Form) :
    write (f :: fs) = f.margin ++ (f.lexeme ++ write fs) := by
  simp [write]

/-- The lexeme of a form is one of a token with that form. -/
def IsSpelled (f : Form) : Prop :=
  Spells f.lexeme f.kind f.value

theorem unescapes_escape (cs : List Char) : Unescapes '"' (cs.flatMap escape) cs := by
  induction cs with
  | nil => exact .nil
  | cons c cs ih =>
    rw [List.flatMap_cons, escape]
    by_cases h : c = '"' ∨ c = '\\' ∨ c = '\x00'
    · have hc : unescape c = c := by
        rcases h with rfl | rfl | rfl <;> rfl
      have hescaped : Unescapes '"' ('\\' :: c :: cs.flatMap escape) (unescape c :: cs) := .escaped ih
      rw [hc] at hescaped
      rw [if_pos h]
      exact hescaped
    · rw [if_neg h]
      rw [not_or, not_or] at h
      exact .plain h.1 h.2.1 h.2.2 ih

theorem isSpelled_string (s : String) : IsSpelled ⟨.string, s⟩ := by
  have h := Spells.string (.inl rfl) (unescapes_escape s.toList)
  rwa [String.ofList_toList] at h

theorem isSpelled_newline : IsSpelled newline := .newline

/-- A line without blanks at its ends. -/
def IsLine (s : String) : Prop :=
  Text.strip s.toList = s.toList ∧ ∀ c ∈ s.toList, isCommentChar c = true

instance (s : String) : Decidable (IsLine s) :=
  decidable_of_iff (Text.strip s.toList = s.toList ∧ s.toList.all isCommentChar = true)
    (by rw [IsLine, List.all_eq_true])

theorem isSpelled_docComment {s : String} (h : IsLine s) : IsSpelled ⟨.docComment, s⟩ := by
  have hdoc := Spells.doc h.2
  rwa [h.1, String.ofList_toList] at hdoc

/-! ## Writable tokens -/

/-- Forms with lexemes, and with a line break behind every documentation comment. -/
inductive Writable : List Form → Prop
  | nil : Writable []
  | cons {f : Form} {fs : List Form} (hf : f.IsSpelled) (hk : f.kind ≠ .docComment)
      (h : Writable fs) : Writable (f :: fs)
  | doc {f : Form} {fs : List Form} (hf : f.IsSpelled) (hk : f.kind = .docComment)
      (h : Writable fs) : Writable (f :: newline :: fs)

theorem Writable.append {fs gs : List Form} (h : Writable fs) (h' : Writable gs) :
    Writable (fs ++ gs) := by
  induction h with
  | nil => exact h'
  | cons hf hk _ ih => exact .cons hf hk ih
  | doc hf hk _ ih => exact .doc hf hk ih

theorem Writable.flatMap {ι : Type} {xs : List ι} {g : ι → List Form}
    (h : ∀ x ∈ xs, Writable (g x)) : Writable (xs.flatMap g) := by
  induction xs with
  | nil => exact .nil
  | cons x xs ih =>
    rw [List.flatMap_cons]
    exact (h x List.mem_cons_self).append (ih fun y hy => h y (List.mem_cons_of_mem x hy))

/-! ## Scanning what was written -/

/-- A lexeme does not start with a blank within a line. -/
theorem stops_isInlineBlank {lexeme rest : List Char} {kind : Token.Kind} {value : String}
    (h : Spells lexeme kind value) : Text.Stops Text.isInlineBlank (lexeme ++ rest) := by
  have hblank : ∀ c cs, Text.isBlank c = false → Text.Stops Text.isInlineBlank (c :: cs) := by
    intro c cs hc
    exact Text.stops_cons.2 (by rw [Text.isInlineBlank, hc, Bool.false_and])
  cases h with
  | newline => exact Text.stops_cons.2 (by decide)
  | symbol h =>
    have hall : ∀ entry ∈ symbols, ∃ c cs, entry.1 = c :: cs ∧ Text.isBlank c = false := by
      intro entry he
      fin_cases he <;> exact ⟨_, _, rfl, by decide⟩
    obtain ⟨c, cs, rfl, hc⟩ := hall _ h
    exact hblank _ _ hc
  | word hc _ => exact hblank _ _ (Text.isBlank_of_isNameStart hc)
  | key _ => exact hblank _ _ (by decide)
  | number h =>
    obtain ⟨d, ds, rfl⟩ := List.exists_cons_of_ne_nil h.digits_ne_nil
    have hd := Text.isBlank_of_isDigit (h.areDigits d List.mem_cons_self)
    rcases h.isSign with rfl | ⟨c, rfl, hc⟩
    · exact hblank _ _ hd
    · rw [isSign, Bool.or_eq_true, beq_iff_eq, beq_iff_eq] at hc
      rcases hc with rfl | rfl <;> exact hblank _ _ (by decide)
  | string hq _ => rcases hq with rfl | rfl <;> exact hblank _ _ (by decide)
  | doc _ => exact hblank _ _ (by decide)

/-- What was written goes on with a space or a line feed, if at all. -/
theorem head?_write (fs : List Form) : ∀ c ∈ (write fs).head?, c = '\n' ∨ c = ' ' := by
  intro c hc
  cases fs with
  | nil => cases hc
  | cons f fs =>
    rw [write_cons, margin] at hc
    by_cases hk : f.kind = .newline
    · rw [if_pos hk, lexeme, hk] at hc
      cases hc
      exact .inl rfl
    · rw [if_neg hk] at hc
      cases hc
      exact .inr rfl

end Form

namespace Scanner

open Lexeme Form

variable {s : Scanner} {rest : List Char} {done : List Token}

theorem run_token {kind : Token.Kind} {value : String} {lexeme : List Char}
    (hs : s.rest = lexeme ++ rest) (h : Spells lexeme kind value) (hr : Follows kind rest) :
    ∃ s' : Scanner, s'.rest = rest ∧ run s done = run s' (⟨kind, value, s.pos⟩ :: done) := by
  have hnext := h.next_append hr
  rw [← hs] at hnext
  refine ⟨s.moveBehind (next s.rest), ?_, ?_⟩
  · rw [hnext]
    rfl
  · rw [run_eq, hnext]

theorem run_space (hs : s.rest = ' ' :: rest) (hr : Text.Stops Text.isInlineBlank rest) :
    ∃ s' : Scanner, s'.rest = rest ∧ run s done = run s' done := by
  have hnext : next s.rest = ⟨.gap, [' '], rest⟩ := by
    have htake : rest.takeWhile Text.isInlineBlank = [] :=
      @Text.takeWhile_append_of_stops _ [] rest (by simp) hr
    have hdrop : rest.dropWhile Text.isInlineBlank = rest :=
      @Text.dropWhile_append_of_stops _ [] rest (by simp) hr
    rw [hs, next, if_neg (by decide), if_neg (by decide), if_pos (by decide), htake, hdrop]
  refine ⟨s.moveBehind (next s.rest), ?_, ?_⟩
  · rw [hnext]
    rfl
  · rw [run_eq, hnext]

theorem run_form {f : Form} (hs : s.rest = f.margin ++ (f.lexeme ++ rest)) (hf : f.IsSpelled)
    (hr : Follows f.kind rest) :
    ∃ (s' : Scanner) (t : Token), s'.rest = rest ∧ t.form = f ∧
      run s done = run s' (t :: done) := by
  rw [margin] at hs
  by_cases hk : f.kind = .newline
  · rw [if_pos hk, List.nil_append] at hs
    obtain ⟨s', hs', hrun⟩ := run_token hs hf hr
    exact ⟨s', _, hs', rfl, hrun⟩
  · rw [if_neg hk, List.singleton_append] at hs
    obtain ⟨s₁, hs₁, hrun₁⟩ := run_space hs (stops_isInlineBlank hf)
    obtain ⟨s', hs', hrun⟩ := run_token hs₁ hf hr
    exact ⟨s', _, hs', rfl, hrun₁.trans hrun⟩

/-- What was written is read again. -/
theorem run_write {fs : List Form} (h : Writable fs) (hs : s.rest = write fs) :
    ∃ ts, (run s done).fault = none ∧ (run s done).tokens = done.reverse ++ ts ∧
      ts.map Token.form = fs ++ [eof] := by
  induction h generalizing s done with
  | nil =>
    have hnext : (next s.rest).value = .stop := by
      rw [hs]
      rfl
    refine ⟨[Token.eofAt s.pos], ?_, ?_, rfl⟩
    · rw [run_eq, hnext]
    · rw [run_eq, hnext, List.reverse_cons]
  | @cons f fs hf hk hfs ih =>
    rw [write_cons] at hs
    have hfollows : Follows f.kind (write fs) := fun c hc =>
      (head?_write fs c hc).imp_right fun h => ⟨h, hk⟩
    obtain ⟨s', t, hs', rfl, hrun⟩ := run_form hs hf hfollows
    obtain ⟨ts, hfault, htokens, hts⟩ := ih hs'
    rw [hrun]
    refine ⟨t :: ts, hfault, ?_, ?_⟩
    · rw [htokens, List.reverse_cons, List.append_assoc, List.singleton_append]
    · rw [List.map_cons, hts, List.cons_append]
  | @doc f fs hf hk hfs ih =>
    rw [write_cons] at hs
    -- A comment ends at the line break only, which is why one is written behind it.
    have hfollows : Follows f.kind (write (newline :: fs)) := by
      intro c hc
      cases hc
      exact .inl rfl
    obtain ⟨s₁, t, hs₁, rfl, hrun₁⟩ := run_form hs hf hfollows
    rw [write_cons] at hs₁
    have hfollows₁ : Follows newline.kind (write fs) := fun c hc =>
      (head?_write fs c hc).imp_right fun h => ⟨h, by decide⟩
    obtain ⟨s', u, hs', hu, hrun⟩ := run_form hs₁ isSpelled_newline hfollows₁
    obtain ⟨ts, hfault, htokens, hts⟩ := ih hs'
    rw [hrun₁, hrun]
    refine ⟨t :: u :: ts, hfault, ?_, ?_⟩
    · rw [htokens, List.reverse_cons, List.reverse_cons, List.append_assoc, List.append_assoc,
        List.singleton_append, List.singleton_append]
    · rw [List.map_cons, List.map_cons, hts, hu, List.cons_append, List.cons_append]

end Scanner

/-- The tokens that a written text is scanned to have the forms that were written. -/
theorem Token.scan_write {fs : List Form} (h : Form.Writable fs) :
    ∃ ts, Token.scan (String.ofList (Form.write fs)) = .ok ts ∧
      ts.map Token.form = fs ++ [Form.eof] := by
  have hs : (Scanner.ofString (String.ofList (Form.write fs))).rest = Form.write fs :=
    String.toList_ofList
  obtain ⟨ts, hfault, htokens, hts⟩ := @Scanner.run_write _ [] fs h hs
  rw [List.reverse_nil, List.nil_append] at htokens
  refine ⟨ts, ?_, hts⟩
  rw [Token.scan, Scanner.tokens, hfault, htokens]

end McdocSchema
