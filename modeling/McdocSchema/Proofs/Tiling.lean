import Mathlib
import McdocSchema.Proofs.LexemeSteps
import McdocSchema.Scanner

/-!
# Tokens and gaps tile the text

The scanner loses nothing and invents nothing: the text up to its end, or up to the first character
zero outside of a string, is made of the lexemes of the tokens and of gaps between them, and so every
line feed outside of a string makes a token. `Tiling` says this with offsets into the text. It is built
along the run of the scanner, from what each step takes.
-/

namespace McdocSchema

/-! ## Tilings -/

open Lexeme Text

/-- A token with the offset of the first character of its lexeme and that of the character behind. -/
structure Placed where
  token : Token
  start : Nat
  stop : Nat

/-- The characters from the one offset up to the other make a gap. -/
def GapBetween (cs : List Char) (a b : Nat) : Prop :=
  a ≤ b ∧ b ≤ cs.length ∧ IsGap (cs.extract a b) (cs.drop b)

/-- From the offset `a` up to `n` the text is made of gaps and of the lexemes of the tokens, in their
order. -/
inductive Tiling (cs : List Char) : Nat → List Placed → Nat → Prop
  | stop {a n : Nat} (hgap : GapBetween cs a n) : Tiling cs a [] n
  | lexeme {a n : Nat} {p : Placed} {ps : List Placed} (hgap : GapBetween cs a p.start)
      (hlt : p.start < p.stop) (hle : p.stop ≤ cs.length)
      (hspells : Spells (cs.extract p.start p.stop) p.token.kind p.token.value)
      (h : Tiling cs p.stop ps n) : Tiling cs a (p :: ps) n

variable {cs : List Char} {a b n : Nat} {ps : List Placed}

theorem drop_eq_extract_append (hab : a ≤ b) : cs.drop a = cs.extract a b ++ cs.drop b := by
  have hdrop : cs.drop b = (cs.drop a).drop (b - a) := by
    rw [List.drop_drop, Nat.add_sub_cancel' hab]
  rw [List.extract_eq_take_drop, hdrop, List.take_append_drop]

theorem extract_append_extract (hab : a ≤ b) (hbn : b ≤ n) :
    cs.extract a b ++ cs.extract b n = cs.extract a n := by
  have hlen : n - a = (b - a) + (n - b) := by omega
  rw [List.extract_eq_take_drop, List.extract_eq_take_drop, List.extract_eq_take_drop, hlen,
    List.take_add, List.drop_drop, Nat.add_sub_cancel' hab]

theorem GapBetween.refl (h : a ≤ cs.length) : GapBetween cs a a := by
  refine ⟨le_rfl, h, ?_⟩
  rw [List.extract_eq_take_drop, Nat.sub_self, List.take_zero]
  exact .nil

theorem GapBetween.trans (h : GapBetween cs a b) (h' : GapBetween cs b n) : GapBetween cs a n := by
  obtain ⟨hab, -, hgap⟩ := h
  obtain ⟨hbn, hn, hgap'⟩ := h'
  rw [drop_eq_extract_append hbn] at hgap
  refine ⟨hab.trans hbn, hn, ?_⟩
  rw [← extract_append_extract hab hbn]
  exact hgap.append hgap'

theorem Tiling.prepend (hgap : GapBetween cs a b) (h : Tiling cs b ps n) : Tiling cs a ps n := by
  cases h with
  | stop hgap' => exact .stop (hgap.trans hgap')
  | lexeme hgap' hlt hle hspells h => exact .lexeme (hgap.trans hgap') hlt hle hspells h

/-! ## The run of the scanner -/

namespace Scanner

variable {s : Scanner} {done : List Token}

theorem run_eq (s : Scanner) (done : List Token) :
    run s done = match (next s.rest).value with
      | .stop => ⟨(Token.eofAt s.pos :: done).reverse, s, none⟩
      | .gap => run (s.moveBehind (next s.rest)) done
      | .token kind value => run (s.moveBehind (next s.rest)) (⟨kind, value, s.pos⟩ :: done)
      | .fault cause =>
        ⟨done.reverse, s.moveBehind (next s.rest),
          some ((s.moveBehind (next s.rest)).fault cause)⟩ := by
  rw [run]
  split
  all_goals
    next h => rw [h]

theorem run_of_gap (h : (next s.rest).value = .gap) :
    run s done = run (s.moveBehind (next s.rest)) done := by
  rw [run_eq, h]

theorem run_of_token {kind : Token.Kind} {value : String}
    (h : (next s.rest).value = .token kind value) :
    run s done = run (s.moveBehind (next s.rest)) (⟨kind, value, s.pos⟩ :: done) := by
  rw [run_eq, h]

/-- What holds where a run stops, and is kept by its steps, holds of every run without a fault and the
tokens that it adds to those found before. -/
theorem exists_of_run {P : Scanner → List Token → Prop}
    (stop : ∀ s, (next s.rest).value = .stop → P s [Token.eofAt s.pos])
    (gap : ∀ s ts, (next s.rest).value = .gap → P (s.moveBehind (next s.rest)) ts → P s ts)
    (token : ∀ s ts kind value, (next s.rest).value = .token kind value →
      P (s.moveBehind (next s.rest)) ts → P s (⟨kind, value, s.pos⟩ :: ts))
    (s : Scanner) (done : List Token) (h : (run s done).fault = none) :
    ∃ ts, (run s done).tokens = done.reverse ++ ts ∧ P s ts := by
  induction s, done using run.induct with
  | case1 s done r hstop =>
    rw [run_eq, hstop]
    exact ⟨_, List.reverse_cons, stop s hstop⟩
  | case2 s done r hgap ih =>
    rw [run_of_gap hgap] at h ⊢
    obtain ⟨ts, htokens, hts⟩ := ih h
    exact ⟨ts, htokens, gap s ts hgap hts⟩
  | case3 s done r kind value htoken ih =>
    rw [run_of_token htoken] at h ⊢
    obtain ⟨ts, htokens, hts⟩ := ih h
    refine ⟨⟨kind, value, s.pos⟩ :: ts, ?_, token s ts kind value htoken hts⟩
    rw [htokens, List.reverse_cons, List.append_assoc, List.singleton_append]
  | case4 s done r cause hfault =>
    rw [run_eq, hfault] at h
    cases h

theorem scan_eq_ok_iff {text : String} {ts : List Token} : Token.scan text = .ok ts ↔
    ((ofString text).run []).fault = none ∧ ((ofString text).run []).tokens = ts := by
  rw [Token.scan, tokens]
  cases ((ofString text).run []).fault <;> simp

/-- What holds where the scanner stops, and is kept by its steps, holds of a text and its tokens. -/
theorem of_scan {P : Scanner → List Token → Prop}
    (stop : ∀ s, (next s.rest).value = .stop → P s [Token.eofAt s.pos])
    (gap : ∀ s ts, (next s.rest).value = .gap → P (s.moveBehind (next s.rest)) ts → P s ts)
    (token : ∀ s ts kind value, (next s.rest).value = .token kind value →
      P (s.moveBehind (next s.rest)) ts → P s (⟨kind, value, s.pos⟩ :: ts))
    {text : String} {ts : List Token} (h : Token.scan text = .ok ts) : P (ofString text) ts := by
  obtain ⟨hfault, rfl⟩ := scan_eq_ok_iff.1 h
  obtain ⟨ts, htokens, hts⟩ := exists_of_run stop gap token (ofString text) [] hfault
  rw [htokens]
  exact hts

theorem text_moveBehind (s : Scanner) : (s.moveBehind (next s.rest)).text = s.text := by
  rw [text, text, moveBehind]
  simp [next_append]

theorem offset_moveBehind (s : Scanner) :
    (s.moveBehind (next s.rest)).offset = s.offset + (next s.rest).taken.length := by
  rw [offset, offset, moveBehind]
  simp [Nat.add_comm]

theorem extract_text_taken (s : Scanner) :
    s.text.extract s.offset (s.offset + (next s.rest).taken.length) = (next s.rest).taken := by
  rw [List.extract_eq_take_drop, text, offset, ← List.length_reverse, List.drop_left,
    Nat.add_sub_cancel_left]
  nth_rewrite 2 [← next_append s.rest]
  exact List.take_left

theorem drop_text_rest (s : Scanner) :
    s.text.drop (s.offset + (next s.rest).taken.length) = (next s.rest).rest := by
  rw [text, offset, ← List.length_reverse, ← List.drop_drop, List.drop_left]
  nth_rewrite 2 [← next_append s.rest]
  exact List.drop_left

theorem offset_add_le (s : Scanner) :
    s.offset + (next s.rest).taken.length ≤ s.text.length := by
  have hlen := congrArg List.length (next_append s.rest)
  rw [List.length_append] at hlen
  rw [text, offset, List.length_append, List.length_reverse]
  omega

theorem getElem?_text_offset (s : Scanner) : s.text[s.offset]? = s.rest.head? := by
  rw [text, offset, ← List.length_reverse, List.getElem?_append_right le_rfl, Nat.sub_self,
    List.head?_eq_getElem?]

theorem gapBetween_of_gap (h : (next s.rest).value = .gap) :
    GapBetween s.text s.offset (s.offset + (next s.rest).taken.length) := by
  refine ⟨Nat.le_add_right _ _, offset_add_le s, ?_⟩
  rw [extract_text_taken, drop_text_rest]
  exact next_isGap h

/-- The tokens tile the text from the offset of the scanner on, up to the end of the text or to a zero. -/
def IsTiled (s : Scanner) (ts : List Token) : Prop :=
  ∃ (ps : List Placed) (last : Token) (n : Nat), ts = ps.map Placed.token ++ [last] ∧
    last.kind = .eof ∧ Tiling s.text s.offset ps n ∧ ∀ c ∈ s.text[n]?, c = '\x00'

theorem isTiled_stop (s : Scanner) (hstop : (next s.rest).value = .stop) :
    s.IsTiled [Token.eofAt s.pos] := by
  refine ⟨[], Token.eofAt s.pos, s.offset, rfl, rfl, .stop (.refl ?_), ?_⟩
  · exact (Nat.le_add_right _ _).trans (offset_add_le s)
  · rw [getElem?_text_offset]
    exact next_stop hstop

theorem isTiled_gap (s : Scanner) (ts : List Token) (hgap : (next s.rest).value = .gap)
    (h : (s.moveBehind (next s.rest)).IsTiled ts) : s.IsTiled ts := by
  obtain ⟨ps, last, n, rfl, hlast, htiling, hend⟩ := h
  rw [text_moveBehind] at htiling hend
  rw [offset_moveBehind] at htiling
  exact ⟨ps, last, n, rfl, hlast, htiling.prepend (gapBetween_of_gap hgap), hend⟩

theorem isTiled_token (s : Scanner) (ts : List Token) (kind : Token.Kind) (value : String)
    (htoken : (next s.rest).value = .token kind value)
    (h : (s.moveBehind (next s.rest)).IsTiled ts) : s.IsTiled (⟨kind, value, s.pos⟩ :: ts) := by
  obtain ⟨ps, last, n, rfl, hlast, htiling, hend⟩ := h
  rw [text_moveBehind] at htiling hend
  rw [offset_moveBehind] at htiling
  -- The token of this step stands in front of those of the rest.
  let p : Placed := ⟨⟨kind, value, s.pos⟩, s.offset, s.offset + (next s.rest).taken.length⟩
  refine ⟨p :: ps, last, n, rfl, hlast, ?_, hend⟩
  have hne : (next s.rest).taken ≠ [] := next_taken_ne_nil (by rw [htoken]; rfl)
  have hpos := List.length_pos_iff.2 hne
  refine .lexeme (.refl ?_) (Nat.lt_add_of_pos_right hpos) (offset_add_le s) ?_ htiling
  · exact (Nat.le_add_right _ _).trans (offset_add_le s)
  · rw [extract_text_taken]
    exact next_spells htoken

/-- A run without a fault tiles the text. -/
theorem exists_tiling (s : Scanner) (done : List Token) (h : (run s done).fault = none) :
    ∃ (ps : List Placed) (last : Token) (n : Nat),
      (run s done).tokens = done.reverse ++ ps.map Placed.token ++ [last] ∧ last.kind = .eof ∧
      Tiling s.text s.offset ps n ∧ ∀ c ∈ s.text[n]?, c = '\x00' := by
  obtain ⟨_, htokens, ps, last, n, rfl, hrest⟩ :=
    exists_of_run isTiled_stop isTiled_gap isTiled_token s done h
  exact ⟨ps, last, n, by rw [htokens, List.append_assoc], hrest⟩

end Scanner

/-! ## Line feeds and zeros -/

namespace Lexeme

/-- The characters of which numbers are made. -/
def isNumberChar (c : Char) : Bool :=
  isSign c || isDigit c || c == '.' || startsExponent c || isSuffix c.toLower

theorem IsNumber.isNumberChar_of_mem {sign digits fraction exponent suffix : List Char}
    (h : IsNumber sign digits fraction exponent suffix) :
    ∀ c ∈ sign ++ digits ++ fraction ++ exponent ++ suffix, isNumberChar c = true := by
  have hsigns : ∀ {s : List Char}, IsSign s → ∀ c ∈ s, isNumberChar c = true := by
    rintro s (rfl | ⟨d, rfl, hd⟩) c hc
    · cases hc
    · rw [List.mem_singleton.1 hc]
      simp [isNumberChar, hd]
  have hdigits : ∀ {ds : List Char}, AreDigits ds → ∀ c ∈ ds, isNumberChar c = true := by
    intro ds hds c hc
    simp [isNumberChar, hds c hc]
  obtain ⟨hsign, hdig, -, hfraction, hexponent, hsuffix⟩ := h
  intro c hc
  simp only [List.mem_append] at hc
  rcases hc with (((hc | hc) | hc) | hc) | hc
  · exact hsigns hsign c hc
  · exact hdigits hdig c hc
  · rcases hfraction with rfl | ⟨ds, rfl, hds⟩
    · cases hc
    · rcases List.mem_cons.1 hc with rfl | hc
      · decide
      · exact hdigits hds c hc
  · rcases hexponent with rfl | ⟨e, s, ds, rfl, he, hs, hds⟩
    · cases hc
    · rcases List.mem_append.1 hc with hc | hc
      · rcases List.mem_cons.1 hc with rfl | hc
        · simp [isNumberChar, he]
        · exact hsigns hs c hc
      · exact hdigits hds c hc
  · rcases hsuffix with rfl | ⟨d, rfl, hd⟩
    · cases hc
    · rw [List.mem_singleton.1 hc]
      simp [isNumberChar, hd]

/-- Line feeds and zeros are in lexemes of strings only, and a line break is a line feed. -/
theorem Spells.of_mem {lexeme : List Char} {kind : Token.Kind} {value : String} {c : Char}
    (h : Spells lexeme kind value) (hmem : c ∈ lexeme) (hc : isCommentChar c = false) :
    kind = .string ∨ kind = .newline ∧ lexeme = ['\n'] := by
  -- In all other lexemes every character could stand in a comment.
  suffices hor : (kind = .string ∨ kind = .newline ∧ lexeme = ['\n']) ∨
      ∀ c ∈ lexeme, isCommentChar c = true by
    rcases hor with hor | hall
    · exact hor
    · rw [hall c hmem] at hc
      cases hc
  cases h with
  | newline => exact .inl (.inr ⟨rfl, rfl⟩)
  | string => exact .inl (.inl rfl)
  | symbol h =>
    have hall : ∀ entry ∈ symbols, entry.1.all isCommentChar = true := by decide
    exact .inr (List.all_eq_true.1 (hall _ h))
  | word hstart hcs =>
    refine .inr ?_
    intro d hd
    rcases List.mem_cons.1 hd with rfl | hd
    · exact isCommentChar_of_holds hstart (by decide) (by decide)
    · exact isCommentChar_of_holds (hcs d hd) (by decide) (by decide)
  | key hcs =>
    refine .inr ?_
    intro d hd
    rcases List.mem_cons.1 hd with rfl | hd
    · decide
    · exact isCommentChar_of_holds (hcs d hd) (by decide) (by decide)
  | number h =>
    exact .inr fun d hd =>
      isCommentChar_of_holds (h.isNumberChar_of_mem d hd) (by decide) (by decide)
  | doc h =>
    refine .inr ?_
    intro d hd
    simp only [List.mem_cons] at hd
    rcases hd with rfl | rfl | rfl | hd
    · decide
    · decide
    · decide
    · exact h d hd

end Lexeme

/-- The offset is inside the lexeme of a string. -/
def InString (ps : List Placed) (i : Nat) : Prop :=
  ∃ p ∈ ps, p.token.kind = .string ∧ p.start ≤ i ∧ i < p.stop

/-- The number of line breaks whose lexemes start at the offset. -/
def newlinesAt (ps : List Placed) (i : Nat) : Nat :=
  ps.countP fun p => p.token.kind == .newline && p.start == i

theorem newlinesAt_of_lt {i : Nat} (h : ∀ p ∈ ps, i < p.start) : newlinesAt ps i = 0 := by
  rw [newlinesAt, List.countP_eq_zero]
  intro p hp
  have hne : p.start ≠ i := Nat.ne_of_gt (h p hp)
  simp [hne]

theorem newlinesAt_cons_of_eq {p : Placed} (hk : p.token.kind = .newline) :
    newlinesAt (p :: ps) p.start = newlinesAt ps p.start + 1 :=
  List.countP_cons_of_pos (by simp [hk])

theorem newlinesAt_cons_of_ne {p : Placed} {i : Nat} (h : p.start ≠ i) :
    newlinesAt (p :: ps) i = newlinesAt ps i :=
  List.countP_cons_of_neg (by simp [h])

theorem mem_extract_of_getElem? {i : Nat} {c : Char} (h : cs[i]? = some c) (hai : a ≤ i)
    (hib : i < b) : c ∈ cs.extract a b := by
  rw [List.extract_eq_take_drop, List.mem_iff_getElem?]
  refine ⟨i - a, ?_⟩
  rw [List.getElem?_take_of_lt (by omega), List.getElem?_drop, Nat.add_sub_cancel' hai, h]

theorem Tiling.le_start (h : Tiling cs a ps n) : ∀ p ∈ ps, a ≤ p.start := by
  induction h with
  | stop => simp
  | lexeme hgap hlt _ _ _ ih =>
    intro q hq
    rcases List.mem_cons.1 hq with rfl | hq
    · exact hgap.1
    · have hle := ih q hq
      have hle' := hgap.1
      omega

theorem Tiling.le_length (h : Tiling cs a ps n) : n ≤ cs.length := by
  induction h with
  | stop hgap => exact hgap.2.1
  | lexeme _ _ _ _ _ ih => exact ih

/-- A line feed or a zero that is tiled is inside a string, or is a line feed that makes one line
break. -/
theorem Tiling.of_getElem? {i : Nat} {c : Char} (h : Tiling cs a ps n) (hc : cs[i]? = some c)
    (hbreak : isCommentChar c = false) (hai : a ≤ i) (hin : i < n) :
    InString ps i ∨ c = '\n' ∧ newlinesAt ps i = 1 := by
  -- A gap has no such character.
  have hgap : ∀ {a b : Nat}, GapBetween cs a b → a ≤ i → i < b → False := by
    intro a b h hai hib
    rw [h.2.2.isCommentChar_of_mem c (mem_extract_of_getElem? hc hai hib)] at hbreak
    cases hbreak
  induction h with
  | stop hg => exact absurd hin fun hin => hgap hg hai hin
  | @lexeme a n p ps hg hlt hle hspells h ih =>
    have hstart : p.start ≤ i := Nat.le_of_not_lt fun hi => hgap hg hai hi
    have hrest : ∀ q ∈ ps, p.stop ≤ q.start := h.le_start
    by_cases hstop : i < p.stop
    · rcases hspells.of_mem (mem_extract_of_getElem? hc hstart hstop) hbreak with hk | ⟨hk, hlex⟩
      · exact .inl ⟨p, List.mem_cons_self, hk, hstart, hstop⟩
      · have hmem := mem_extract_of_getElem? hc hstart hstop
        have hlen := congrArg List.length hlex
        rw [hlex, List.mem_singleton] at hmem
        rw [List.extract_eq_take_drop, List.length_take, List.length_drop, List.length_singleton]
          at hlen
        obtain rfl : p.start = i := by omega
        refine .inr ⟨hmem, ?_⟩
        rw [newlinesAt_cons_of_eq hk, newlinesAt_of_lt fun q hq => hlt.trans_le (hrest q hq)]
    · rcases ih (Nat.le_of_not_lt hstop) hin with ⟨q, hq, hstring⟩ | ⟨hnewline, hcount⟩
      · exact .inl ⟨q, List.mem_cons_of_mem p hq, hstring⟩
      · refine .inr ⟨hnewline, ?_⟩
        rw [newlinesAt_cons_of_ne (by omega), hcount]

theorem Tiling.unique (h : Tiling cs a ps n) : ∀ p ∈ ps, ∀ kind value,
    Spells (cs.extract p.start p.stop) kind value →
      kind = p.token.kind ∧ value = p.token.value := by
  induction h with
  | stop => simp
  | lexeme _ _ _ hspells _ ih =>
    intro q hq
    rcases List.mem_cons.1 hq with rfl | hq
    · exact fun kind value h => h.unique hspells
    · exact ih q hq

/-- The tokens of a text tile it up to the offset `n`: the end of the text, or that of the first zero
outside of a string. Each token is the only one that its lexeme spells, and every line feed in front of
`n` that is not inside a string makes exactly one line break. -/
structure Tiles (cs : List Char) (ts : List Token) (ps : List Placed) (last : Token) (n : Nat) :
    Prop where
  tokens : ts = ps.map Placed.token ++ [last]
  last_kind : last.kind = .eof
  tiling : Tiling cs 0 ps n
  end_or_zero : n = cs.length ∨ cs[n]? = some '\x00'
  zero_inString : ∀ i < n, cs[i]? = some '\x00' → InString ps i
  spells_unique : ∀ p ∈ ps, ∀ kind value, Spells (cs.extract p.start p.stop) kind value →
    kind = p.token.kind ∧ value = p.token.value
  newline_once : ∀ i < n, cs[i]? = some '\n' → ¬ InString ps i → newlinesAt ps i = 1

/-- **The scanner loses and invents nothing.** The tokens of a text are those of a tiling, with the end
of the text behind them. -/
theorem exists_tiles_of_scan {text : String} {ts : List Token} (h : Token.scan text = .ok ts) :
    ∃ (ps : List Placed) (last : Token) (n : Nat), Tiles text.toList ts ps last n := by
  have hscan : (Scanner.ofString text).tokens.fault = none ∧
      (Scanner.ofString text).tokens.tokens = ts := by
    rw [Token.scan] at h
    cases hfault : (Scanner.ofString text).tokens.fault with
    | none =>
      rw [hfault] at h
      cases h
      exact ⟨rfl, rfl⟩
    | some fault =>
      rw [hfault] at h
      cases h
  obtain ⟨ps, last, n, htokens, hlast, htiling, hend⟩ := Scanner.exists_tiling _ _ hscan.1
  have htext : (Scanner.ofString text).text = text.toList := rfl
  rw [htext] at htiling hend
  refine ⟨ps, last, n, hscan.2.symm.trans htokens, hlast, htiling, ?_, ?_, htiling.unique, ?_⟩
  · by_cases hn : n < text.toList.length
    · have hget := List.getElem?_eq_getElem hn
      exact .inr (by rw [hget, hend _ hget])
    · exact .inl (Nat.le_antisymm htiling.le_length (Nat.le_of_not_lt hn))
  · intro i hi hc
    rcases htiling.of_getElem? hc (by decide) (Nat.zero_le i) hi with hs | ⟨hnewline, -⟩
    · exact hs
    · cases hnewline
  · intro i hi hc hs
    rcases htiling.of_getElem? hc (by decide) (Nat.zero_le i) hi with hs' | ⟨-, hcount⟩
    · exact absurd hs' hs
    · exact hcount

/-- A text with a comment, a string over two lines with an escaped zero in it, a number with a suffix, a
key, documentation, and a zero that hides the rest. -/
theorem exists_tiles_of_hidden_rest :
    let text := "a // b\n\"x\n\\\x00\" 1.5F..2 %key /// doc \n\x00\""
    ∃ ts, Token.scan text = .ok ts ∧ ∃ ps last n, Tiles text.toList ts ps last n := by
  intro text
  obtain ⟨ts, hts⟩ : ∃ ts, Token.scan text = .ok ts := ⟨_, by cbv⟩
  exact ⟨ts, hts, exists_tiles_of_scan hts⟩

end McdocSchema
