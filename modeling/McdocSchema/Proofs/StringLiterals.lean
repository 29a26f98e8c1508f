import Mathlib.Data.List.Forall2
import McdocSchema.Proofs.LexemeSteps
import McdocSchema.Scanner

/-!
# String literals

A character of a string stands between the quotes as it is, or as the letter for it behind a backslash, or
itself behind a backslash (`IsEncoding`). The scanner reads every string back whichever writings were
chosen, takes nothing else for a string, and fails just where no string starts (`Scanner.string_exact`).
-/

namespace McdocSchema

namespace Lexeme

/-! ## Writings of characters -/

/-- The characters that have a letter, which stands for them behind a backslash. -/
def namedEscapes : List (Char × Char) :=
  [('\n', 'n'), ('\t', 't'), ('\r', 'r'), ('\x08', 'b'), ('\x0c', 'f')]

/-- The ways to write a character between quotes. -/
inductive Writes (quote : Char) : Char → List Char → Prop
  /-- As it is, unless it would end the string or start an escape. -/
  | plain {c : Char} (hq : c ≠ quote) (hb : c ≠ '\\') (hz : c ≠ '\x00') : Writes quote c [c]
  /-- By its letter. -/
  | named {c e : Char} (h : (c, e) ∈ namedEscapes) : Writes quote c ['\\', e]
  /-- Itself behind a backslash, unless it is the letter of another character. -/
  | itself {c : Char} (h : c ∉ namedEscapes.map Prod.snd) : Writes quote c ['\\', c]

/-- The text has a writing for each character of the content, in their order. -/
def IsEncoding (quote : Char) (content enc : List Char) : Prop :=
  ∃ parts, List.Forall₂ (Writes quote) content parts ∧ enc = parts.flatten

/-- The text starts with a string between two of the quotes. -/
def StartsWithString (quote : Char) (cs : List Char) : Prop :=
  ∃ content enc rest, IsEncoding quote content enc ∧ cs = quote :: enc ++ quote :: rest

variable {quote c : Char} {cs content enc part rest : List Char}

theorem isEncoding_nil : IsEncoding quote [] [] :=
  ⟨[], .nil, rfl⟩

theorem IsEncoding.cons (hc : Writes quote c part) (h : IsEncoding quote content enc) :
    IsEncoding quote (c :: content) (part ++ enc) := by
  obtain ⟨parts, hparts, rfl⟩ := h
  exact ⟨part :: parts, .cons hc hparts, rfl⟩

theorem unescape_of_mem {e : Char} (h : (c, e) ∈ namedEscapes) : unescape e = c := by
  have hall : ∀ entry ∈ namedEscapes, unescape entry.2 = entry.1 := by decide
  exact hall _ h

theorem unescape_of_not_mem (h : c ∉ namedEscapes.map Prod.snd) : unescape c = c := by
  simp only [namedEscapes, List.map_cons, List.map_nil, List.mem_cons, List.not_mem_nil, or_false,
    not_or] at h
  obtain ⟨hn, ht, hr, hb, hf⟩ := h
  simp [unescape, hn, ht, hr, hb, hf]

/-- Whatever stands behind a backslash is a writing of what is made of it. -/
theorem writes_unescape (e : Char) : Writes quote (unescape e) ['\\', e] := by
  by_cases he : e ∈ namedEscapes.map Prod.snd
  · obtain ⟨⟨c, e⟩, hmem, rfl⟩ := List.mem_map.1 he
    rw [unescape_of_mem hmem]
    exact .named hmem
  · rw [unescape_of_not_mem he]
    exact .itself he

/-- A string stands for the one content of which it is an encoding. -/
theorem isEncoding_iff_unescapes : IsEncoding quote content enc ↔ Unescapes quote enc content := by
  constructor
  · rintro ⟨parts, hparts, rfl⟩
    induction hparts with
    | nil => exact .nil
    | @cons c part content parts hc _ ih =>
      rw [List.flatten_cons]
      have hescaped : ∀ e, Unescapes quote ('\\' :: e :: parts.flatten) (unescape e :: content) :=
        fun _ => .escaped ih
      cases hc with
      | plain hq hb hz => exact .plain hq hb hz ih
      | named h =>
        rw [← unescape_of_mem h]
        exact hescaped _
      | itself h =>
        have hitself := hescaped c
        rwa [unescape_of_not_mem h] at hitself
  · intro h
    induction h with
    | nil => exact isEncoding_nil
    | escaped _ ih => exact ih.cons (writes_unescape _)
    | plain hq hb hz _ ih => exact ih.cons (.plain hq hb hz)

/-! ## Reading strings -/

theorem string_of_isEncoding (hq : quote = '"' ∨ quote = '\'') (h : IsEncoding quote content enc)
    (rest : List Char) :
    string (quote :: enc ++ quote :: rest) = ⟨some content, quote :: enc ++ [quote], rest⟩ := by
  have hne : quote ≠ '\x00' ∧ quote ≠ '\\' := by
    rcases hq with rfl | rfl <;> decide
  rw [List.cons_append, string,
    stringBody_append_of_unescapes hne.1 hne.2 (isEncoding_iff_unescapes.1 h) rest]
  rfl

theorem exists_isEncoding_of_string (h : (string (quote :: cs)).value = some content) :
    ∃ enc rest, IsEncoding quote content enc ∧ quote :: cs = quote :: enc ++ quote :: rest := by
  obtain ⟨enc, htaken, hu⟩ := unescapes_of_stringBody h
  refine ⟨enc, (stringBody quote cs).rest, isEncoding_iff_unescapes.2 hu, ?_⟩
  have happend := stringBody_append quote cs
  rw [htaken, List.append_assoc] at happend
  exact congrArg (quote :: ·) happend.symm

/-- What is read is a string, and where a string starts one is read. -/
theorem string_value_eq_none_iff (hq : quote = '"' ∨ quote = '\'') :
    (string (quote :: cs)).value = none ↔ ¬ StartsWithString quote (quote :: cs) := by
  constructor
  · rintro hnone ⟨content, enc, rest, henc, heq⟩
    rw [heq, string_of_isEncoding hq henc] at hnone
    cases hnone
  · intro hno
    cases hv : (string (quote :: cs)).value with
    | none => rfl
    | some content =>
      obtain ⟨enc, rest, henc, heq⟩ := exists_isEncoding_of_string hv
      exact absurd ⟨content, enc, rest, henc, heq⟩ hno

/-! ## Strings that are not closed -/

/-- What is read behind the quote of a string that is not closed, in front of the given rest: up to a
zero that is not escaped, or up to the end of the text, where a backslash may stand alone. -/
inductive BreaksOff (quote : Char) : List Char → List Char → Prop
  | zero {content enc rest : List Char} (h : IsEncoding quote content enc) :
      BreaksOff quote enc ('\x00' :: rest)
  | ending {content enc : List Char} (h : IsEncoding quote content enc) : BreaksOff quote enc []
  | backslash {content enc : List Char} (h : IsEncoding quote content enc) :
      BreaksOff quote (enc ++ ['\\']) []

theorem BreaksOff.cons (hc : Writes quote c part) (h : BreaksOff quote cs rest) :
    BreaksOff quote (part ++ cs) rest := by
  cases h with
  | zero h => exact .zero (h.cons hc)
  | ending h => exact .ending (h.cons hc)
  | backslash h =>
    rw [← List.append_assoc]
    exact .backslash (h.cons hc)

theorem breaksOff_of_stringBody (h : (stringBody quote cs).value = none) :
    BreaksOff quote (stringBody quote cs).taken (stringBody quote cs).rest := by
  fun_induction stringBody quote cs with
  | case1 => exact .ending isEncoding_nil
  | case2 c cs hz =>
    rw [eq_of_beq hz]
    exact .zero isEncoding_nil
  | case3 => cases h
  | case4 c hz hq hb =>
    rw [eq_of_beq hb]
    exact .backslash isEncoding_nil
  | case5 c hz hq hb e cs r =>
    rename_i ih
    rw [eq_of_beq hb]
    exact (ih (Option.map_eq_none_iff.1 h)).cons (writes_unescape e)
  | case6 c cs hz hq hb r =>
    rename_i ih
    have hc : Writes quote c [c] := .plain (by simpa using hq) (by simpa using hb) (by simpa using hz)
    exact (ih (Option.map_eq_none_iff.1 h)).cons hc

end Lexeme

/-! ## The scanner in front of a string -/

namespace Scanner

open Lexeme

variable {s : Scanner} {quote : Char} {content enc after : List Char}

theorem string_of_isEncoding (hq : quote = '"' ∨ quote = '\'') (h : IsEncoding quote content enc)
    (hs : s.rest = quote :: enc ++ quote :: after) :
    s.string = (.ok content, s.moveBehind ⟨content, quote :: enc ++ [quote], after⟩) := by
  rw [string, hs, Lexeme.string_of_isEncoding hq h]
  rfl

/-- The scanner fails if no string starts where it stands. -/
theorem string_of_not_startsWithString (hq : quote = '"' ∨ quote = '\'') (hs : quote ∈ s.rest.head?)
    (h : ¬ StartsWithString quote s.rest) :
    ∃ fault s', s.string = (.error fault, s') ∧
      fault.message = s'.pos.describe "Unterminated string" := by
  obtain ⟨cs, hcs⟩ : ∃ cs, s.rest = quote :: cs := ⟨_, (List.cons_head?_tail hs).symm⟩
  rw [hcs, ← string_value_eq_none_iff hq, ← hcs] at h
  refine ⟨(s.moveBehind (Lexeme.string s.rest)).fault .unterminated, s.moveBehind (Lexeme.string s.rest),
    ?_, ?_⟩
  · rw [string]
    simp only [h]
  · rw [ScanFault.message]
    rfl

/-- **Strings are read exactly.** A scanner in front of a quote reads any encoding of a content between
two of the quotes as this content, whatever stands before and after it, and moves just behind the
closing quote. If it reads a content, then what it took was an encoding of it between two of the quotes.
It fails for want of a closing quote just if no encoding between two of the quotes starts there. -/
theorem string_exact (s : Scanner) {quote : Char} (hq : quote = '"' ∨ quote = '\'')
    (hs : quote ∈ s.rest.head?) :
    (∀ content enc after, IsEncoding quote content enc → s.rest = quote :: enc ++ quote :: after →
      s.string = (.ok content, s.moveBehind ⟨content, quote :: enc ++ [quote], after⟩)) ∧
    (∀ content s', s.string = (.ok content, s') →
      ∃ enc, IsEncoding quote content enc ∧ s.rest = quote :: enc ++ quote :: s'.rest ∧
        s' = s.moveBehind ⟨content, quote :: enc ++ [quote], s'.rest⟩) ∧
    ((∃ fault s', s.string = (.error fault, s') ∧
      fault.message = s'.pos.describe "Unterminated string") ↔ ¬ StartsWithString quote s.rest) := by
  refine ⟨fun content enc after => string_of_isEncoding hq, fun content s' h => ?_, ?_⟩
  · -- If no string started there, the scanner would have failed.
    obtain ⟨content', enc, after, henc, hrest⟩ : StartsWithString quote s.rest := by
      by_contra hno
      obtain ⟨fault, s'', hfault, -⟩ := string_of_not_startsWithString hq hs hno
      cases h.symm.trans hfault
    cases h.symm.trans (string_of_isEncoding hq henc hrest)
    exact ⟨enc, henc, hrest, rfl⟩
  · constructor
    · rintro ⟨fault, s', hfault, -⟩ ⟨content, enc, after, henc, hrest⟩
      cases hfault.symm.trans (string_of_isEncoding hq henc hrest)
    · exact string_of_not_startsWithString hq hs

/-- A string over two lines, in which a quote, a line feed, a zero, a backslash and a letter that is no
escape stand behind backslashes. -/
theorem string_exact_escapes :
    let s : Scanner := ⟨['x'], ['"', 'a', '\\', '"', '\\', 'n', '\\', '\x00', '\\', '\\', '\\', 'q', '\n',
      '"', ' ', 'y'], ⟨1, 2⟩⟩
    '"' ∈ s.rest.head? ∧
      ∃ s', s.string = (.ok ['a', '"', '\n', '\x00', '\\', 'q', '\n'], s') ∧ s'.rest = [' ', 'y'] ∧
        s'.pos = ⟨2, 2⟩ := by
  intro s
  have henc : IsEncoding '"' ['a', '"', '\n', '\x00', '\\', 'q', '\n']
      ['a', '\\', '"', '\\', 'n', '\\', '\x00', '\\', '\\', '\\', 'q', '\n'] := by
    refine ⟨[['a'], ['\\', '"'], ['\\', 'n'], ['\\', '\x00'], ['\\', '\\'], ['\\', 'q'], ['\n']], ?_, rfl⟩
    refine .cons (.plain (by decide) (by decide) (by decide)) (.cons (.itself (by decide)) ?_)
    refine .cons (.named (by decide)) (.cons (.itself (by decide)) (.cons (.itself (by decide)) ?_))
    exact .cons (.itself (by decide)) (.cons (.plain (by decide) (by decide) (by decide)) .nil)
  exact ⟨rfl, _, (string_exact s (.inl rfl) rfl).1 _ _ [' ', 'y'] henc rfl, rfl, rfl⟩

end Scanner

end McdocSchema
