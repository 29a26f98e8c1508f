import Mathlib.Data.List.Chain
import Mathlib.Data.List.DropRight
import McdocSchema.Proofs.Printer
import McdocSchema.Proofs.Runs

/-!
# What scanned tokens hold

The kind of a token tells what its text can be (`Token.Kind.Allows`): the text of an identifier is a name,
that of a number has a digit, that of a documentation comment is a line without blanks at its ends. This
holds of all tokens that texts are scanned to, and no documentation comment follows another one
(`Token.scan_legible`).
-/

namespace McdocSchema

open Text (Stops stops_cons)

/-- What the text of a token of the kind can be. -/
def Token.Kind.Allows (kind : Token.Kind) (s : String) : Prop :=
  match kind with
  | .identifier => Lexeme.isName s = true
  | .fallbackKey | .noneKey | .unknownKey | .keyKey | .parentKey => Lexeme.isKey s = true
  | .byte | .short | .int | .long | .floatType | .double => s ∈ TypeExpr.numericNames
  | .integer | .float => ∃ d ∈ s.toList, Text.isDigit d = true
  | .docComment => Form.IsLine s
  | _ => True

namespace Lexeme

/-! ## Texts of single tokens -/

theorem kindIn_eq_or_mem (table : List (String × Token.Kind)) (s : String) :
    kindIn table s = .identifier ∨ (s, kindIn table s) ∈ table := by
  rw [kindIn]
  cases h : table.lookup s with
  | none => exact .inl rfl
  | some kind =>
    obtain ⟨before, after, rfl, -⟩ := List.lookup_eq_some_iff.1 h
    exact .inr (by simp)

theorem kindIn_ne {table : List (String × Token.Kind)} {k : Token.Kind} {s : String}
    (h : ∀ entry ∈ table, entry.2 ≠ k) (hk : k ≠ .identifier) : kindIn table s ≠ k := by
  rcases kindIn_eq_or_mem table s with hs | hmem
  · rw [hs]
    exact hk.symm
  · exact h _ hmem

theorem strip_strip (cs : List Char) : Text.strip (Text.strip cs) = Text.strip cs := by
  have hend : ∀ ds, Text.stripEnd ds = ds.rdropWhile Text.isBlank := fun _ => rfl
  obtain ⟨back, hback⟩ := List.rdropWhile_prefix Text.isBlank (cs.dropWhile Text.isBlank)
  rw [← hend, ← Text.strip] at hback
  have hstart : Stops Text.isBlank (Text.strip cs) := by
    intro c hc
    refine stops_dropWhile Text.isBlank cs c ?_
    rw [← hback, List.head?_append, hc]
    rfl
  have hdrop : (Text.strip cs).dropWhile Text.isBlank = Text.strip cs :=
    @Text.dropWhile_append_of_stops _ [] _ (by simp) hstart
  rw [Text.strip, hdrop]
  rw [Text.strip, hend, hend, List.rdropWhile_idempotent]

theorem isLine_strip {cs : List Char} (h : ∀ c ∈ cs, isCommentChar c = true) :
    Form.IsLine (String.ofList (Text.strip cs)) := by
  rw [Form.IsLine, String.toList_ofList]
  refine ⟨strip_strip cs, fun c hc => h c ?_⟩
  rw [Text.strip, Text.stripEnd, List.mem_reverse] at hc
  have hc := (List.dropWhile_sublist Text.isBlank).subset hc
  rw [List.mem_reverse] at hc
  exact (List.dropWhile_sublist Text.isBlank).subset hc

theorem allows_of_isNumber {kind : Token.Kind} {s : String} (hk : kind.isNumber = true)
    (h : ∃ d ∈ s.toList, Text.isDigit d = true) : kind.Allows s := by
  cases kind with
  | integer => exact h
  | float => exact h
  | _ => cases hk

/-- The text of a lexeme is allowed by its kind. -/
theorem Spells.allows {lexeme : List Char} {kind : Token.Kind} {value : String}
    (h : Spells lexeme kind value) : kind.Allows value := by
  cases h with
  | newline => trivial
  | symbol h =>
    have hall : ∀ entry ∈ symbols, ∀ s, entry.2.Allows s := by
      intro entry he
      fin_cases he <;> exact fun _ => trivial
    exact hall _ h _
  | @word c cs hc hcs =>
    have hall : ∀ entry ∈ keywords, entry.2.Allows entry.1 := by
      intro entry he
      fin_cases he <;> simp [Token.Kind.Allows, TypeExpr.numericNames]
    rcases kindIn_eq_or_mem keywords (String.ofList (c :: cs)) with hk | hmem
    · rw [hk]
      exact isName_iff.2 ⟨c, cs, String.toList_ofList, hcs, .inl ⟨hc, hk⟩⟩
    · exact hall _ hmem
  | @key cs hcs =>
    have hkeys : ∀ entry ∈ specialKeys, isKey entry.1 = true := by decide
    have hall : ∀ entry ∈ specialKeys, entry.2.Allows entry.1 := by
      intro entry he
      have hkey := hkeys entry he
      fin_cases he <;> exact hkey
    rcases kindIn_eq_or_mem specialKeys (String.ofList ('%' :: cs)) with hk | hmem
    · rw [hk]
      exact isName_iff.2 ⟨'%', cs, String.toList_ofList, hcs, .inr ⟨rfl, hk⟩⟩
    · exact hall _ hmem
  | @number sign digits fraction exponent suffix h =>
    obtain ⟨d, hd⟩ := List.exists_mem_of_ne_nil digits h.digits_ne_nil
    have hk := isNumber_numberKind fraction exponent (suffix.map Char.toLower)
    exact allows_of_isNumber hk ⟨d, by simp [hd], h.areDigits d hd⟩
  | string hq h => trivial
  | doc h => exact isLine_strip h

/-- The lexeme of a documentation comment starts with three slashes. -/
theorem Spells.exists_of_docComment {lexeme : List Char} {kind : Token.Kind} {value : String}
    (h : Spells lexeme kind value) (hk : kind = .docComment) :
    ∃ body, lexeme = '/' :: '/' :: '/' :: body := by
  cases h with
  | newline => cases hk
  | symbol h =>
    have hall : ∀ entry ∈ symbols, entry.2 ≠ .docComment := by decide
    exact absurd hk (hall _ h)
  | word hc hcs => exact absurd hk (kindIn_ne (by decide) (by decide))
  | key hcs => exact absurd hk (kindIn_ne (by decide) (by decide))
  | @number sign digits fraction exponent suffix h =>
    have hnumber := isNumber_numberKind fraction exponent (suffix.map Char.toLower)
    rw [hk] at hnumber
    cases hnumber
  | string hq h => cases hk
  | @doc cs h => exact ⟨cs, rfl⟩

/-- A documentation comment reaches to the end of its line. -/
theorem stops_of_docComment {cs : List Char} {value : String}
    (h : (next cs).value = .token .docComment value) : Stops isCommentChar (next cs).rest := by
  obtain ⟨body, hbody⟩ := (next_spells h).exists_of_docComment rfl
  have hcs := next_append cs
  rw [hbody] at hcs
  rw [← hcs]
  exact stops_dropWhile isCommentChar (body ++ (next cs).rest)

end Lexeme

/-! ## Scanned tokens -/

/-- The tokens of the stream have texts that their kinds allow, and no documentation comment follows
another one. -/
structure TokenStream.Legible (ts : TokenStream) : Prop where
  allows : ∀ t ∈ ts, t.kind.Allows t.value
  docs_apart : ts.IsChain fun t u => t.kind = .docComment → u.kind ≠ .docComment

namespace TokenStream

variable {ts rest : TokenStream}

theorem Legible.of_append {front : TokenStream} (h : Legible (front ++ rest)) : Legible rest :=
  ⟨fun t ht => h.allows t (List.mem_append_right front ht), (List.isChain_append.1 h.docs_apart).2.1⟩

theorem Legible.current (h : Legible ts) : ts.current.kind.Allows ts.current.value := by
  match ts with
  | [] => trivial
  | t :: ts => exact h.allows t List.mem_cons_self

end TokenStream

namespace Scanner

open Lexeme TokenStream

/-- What stands at the end of a line is neither a gap nor a documentation comment. -/
theorem not_stops_of_taken {cs : List Char} {c : Char} (hc : c ∈ (next cs).taken.head?)
    (h : isCommentChar c = true) : ¬ Stops isCommentChar cs := by
  intro hstops
  have hhead : c ∈ cs.head? := by
    rw [← next_append cs, List.head?_append, hc]
    rfl
  rw [hstops c hhead] at h
  cases h

end Scanner

open Lexeme Scanner in
theorem Token.scan_legible {text : String} {ts : TokenStream} (h : Token.scan text = .ok ts) :
    ts.Legible := by
  -- Behind a documentation comment the scanner is at the end of a line, where no other one starts.
  refine (of_scan (P := fun s ts => TokenStream.Legible ts ∧
    (Stops isCommentChar s.rest → ∀ t ∈ ts.head?, t.kind ≠ .docComment)) ?_ ?_ ?_ h).1
  · intro s _
    refine ⟨⟨?_, .singleton _⟩, ?_⟩
    · simp [Token.eofAt, Token.Kind.Allows]
    · simp [Token.eofAt]
  · rintro s ts hgap ⟨hts, -⟩
    refine ⟨hts, fun hstops => ?_⟩
    have hne : (next s.rest).taken ≠ [] := next_taken_ne_nil (by rw [hgap]; rfl)
    obtain ⟨c, cs, hc⟩ := List.exists_cons_of_ne_nil hne
    have hcomment := (next_isGap hgap).isCommentChar_of_mem c (by simp [hc])
    exact absurd hstops (not_stops_of_taken (by rw [hc]; rfl) hcomment)
  · rintro s ts kind value htoken ⟨hts, hfirst⟩
    refine ⟨⟨?_, List.isChain_cons.2 ⟨?_, hts.docs_apart⟩⟩, ?_⟩
    · exact List.forall_mem_cons.2 ⟨(next_spells htoken).allows, hts.allows⟩
    · rintro u hu rfl
      exact hfirst (stops_of_docComment htoken) u hu
    · rintro hstops t ⟨⟩ rfl
      obtain ⟨body, hbody⟩ := (next_spells htoken).exists_of_docComment rfl
      exact not_stops_of_taken (by rw [hbody]; rfl) (by decide) hstops

end McdocSchema
