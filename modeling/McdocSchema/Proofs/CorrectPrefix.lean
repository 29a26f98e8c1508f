import McdocSchema.Proofs.Derivation
import McdocSchema.Proofs.Locality

/-!
# The first token that does not fit

A document that finds a token misplaced has passed the beginning of something that its grammar derives. With
the locality of the parsers this gives the main result, `document_misplaced`: the token that is reported is
the first one with which no document goes on, and the tokens in front of it are the beginning of a document.
-/

namespace McdocSchema.Grammar

open Ebnf Parse TokenStream

variable {ts rest : TokenStream}

/-- A document that fails at a token fails there whatever follows it. -/
theorem document_failed_append {front tail : List Token} {token : Token} {fault : ParseFault}
    (hend : Ended (token :: tail))
    (h : bounded Parse.document (front ++ token :: tail) = .failed fault (token :: tail))
    (tail' : List Token) :
    bounded Parse.document (front ++ token :: tail') = .failed fault (token :: tail') := by
  let J : Seam := ⟨id, token :: tail, token :: tail', hend.closed, List.cons_ne_nil _ _, .inl rfl⟩
  have hJ : J.Uniform := rfl
  have hrounds : ∀ tail, front.length + 1 ≤ roundsFor (front ++ token :: tail) := by
    intro tail
    simp [roundsFor]
  have hlocal : Local J Anything Anywhere (front.length + 1) 0 _ (Parse.document _) (Parse.document _) :=
    local_document hJ trivial (hrounds tail) (hrounds tail')
  have htrack := hlocal.tracks front (Nat.lt_succ_self _) trivial
  have hfirst : Parse.document (roundsFor (front ++ token :: tail)) (J.before front) =
      .failed fault (J.before []) := h
  rw [hfirst] at htrack
  have hsecond := (htrack.of_failed hJ).1
  have hmap : front.map (Token.relocate id) = front := List.map_id front
  rw [Seam.across, hmap, ParseFault.relocate_id] at hsecond
  exact hsecond

/-- **The token that is reported is the first one that does not fit.** If a document fails at a token,
then every list of tokens that agrees with it up to that token fails there in the same way, and the
tokens in front of it, if there is no import among them, are the beginning of a document. -/
theorem document_misplaced {cause : ParseCause} {token : Token} (hts : Ended ts)
    (h : bounded Parse.document ts = .failed (.misplaced cause token) rest) :
    ∃ front tail, ts = front ++ token :: tail ∧ rest = token :: tail ∧
      (∀ tail', bounded Parse.document (front ++ token :: tail') =
        .failed (.misplaced cause token) (token :: tail')) ∧
      ((∀ t ∈ front, t.kind ≠ .use) → ∃ c last doc, last.kind = .eof ∧
        Document.ofTokens (front ++ c ++ [last]) = .ok doc) := by
  have hblames := blames_of_document hts h
  obtain ⟨front, hfront, hc⟩ := hblames.completable
  obtain ⟨tail, hrest⟩ : ∃ tail, rest = token :: tail := by
    cases rest with
    | nil => exact absurd rfl hblames.ended.ne_nil
    | cons t tail => exact ⟨tail, by rw [← hblames.current, current_cons]⟩
  subst hrest hfront
  refine ⟨front, tail, rfl, rfl, document_failed_append hblames.ended h, ?_⟩
  intro huse
  obtain ⟨c, hderives⟩ := hc huse
  obtain ⟨doc, rest, hdoc⟩ := document_of_spans
    (spans_nil_iff.2 (.seq hderives (.token (t := Token.eofAt .start) rfl))) (Nat.lt_succ_self _)
  refine ⟨c, Token.eofAt .start, doc, rfl, ?_⟩
  have hrun : bounded Parse.document (front ++ c ++ [Token.eofAt .start]) = .done doc rest := hdoc
  rw [Document.ofTokens, hrun]
  rfl

/-- A brace in a list that is a member of a tuple, behind a struct: the list and the tuple are left open
in front of it, and what follows it is not looked at. -/
theorem document_misplaced_nested :
    let front := [(Token.Kind.struct, "struct"), (.leftBrace, "\x7b"), (.newline, "\\n"),
      (.identifier, "a"), (.question, "?"), (.colon, ":"), (.leftParen, "("), (.int, "int"),
      (.comma, ","), (.leftBracket, "["), (.identifier, "b")].map fun t => Token.mk t.1 t.2 .start
    let token : Token := ⟨.rightBrace, "\x7d", .start⟩
    let tail := [⟨.use, "use", .start⟩, Token.eofAt .start]
    let ts := front ++ token :: tail
    let cause := ParseCause.expected .rightBracket .rightBrace
    TokenStream.Ended ts ∧
      bounded Parse.document ts = .failed (.misplaced cause token) (token :: tail) ∧
      ∃ front' tail', ts = front' ++ token :: tail' ∧ token :: tail = token :: tail' ∧
        (∀ tail'', bounded Parse.document (front' ++ token :: tail'') =
          .failed (.misplaced cause token) (token :: tail'')) ∧
        ((∀ t ∈ front', t.kind ≠ .use) → ∃ c last doc, last.kind = .eof ∧
          Document.ofTokens (front' ++ c ++ [last]) = .ok doc) := by
  intro front token tail ts cause
  have hts : TokenStream.Ended ts := ⟨front ++ [token, ⟨.use, "use", .start⟩], _, rfl, rfl, by decide⟩
  have hfail : bounded Parse.document ts = .failed (.misplaced cause token) (token :: tail) := rfl
  exact ⟨hts, hfail, document_misplaced hts hfail⟩

end McdocSchema.Grammar
