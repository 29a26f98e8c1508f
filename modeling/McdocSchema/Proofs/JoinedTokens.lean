import McdocSchema.Proofs.Locality

/-!
# The declarations of two streams

The declarations that `document` reads can be computed from the front: line breaks are dropped, a
declaration is read and the others follow it, and nothing is left at the end of the text. So the
declarations of two streams with a line break between them are those of the one and those of the other
(`declarations_across`). The induction goes from declaration to declaration of the first stream. Only the
last one meets the seam: where it saw the end of the text, it now sees a line break.
-/

namespace McdocSchema

namespace TokenStream

theorem Closed.of_suffix {ts rest : TokenStream} (h : Closed ts) (hs : rest <:+ ts)
    (hne : rest ≠ []) : Closed rest := by
  obtain ⟨front, last, rfl, hlast⟩ := h
  obtain ⟨v, hv⟩ := hs
  rcases List.append_eq_append_iff.1 hv with ⟨w, -, hrest⟩ | ⟨extra, -, hextra⟩
  · exact ⟨w, last, hrest, hlast⟩
  · cases extra with
    | nil => exact ⟨[], last, hextra.symm, hlast⟩
    | cons t extra => simp [hne] at hextra

theorem Closed.map_relocate {ts : TokenStream} (place : Position → Position) (h : Closed ts) :
    Closed (ts.map (Token.relocate place)) := by
  obtain ⟨front, last, rfl, hlast⟩ := h
  exact ⟨front.map (Token.relocate place), last.relocate place, by simp, hlast⟩

end TokenStream

theorem Seam.eof_of_length (J : Seam) (h : J.left.length = 1) : J.left.current.kind = .eof := by
  obtain ⟨front, last, hfront, hlast⟩ := J.closed
  rw [hfront, List.length_append, List.length_singleton, Nat.add_eq_right,
    List.length_eq_zero_iff] at h
  rw [hfront, h]
  exact hlast

open TokenStream

namespace Parse

variable {α β : Type} {ts rest : TokenStream} {rounds step : Nat}

/-! ## Values and faults -/

theorem toExcept_map (f : α → β) (p : Parse α) (ts : TokenStream) :
    ((f <$> p) ts).toExcept = (p ts).toExcept.map f := by
  show ((p >>= fun a => pure (f a)) ts).toExcept = _
  rw [bind_apply]
  cases p ts <;> rfl

theorem Tracks.toExcept_eq {J : Seam} {F : ParseFault → Prop} {m d : Nat} {g : α → β} {o : Outcome α} {o' : Outcome β}
    (h : Tracks J F m d g o o') (hJ : J.Uniform) (hrest : J.left.length ≤ o.rest.length) :
    o'.toExcept = (o.toExcept.mapError (ParseFault.relocate J.place)).map g := by
  cases h with
  | past hpast => exact absurd hpast (Nat.not_lt.2 hrest)
  | done a _ => rfl
  | failed fault u _ => rfl
  | apart hne => exact absurd hJ hne

theorem repeatFrom_eq (goesOn : Token.Kind → Bool) (p : Parse α) (found : List α) (rounds : Nat)
    (ts : TokenStream) :
    repeatFrom goesOn p found rounds ts =
      ((found.reverse ++ ·) <$> repeatFrom goesOn p [] rounds) ts := by
  show _ = (repeatFrom goesOn p [] rounds >>= fun as => pure (found.reverse ++ as)) ts
  rw [bind_apply]
  induction rounds generalizing found ts with
  | zero =>
    cases hg : goesOn ts.current.kind with
    | false => simp [repeatFrom_of_stops hg]
    | true => simp [repeatFrom, hg]
  | succ rounds ih =>
    cases hg : goesOn ts.current.kind with
    | false => simp [repeatFrom_of_stops hg]
    | true =>
      rw [repeatFrom_succ hg, repeatFrom_succ hg]
      cases p ts with
      | failed fault rest => rfl
      | done a rest =>
        simp only [ih (a :: found), ih [a]]
        cases repeatFrom goesOn p [] rounds rest with
        | failed fault rest => rfl
        | done as rest => simp

/-! ## Declarations -/

/-- The declarations of a stream, read within the given rounds. -/
def declarationsIn (rounds step : Nat) (ts : TokenStream) : Except ParseFault (List Declaration) :=
  (repeatWhile rounds (· != .eof) (declaration? step) ts).toExcept.map List.reduceOption

def declarations (ts : TokenStream) : Except ParseFault (List Declaration) :=
  declarationsIn (roundsFor ts) (roundsFor ts) ts

theorem ofTokens_eq (ts : TokenStream) :
    Document.ofTokens ts = (declarations ts).map fun decls => { declarations := decls } := by
  rw [Document.ofTokens, bounded, document, bind_apply, declarations, declarationsIn]
  cases repeatWhile (roundsFor ts) (· != .eof) (declaration? (roundsFor ts)) ts <;> rfl

/-- Neither the positions of the tokens nor the numbers of rounds have a part in the declarations but
for their positions. -/
theorem declarationsIn_relocate (place : Position → Position) (hts : ts.Closed)
    {rounds' step' : Nat} (hr : ts.length ≤ rounds) (hs : ts.length ≤ step)
    (hr' : ts.length ≤ rounds') (hs' : ts.length ≤ step') :
    declarationsIn rounds' step' (ts.map (Token.relocate place)) =
      ((declarationsIn rounds step ts).mapError (ParseFault.relocate place)).map
        (List.map (Declaration.relocate place)) := by
  obtain ⟨front, last, rfl, hlast⟩ := hts
  let J : Seam := ⟨place, [last], [last.relocate place], ⟨[], last, rfl, hlast⟩, by simp, .inl rfl⟩
  have hJ : J.Uniform := rfl
  have hlength : front.length + 1 = (front ++ [last]).length := by simp
  have hlocal : Local J Anything Anywhere (front.length + 1) 0
      (List.map (Option.map (Declaration.relocate place)))
      (repeatWhile rounds (· != .eof) (declaration? step))
      (repeatWhile rounds' (· != .eof) (declaration? step')) :=
    local_declarations hJ trivial (by omega) (by omega) (by omega) (by omega)
  have htrack := hlocal.tracks front (Nat.lt_succ_self _) trivial
  have hrest : 1 ≤ (repeatWhile rounds (· != .eof) (declaration? step) (J.before front)).rest.length :=
    List.length_pos_of_ne_nil ((hlocal.leaves (J.before front)).2 (by simp [J]))
  have hsame : J.across front = (front ++ [last]).map (Token.relocate place) := by
    rw [List.map_append]
    rfl
  have hsecond := htrack.toExcept_eq hJ hrest
  rw [hsame] at hsecond
  rw [declarationsIn, declarationsIn, hsecond]
  cases (repeatWhile rounds (· != .eof) (declaration? step) (J.before front)).toExcept with
  | error fault => rfl
  | ok decls => exact congrArg Except.ok List.reduceOption_map

theorem declarations_relocate (place : Position → Position) (hts : ts.Closed) :
    declarations (ts.map (Token.relocate place)) =
      ((declarations ts).mapError (ParseFault.relocate place)).map
        (List.map (Declaration.relocate place)) := by
  have hlength : ts.length ≤ roundsFor (ts.map (Token.relocate place)) := by simp [roundsFor]
  exact declarationsIn_relocate place hts (Nat.le_succ _) (Nat.le_succ _) hlength hlength

theorem declarationsIn_eq (hts : ts.Closed) (hr : ts.length ≤ rounds) (hs : ts.length ≤ step) :
    declarationsIn rounds step ts = declarations ts := by
  have hsame := declarationsIn_relocate id hts (Nat.le_succ _) (Nat.le_succ _) hr hs
  have hmap : ts.map (Token.relocate id) = ts := List.map_id ts
  rw [hmap] at hsame
  rw [hsame, declarations, roundsFor]
  cases declarationsIn (ts.length + 1) (ts.length + 1) ts with
  | error fault => exact congrArg Except.error fault.relocate_id
  | ok decls => exact congrArg Except.ok (Declaration.map_relocate_id decls)

theorem declarations_of_eof (hk : ts.current.kind = .eof) : declarations ts = .ok [] := by
  rw [declarations, declarationsIn, repeatWhile, repeatFrom_of_stops (by rw [hk]; rfl)]
  rfl

theorem declarationsIn_succ {decl : Option Declaration} (hk : ts.current.kind ≠ .eof)
    (h : declaration? step ts = .done decl rest) :
    declarationsIn (rounds + 1) step ts =
      (declarationsIn rounds step rest).map (decl.toList ++ ·) := by
  rw [declarationsIn, repeatWhile, repeatFrom_succ (by simpa using hk), h]
  simp only [repeatFrom_eq _ _ [decl], toExcept_map]
  rw [declarationsIn, repeatWhile]
  cases (repeatFrom (· != .eof) (declaration? step) [] rounds rest).toExcept with
  | error fault => rfl
  | ok decls => cases decl <;> rfl

theorem declarations_newline {t : Token} (hk : t.kind = .newline) (hts : ts.Closed) :
    declarations (t :: ts) = declarations ts := by
  have hne : (TokenStream.current (t :: ts)).kind ≠ .eof := by
    rw [current_cons, hk]
    decide
  have hskip : skipNewlines (t :: ts) = skipNewlines ts := skipNewlines_cons hk hts.ne_nil
  by_cases hend : ts.current.kind = .eof
  · have hnone : declaration? (roundsFor (t :: ts)) (t :: ts) = .done none ts := by
      apply declaration?_none _ hend
      rw [hskip]
      exact skipNewlines_of_ne (by rw [hend]; decide)
    have hrest : declarationsIn (ts.length + 1) (roundsFor (t :: ts)) ts = declarations ts :=
      declarationsIn_eq hts (Nat.le_succ _) (by simp [roundsFor]; omega)
    show declarationsIn (ts.length + 1 + 1) (roundsFor (t :: ts)) (t :: ts) = _
    rw [declarationsIn_succ hne hnone, hrest, declarations_of_eof hend]
    rfl
  · -- The first rounds are the same, with more rounds behind it.
    have hround : declaration? (roundsFor (t :: ts)) (t :: ts) =
        declaration? (roundsFor (t :: ts)) ts := by
      rw [declaration?, bind_apply, bind_apply, hskip]
    have hsame : declarations (t :: ts) =
        declarationsIn (ts.length + 1 + 1) (roundsFor (t :: ts)) ts := by
      rw [declarations, declarationsIn, declarationsIn, repeatWhile, repeatWhile, roundsFor,
        List.length_cons, repeatFrom_succ (by simpa using hne),
        repeatFrom_succ (by simpa using hend)]
      rw [roundsFor, List.length_cons] at hround
      rw [hround]
    rw [hsame]
    exact declarationsIn_eq hts (by omega) (by simp [roundsFor]; omega)

theorem declarations_skipNewlines (hts : ts.Closed) (h : skipNewlines ts = .done () rest) :
    declarations rest = declarations ts := by
  obtain ⟨lines, rfl, hlines, -⟩ := skipNewlines_done h
  have hleaves := leaves_skipNewlines (lines ++ rest)
  rw [h] at hleaves
  have hrest : rest.Closed := hts.of_suffix hleaves.1 (hleaves.2 hts.ne_nil)
  clear h hts hleaves
  induction lines with
  | nil => rfl
  | cons t lines ih =>
    rw [List.cons_append, declarations_newline (hlines t List.mem_cons_self) (hrest.append lines)]
    exact ih fun u hu => hlines u (List.mem_cons_of_mem t hu)

/-- A declaration that is read stands in front of the others. -/
theorem declarations_declaration {doc : Option String} {decl : Declaration} {last : TokenStream}
    (hts : ts.Closed) (hn : ts.current.kind ≠ .newline) (hk : ts.current.kind ≠ .eof)
    (hd : declarationDoc ts = .done doc last)
    (hi : declaration (roundsFor ts) doc last = .done decl rest) (hrest : rest <:+ ts)
    (hne : rest ≠ []) :
    declarations ts = (declarations rest).map (decl :: ·) := by
  have hclosed : rest.Closed := hts.of_suffix hrest hne
  obtain ⟨behindLines, hlines⟩ := exists_skipNewlines hclosed
  have hleaves : Leaves rest behindLines := by
    have hleaves := leaves_skipNewlines rest
    rwa [hlines] at hleaves
  have hround : declaration? (roundsFor ts) ts = .done (some decl) behindLines :=
    declaration?_some (skipNewlines_of_ne hn) hk hd hi hlines
  have hlength : behindLines.length ≤ ts.length :=
    Nat.le_trans hleaves.length_le hrest.length_le
  show declarationsIn (ts.length + 1) (roundsFor ts) ts = _
  rw [declarationsIn_succ hk hround,
    declarationsIn_eq (hclosed.of_suffix hleaves.1 (hleaves.2 hne)) hlength (by simp [roundsFor]; omega),
    declarations_skipNewlines hclosed hlines]
  rfl

theorem kind_ne_eof_of_declaration {doc : Option String} {decl : Declaration}
    (h : declaration rounds doc ts = .done decl rest) : ts.current.kind ≠ .eof := by
  intro hk
  rw [declaration, current_bind, hk] at h
  cases h

/-- Where declarations are read and the stream starts with none of the tokens between them, there is a
first declaration. -/
theorem exists_declaration {decls : List Declaration} (hn : ts.current.kind ≠ .newline)
    (hk : ts.current.kind ≠ .eof) (h : declarations ts = .ok decls) :
    ∃ doc last decl rest, declarationDoc ts = .done doc last ∧
      declaration (roundsFor ts) doc last = .done decl rest := by
  rw [declarations, declarationsIn, repeatWhile, roundsFor, repeatFrom_succ (by simpa using hk)] at h
  cases hround : declaration? (ts.length + 1) ts with
  | failed fault rest =>
    rw [hround] at h
    cases h
  | done decl rest =>
    rw [declaration?, bind_of_done (skipNewlines_of_ne hn), sees_bind, if_neg (by simpa using hk)]
      at hround
    obtain ⟨doc, last, hdoc, hround⟩ := bind_done_iff.1 hround
    obtain ⟨decl, rest, hdecl, -⟩ := bind_done_iff.1 hround
    exact ⟨doc, last, decl, rest, hdoc, hdecl⟩

/-! ## Streams with a seam -/

section

variable {J : Seam}

/-- A run that leaves a token does not pass the end of the text. -/
theorem Leaves.exists_before (hleft : J.left.length = 1) {u : List Token}
    (h : Leaves (J.before u) rest) : ∃ v w, u = v ++ w ∧ rest = J.before w := by
  rcases Seam.exists_of_suffix h.1 with hpast | hbefore
  · rw [hleft, Nat.lt_one_iff, List.length_eq_zero_iff] at hpast
    exact absurd hpast (h.2 (by simp [J.left_ne_nil]))
  · exact hbefore

/-- The first declaration of a stream is read in the same way where others follow behind the seam. -/
theorem exists_declaration_across (hleft : J.left.length = 1) {t : Token} {u : List Token}
    {doc : Option String} {decl : Declaration} {last : TokenStream} {rounds' : Nat}
    (hr : (t :: u).length ≤ rounds) (hr' : (t :: u).length ≤ rounds')
    (hd : declarationDoc (J.before (t :: u)) = .done doc last)
    (hi : declaration rounds doc last = .done decl rest) :
    ∃ v w, t :: u = v ++ w ∧ w.length ≤ u.length ∧ rest = J.before w ∧ ∃ last',
      declarationDoc (J.across (t :: u)) = .done doc last' ∧
      declaration rounds' doc last' = .done (decl.relocate J.place) (J.across w) := by
  -- The declaration itself does not start at the end of the text, so the seam can be moved there.
  have hleaves := (local_declarationDoc (I := Anything) (P := Anywhere) (n := 0)
    (Seam.uniform_earlier (J := J) t u)).leaves (J.before (t :: u))
  rw [hd] at hleaves
  obtain ⟨v, w, hu, rfl⟩ := hleaves.exists_before hleft
  cases w with
  | nil => exact absurd (J.eof_of_length hleft) (kind_ne_eof_of_declaration hi)
  | cons t' w =>
    have hdoc := (local_declarationDoc (I := Anything) (P := Anywhere) (n := v.length + 1)
      (Seam.uniform_earlier (J := J) t' w)).tracks v (Nat.lt_succ_self _) trivial
    rw [Seam.before_earlier, Seam.across_earlier, ← hu, hd] at hdoc
    have hlength : v.length + (t' :: w).length = (t :: u).length := by rw [hu, List.length_append]
    have hlocal : Local J Anything (· ≠ .eof) ((t' :: w).length + 1) 1 (Declaration.relocate J.place)
        (declaration rounds doc) (declaration rounds' doc) := by
      rw [← hlength] at hr hr'
      exact local_declaration doc (fun _ hne => hne rfl) (fun _ _ _ => trivial) (by omega) (by omega)
    have hleaves' := hlocal.leaves (J.before (t' :: w))
    have htrack := hlocal.tracks (t' :: w) (Nat.lt_succ_self _) (kind_ne_eof_of_declaration hi)
    rw [hi] at hleaves' htrack
    obtain ⟨v', w', hw, rfl⟩ := hleaves'.exists_before hleft
    obtain ⟨hrun, hcost⟩ := htrack.of_done
    refine ⟨v ++ v', w', by rw [hu, hw, List.append_assoc], ?_, rfl, J.across (t' :: w), ?_, hrun⟩
    · simp only [List.length_cons] at hlength hcost
      omega
    · exact (hdoc.of_done (u := [])).1

/-- **The declarations of two streams.** Where the first stream ends, the second one goes on with a line
break and more: its declarations are those of the first stream and those behind the seam. -/
theorem declarations_across (hleft : J.left.length = 1) (hright : J.right.Closed) (u : List Token)
    (hu : ∀ t ∈ u, t.kind ≠ .eof) {decls : List Declaration}
    (h : declarations (J.before u) = .ok decls) :
    declarations (J.across u) =
      (declarations J.right).map (decls.map (Declaration.relocate J.place) ++ ·) := by
  have hclosed : ∀ u, (J.across u).Closed := fun u => hright.append _
  -- A line break or a whole declaration is taken off the tokens in front of the seam.
  induction hm : u.length using Nat.strongRecOn generalizing u decls with
  | ind m ih =>
    subst hm
    cases u with
    | nil =>
      have hnone : declarations (J.before []) = .ok [] :=
        declarations_of_eof (J.eof_of_length hleft)
      rw [hnone, Except.ok.injEq] at h
      subst h
      show declarations J.right = _
      cases declarations J.right <;> rfl
    | cons t u =>
      have hk : t.kind ≠ .eof := hu t List.mem_cons_self
      by_cases hn : t.kind = .newline
      · have hfirst : declarations (J.before (t :: u)) = declarations (J.before u) :=
          declarations_newline hn (J.closed.append u)
        have hsecond : declarations (J.across (t :: u)) = declarations (J.across u) :=
          declarations_newline hn (hclosed u)
        rw [hsecond]
        exact ih u.length (Nat.lt_succ_self _) u (fun s hs => hu s (List.mem_cons_of_mem t hs))
          (hfirst ▸ h) rfl
      · have hfirst : (J.before (t :: u)).current.kind ≠ .newline := hn
        obtain ⟨doc, last, decl, rest, hd, hi⟩ := exists_declaration hfirst hk h
        have hrounds : (t :: u).length ≤ roundsFor (J.before (t :: u)) := by
          simp [roundsFor]
          omega
        have hrounds' : (t :: u).length ≤ roundsFor (J.across (t :: u)) := by
          simp [roundsFor, Seam.across]
          omega
        obtain ⟨v, w, hsplit, hw, rfl, last', hd', hi'⟩ :=
          exists_declaration_across hleft hrounds hrounds' hd hi
        have hfirst := declarations_declaration (J.closed.append (t :: u)) hn hk hd hi
          ⟨v, by rw [hsplit, List.append_assoc]⟩ (by simp [J.left_ne_nil])
        have hsecond := declarations_declaration (hclosed (t :: u)) hn hk hd' hi'
          ⟨v.map (Token.relocate J.place), by simp [hsplit, Seam.across]⟩ (J.across_ne_nil w)
        rw [h] at hfirst
        cases hothers : declarations (J.before w) with
        | error fault =>
          rw [hothers] at hfirst
          cases hfirst
        | ok others =>
          rw [hothers] at hfirst
          cases hfirst
          rw [hsecond, ih w.length (by simp; omega) w ?_ hothers rfl]
          · cases declarations J.right <;> rfl
          · intro s hs
            exact hu s (hsplit ▸ List.mem_append_right v hs)

end

end Parse

end McdocSchema
