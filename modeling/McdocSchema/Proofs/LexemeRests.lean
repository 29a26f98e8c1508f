import McdocSchema.Proofs.LexemeSteps

/-!
# Other text behind a lexeme

A step of the scanner takes a stretch of the text and looks a little further, in order to know where the
stretch ends. What it sees there may be changed: if all readers that stop in front of the one rest stop in
front of the other one too (`Yields`), the step takes the same from both texts (`next_swap`).
-/

namespace McdocSchema.Lexeme

open Text

/-- The classes of characters that readers take runs of. -/
def runClasses : List (Char → Bool) := [isDigit, isSign, isNameChar, isInlineBlank, isCommentChar]

/-- The classes of the letters with which a number may go on. -/
def tailClasses : List (Char → Bool) := [startsExponent, fun c => isSuffix c.toLower]

/-- A lexeme that ends in front of `y` ends in front of `y'` too, if it is not a number. -/
structure Yields (y y' : List Char) : Prop where
  stops : ∀ p ∈ runClasses, Stops p y → Stops p y'
  point : Stops (· == '.') y
  symbol : ∀ c ∈ y'.head?, ∀ entry ∈ symbols, c ∉ entry.1

variable {y y' a r cs : List Char} {p : Char → Bool} {f : List Char → List Char × List Char}

theorem stops_append_of_stops (h : Stops p y → Stops p y') (hs : Stops p (r ++ y)) :
    Stops p (r ++ y') := by
  cases r with
  | nil => exact h hs
  | cons c r => exact hs

theorem Yields.stops_append (hy : Yields y y') (hp : p ∈ runClasses) (hs : Stops p (r ++ y)) :
    Stops p (r ++ y') :=
  stops_append_of_stops (hy.stops p hp) hs

theorem Yields.point' (hy : Yields y y') : Stops (· == '.') y' := by
  intro c hc
  have hne : c ≠ '.' := by
    rintro rfl
    exact hy.symbol _ hc (['.'], .dot) (by decide) List.mem_cons_self
  simpa using hne

/-- A lexeme that ends in front of some text ends at the end of the text, unless a point follows it. -/
theorem yields_nil (h : Stops (· == '.') y) : Yields y [] :=
  ⟨fun _ _ _ => stops_nil, h, by rintro c ⟨⟩⟩

/-! ## Parts of a number -/

/-- A number that ends in front of `y` ends in front of `y'` too, if other lexemes do. -/
def YieldsTail (y y' : List Char) : Prop := ∀ p ∈ tailClasses, Stops p y → Stops p y'

theorem yieldsTail_nil (y : List Char) : YieldsTail y [] :=
  fun _ _ _ => stops_nil

theorem YieldsTail.append (h : YieldsTail y y') (r : List Char) : YieldsTail (r ++ y) (r ++ y') :=
  fun p hp => stops_append_of_stops (h p hp)

theorem yieldsTail_append_of_ne_nil (h : r ≠ []) : YieldsTail (r ++ y) (r ++ y') := by
  obtain ⟨c, r, rfl⟩ := List.exists_cons_of_ne_nil h
  exact fun _ _ hs => hs

/-- What the reader takes in front of `y`, and perhaps more text, it takes in front of `y'` too. -/
def Swaps (y y' : List Char) (f : List Char → List Char × List Char) : Prop :=
  ∀ a r, f (a ++ (r ++ y)) = (a, r ++ y) → f (a ++ (r ++ y')) = (a, r ++ y')

theorem swaps_run (hp : Stops p y → Stops p y') :
    Swaps y y' fun cs => (cs.takeWhile p, cs.dropWhile p) := by
  intro a r h
  obtain ⟨htaken, hrest⟩ := Prod.mk.inj h
  have ha : ∀ c ∈ a, p c = true := by
    rw [← htaken]
    exact fun _ => List.mem_takeWhile_imp
  have hstops : Stops p (r ++ y') := by
    refine stops_append_of_stops hp ?_
    rw [← hrest]
    exact stops_dropWhile p _
  exact Prod.ext (takeWhile_append_of_stops ha hstops) (dropWhile_append_of_stops ha hstops)

theorem swaps_of_head (hp : Stops p y → Stops p y') (hnil : f [] = ([], []))
    (hcons : ∀ c cs, f (c :: cs) = if p c then ([c], cs) else ([], c :: cs)) : Swaps y y' f := by
  have hstop : ∀ cs, Stops p cs → f cs = ([], cs) := by
    intro cs hcs
    cases cs with
    | nil => exact hnil
    | cons c cs => rw [hcons, if_neg (by simp [stops_cons.1 hcs])]
  intro a r h
  cases a with
  | nil =>
    refine hstop (r ++ y') (stops_append_of_stops hp ?_)
    intro c hc
    cases hs : r ++ y with
    | nil =>
      rw [hs] at hc
      cases hc
    | cons d ds =>
      rw [hs] at hc
      cases hc
      by_contra hd
      rw [List.nil_append, hs, hcons, if_pos (by simpa using hd)] at h
      cases h
  | cons c a =>
    rw [List.cons_append, hcons] at h ⊢
    split at h
    · next hc =>
      obtain ⟨ha, -⟩ := Prod.mk.inj h
      obtain rfl : a = [] := (List.cons.inj ha).2.symm
      rw [if_pos hc]
      rfl
    · cases h

theorem swaps_takeSign (hs : Stops isSign y → Stops isSign y') : Swaps y y' takeSign :=
  swaps_of_head hs rfl fun _ _ => rfl

theorem swaps_takeSuffix (ht : YieldsTail y y') : Swaps y y' takeSuffix :=
  swaps_of_head (ht (fun c => isSuffix c.toLower) (by simp [tailClasses])) rfl fun _ _ => rfl

theorem swaps_takeExponent (hs : Stops isSign y → Stops isSign y')
    (hd : Stops isDigit y → Stops isDigit y') (ht : YieldsTail y y') : Swaps y y' takeExponent := by
  intro a r h
  cases a with
  | nil =>
    have hstops : Stops startsExponent (r ++ y) := by
      intro c hc
      obtain ⟨cs, hcs⟩ : ∃ cs, r ++ y = c :: cs := ⟨_, (List.cons_head?_tail hc).symm⟩
      by_contra hne
      have hexponent : startsExponent c = true := by simpa using hne
      rw [List.nil_append, hcs, takeExponent, if_pos (by exact hexponent)] at h
      cases h
    have hstops' := stops_append_of_stops (ht startsExponent (by simp [tailClasses])) hstops
    cases hcs : r ++ y' with
    | nil => rfl
    | cons c cs =>
      rw [hcs, stops_cons, startsExponent] at hstops'
      simp [takeExponent, hstops']
  | cons c a =>
    rw [List.cons_append, takeExponent] at h ⊢
    split at h
    · next hc =>
      rw [if_pos hc]
      -- The sign of the exponent, and the digits behind it.
      obtain ⟨sign, more, hsign⟩ : ∃ s z, takeSign (a ++ (r ++ y)) = (s, z) := ⟨_, _, rfl⟩
      rw [hsign] at h
      obtain ⟨htaken, hrest⟩ := Prod.mk.inj h
      have ha : sign ++ more.takeWhile isDigit = a := (List.cons.inj htaken).2
      have hmore : more = more.takeWhile isDigit ++ (r ++ y) := by
        rw [← hrest, List.takeWhile_append_dropWhile]
      generalize hdigits : more.takeWhile isDigit = digits at ha hmore
      subst hmore
      subst ha
      have hrun := swaps_run hd digits r (Prod.ext hdigits hrest)
      have hsign' : takeSign (sign ++ (digits ++ r ++ y)) = (sign, digits ++ r ++ y) := by
        simpa using hsign
      have hswap := swaps_takeSign hs sign (digits ++ r) hsign'
      simp only [List.append_assoc] at hswap
      obtain ⟨htake, hdrop⟩ := Prod.mk.inj hrun
      simp only [List.append_assoc, hswap, htake, hdrop]
      rfl
    · cases h

/-- Points are looked for up to the second one. -/
theorem swaps_takeFraction (hy : Yields y y') : Swaps y y' takeFraction := by
  intro a r h
  have ha : IsFraction a := by
    have hfraction := isFraction_takeFraction (a ++ (r ++ y))
    rwa [h] at hfraction
  rcases ha with rfl | ⟨ds, rfl, hds⟩
  · cases r with
    | nil =>
      cases hy' : y' with
      | nil => rfl
      | cons c cs =>
        have hc : c ≠ '.' := by
          have hpoint := hy.point'
          rw [hy', stops_cons] at hpoint
          simpa using hpoint
        simp [takeFraction, hc]
    | cons c r =>
      by_cases hc : c = '.'
      · subst hc
        cases r with
        | nil =>
          -- A single point in front of `y` would be taken.
          have hpoint : ∀ cs, y ≠ '.' :: cs := by
            rintro cs rfl
            exact absurd (stops_cons.1 hy.point) (by decide)
          rw [List.nil_append, List.singleton_append, takeFraction.eq_2 _ hpoint] at h
          cases h
        | cons d r =>
          by_cases hd : d = '.'
          · subst hd
            rfl
          · simp [takeFraction, hd] at h
      · simp [takeFraction, hc]
  · have hsecond : ∀ {z : List Char}, Stops (· == '.') (ds ++ z) → ∀ cs, ds ++ z ≠ '.' :: cs := by
      intro z hz cs hcs
      rw [hcs] at hz
      exact absurd (stops_cons.1 hz) (by decide)
    have hstops : Stops (· == '.') (ds ++ (r ++ y)) := by
      intro c hc
      obtain ⟨cs, hcs⟩ : ∃ cs, ds ++ (r ++ y) = c :: cs := ⟨_, (List.cons_head?_tail hc).symm⟩
      by_contra hne
      obtain rfl : c = '.' := by simpa using hne
      rw [List.cons_append, hcs, takeFraction] at h
      cases h
    have hstops' : Stops (· == '.') (ds ++ (r ++ y')) := by
      rw [← List.append_assoc] at hstops ⊢
      exact stops_append_of_stops (fun _ => hy.point') hstops
    rw [List.cons_append, takeFraction.eq_2 _ (hsecond hstops)] at h
    obtain ⟨htaken, hrest⟩ := Prod.mk.inj h
    have hrun := swaps_run (hy.stops isDigit (by simp [runClasses])) ds r
      (Prod.ext (List.cons.inj htaken).2 hrest)
    obtain ⟨htake, hdrop⟩ := Prod.mk.inj hrun
    rw [List.cons_append, takeFraction.eq_2 _ (hsecond hstops'), htake, hdrop]

theorem number_eq {sign digits fraction exponent suffix r₁ r₂ r₃ r₄ r₅ : List Char}
    (hsign : takeSign cs = (sign, r₁))
    (hdigits : (r₁.takeWhile isDigit, r₁.dropWhile isDigit) = (digits, r₂))
    (hfraction : takeFraction r₂ = (fraction, r₃)) (hexponent : takeExponent r₃ = (exponent, r₄))
    (hsuffix : takeSuffix r₄ = (suffix, r₅)) :
    number cs = ⟨(sign ++ digits ++ fraction ++ exponent ++ suffix.map Char.toLower,
      numberKind fraction exponent (suffix.map Char.toLower)),
      sign ++ digits ++ fraction ++ exponent ++ suffix, r₅⟩ := by
  obtain ⟨rfl, rfl⟩ := Prod.mk.inj hdigits
  simp only [number, hsign, hfraction, hexponent, hsuffix]

theorem number_swap (hy : Yields y y') (ht : YieldsTail (r ++ y) (r ++ y')) {value : List Char × Token.Kind}
    (h : number (a ++ (r ++ y)) = ⟨value, a, r ++ y⟩) :
    number (a ++ (r ++ y')) = ⟨value, a, r ++ y'⟩ := by
  obtain ⟨sign, r₁, hsign⟩ : ∃ s z, takeSign (a ++ (r ++ y)) = (s, z) := ⟨_, _, rfl⟩
  obtain ⟨digits, r₂, hdigits⟩ : ∃ s z, (r₁.takeWhile isDigit, r₁.dropWhile isDigit) = (s, z) :=
    ⟨_, _, rfl⟩
  obtain ⟨fraction, r₃, hfraction⟩ : ∃ s z, takeFraction r₂ = (s, z) := ⟨_, _, rfl⟩
  obtain ⟨exponent, r₄, hexponent⟩ : ∃ s z, takeExponent r₃ = (s, z) := ⟨_, _, rfl⟩
  obtain ⟨suffix, r₅, hsuffix⟩ : ∃ s z, takeSuffix r₄ = (s, z) := ⟨_, _, rfl⟩
  rw [number_eq hsign hdigits hfraction hexponent hsuffix] at h
  injection h with hvalue htaken hrest
  subst hvalue htaken hrest
  -- Each part leaves the later ones in front of the rest.
  have h₄ : r₄ = suffix ++ (r ++ y) := by
    rw [← takeSuffix_append r₄, hsuffix]
  have h₃ : r₃ = exponent ++ (suffix ++ r ++ y) := by
    rw [← takeExponent_append r₃, hexponent, h₄]
    simp
  have h₂ : r₂ = fraction ++ (exponent ++ suffix ++ r ++ y) := by
    rw [← takeFraction_append r₂, hfraction, h₃]
    simp
  have h₁ : r₁ = digits ++ (fraction ++ exponent ++ suffix ++ r ++ y) := by
    obtain ⟨htake, hdrop⟩ := Prod.mk.inj hdigits
    rw [← List.takeWhile_append_dropWhile (p := isDigit) (l := r₁), htake, hdrop, h₂]
    simp
  have hs := hy.stops isSign (by simp [runClasses])
  have hd := hy.stops isDigit (by simp [runClasses])
  have hsign' := swaps_takeSign hs sign (digits ++ fraction ++ exponent ++ suffix ++ r)
    (by simpa [h₁] using hsign)
  have hdigits' := swaps_run hd digits
    (fraction ++ exponent ++ suffix ++ r) (by simpa [h₁, h₂] using hdigits)
  have hfraction' := swaps_takeFraction hy fraction (exponent ++ suffix ++ r)
    (by simpa [h₂, h₃] using hfraction)
  have hexponent' := swaps_takeExponent (stops_append_of_stops hs) (stops_append_of_stops hd) ht exponent
    suffix (by simpa [h₃, h₄] using hexponent)
  have hsuffix' : takeSuffix (suffix ++ (r ++ y')) = (suffix, r ++ y') :=
    swaps_takeSuffix ht suffix [] (by simpa [h₄] using hsuffix)
  simp only [List.append_assoc] at hsign' hdigits' hfraction' hexponent' ⊢
  have hnumber := number_eq hsign' hdigits' hfraction' hexponent' hsuffix'
  simpa only [List.append_assoc] using hnumber

/-! ## Symbols -/

theorem symbol?_swap (hy : Yields y y') {kind : Token.Kind}
    (h : symbol? (a ++ (r ++ y)) = some (a, kind)) : symbol? (a ++ (r ++ y')) = some (a, kind) := by
  rw [symbol?, List.find?_eq_some_iff_append] at h ⊢
  obtain ⟨-, before, after, hsymbols, hbefore⟩ := h
  refine ⟨by simp, before, after, hsymbols, fun entry hentry => ?_⟩
  have hno := hbefore entry hentry
  simp only [Bool.not_eq_true', ← Bool.not_eq_true, List.isPrefixOf_iff_prefix] at hno ⊢
  -- A symbol that goes over the end of `a ++ r` would have the first character of `y'` in it.
  intro hfront
  apply hno
  rw [← List.append_assoc] at hfront ⊢
  rcases List.prefix_or_prefix_of_prefix hfront (List.prefix_append (a ++ r) y') with hle | ⟨z, hz⟩
  · exact hle.trans (List.prefix_append _ _)
  · cases z with
    | nil =>
      rw [← hz, List.append_nil]
      exact List.prefix_append _ _
    | cons c z =>
      rw [← hz, List.prefix_append_right_inj] at hfront
      obtain ⟨more, hmore⟩ := hfront
      have hc : c ∈ y'.head? := by
        rw [← hmore]
        rfl
      refine absurd ?_ (hy.symbol c hc entry (by rw [hsymbols]; exact List.mem_append_left _ hentry))
      rw [← hz]
      simp

/-! ## Gaps -/

theorem next_of_isInlineBlank {c : Char} (hc : isInlineBlank c = true) :
    next (c :: cs) = ⟨.gap, c :: cs.takeWhile isInlineBlank, cs.dropWhile isInlineBlank⟩ := by
  have hz : (c == '\x00') = false := beq_false_of_ne (ne_of_holds hc (by decide))
  have hn : (c == '\n') = false := beq_false_of_ne (ne_of_holds hc (by decide))
  have hblank : isBlank c = true := by
    rw [isInlineBlank, Bool.and_eq_true] at hc
    exact hc.1
  simp [next, hz, hn, hblank]

theorem next_comment {body rest : List Char} (hb : ∀ c ∈ body, isCommentChar c = true)
    (hthird : ∀ c ∈ body.head?, c ≠ '/') (hr : Stops isCommentChar rest) :
    next ('/' :: '/' :: body ++ rest) = ⟨.gap, '/' :: '/' :: body, rest⟩ := by
  have hslash : ∀ more, body ++ rest ≠ '/' :: more := by
    intro more hmore
    cases body with
    | nil =>
      rw [List.nil_append] at hmore
      rw [hmore] at hr
      exact absurd (stops_cons.1 hr) (by decide)
    | cons c body => exact hthird c rfl (List.cons.inj hmore).1
  have hbody : commentBody (body ++ rest) = ⟨(strip body, .comment), body, rest⟩ := by
    rw [commentBody.eq_2 _ fun more hmore => hslash more hmore, takeWhile_append_of_stops hb hr,
      dropWhile_append_of_stops hb hr]
  have hfound : ∀ more, next ('/' :: '/' :: more) = foundComment ('/' :: '/' :: more) := fun _ => rfl
  rw [List.cons_append, List.cons_append, hfound, foundComment, comment, hbody]

theorem gap_swap (hy : Yields y y') (h : next (a ++ (r ++ y)) = ⟨.gap, a, r ++ y⟩) :
    next (a ++ (r ++ y')) = ⟨.gap, a, r ++ y'⟩ := by
  have hcases := @next_gap_cases (a ++ (r ++ y)) (by rw [h])
  rw [h] at hcases
  rcases hcases with ⟨c, blanks, rfl, hblanks, hstops⟩ | ⟨body, rfl, hbody, hthird, hstops⟩
  · have hstops' := hy.stops_append (by simp [runClasses]) hstops
    have hlater : ∀ d ∈ blanks, isInlineBlank d = true := fun d hd => hblanks d (List.mem_cons_of_mem c hd)
    rw [List.cons_append, next_of_isInlineBlank (hblanks c List.mem_cons_self),
      takeWhile_append_of_stops hlater hstops', dropWhile_append_of_stops hlater hstops']
  · exact next_comment hbody hthird (hy.stops_append (by simp [runClasses]) hstops)

/-! ## Steps -/

theorem word_swap (hy : Yields y y') {table : List (String × Token.Kind)} {c : Char} {v v' : Found}
    (hcs : ∀ d ∈ a, isNameChar d = true)
    (h : word table c (a ++ (r ++ y)) = ⟨v, c :: a, r ++ y⟩)
    (hv : v' = .token (kindIn table (String.ofList (c :: a))) (String.ofList (c :: a))) :
    word table c (a ++ (r ++ y')) = ⟨v', c :: a, r ++ y'⟩ := by
  have hstops : Stops isNameChar (r ++ y) := by
    have hrest : (a ++ (r ++ y)).dropWhile isNameChar = r ++ y := congrArg Reading.rest h
    rw [← hrest]
    exact stops_dropWhile _ _
  rw [word_append_of_stops hcs (hy.stops_append (by simp [runClasses]) hstops), hv]

theorem token_swap (hy : Yields y y') {kind : Token.Kind} {value : String}
    (ht : kind.isNumber = true → YieldsTail (r ++ y) (r ++ y'))
    (h : next (a ++ (r ++ y)) = ⟨.token kind value, a, r ++ y⟩) :
    next (a ++ (r ++ y')) = ⟨.token kind value, a, r ++ y'⟩ := by
  have hspells : Spells a kind value := by
    have hs := @next_spells (a ++ (r ++ y)) kind value (by rw [h])
    rwa [h] at hs
  cases hspells with
  | newline => rfl
  | symbol hmem =>
    obtain ⟨c, cs, rfl, hnext⟩ := next_of_mem_symbols hmem
    rw [hnext, foundSymbol] at h ⊢
    have hsome : symbol? (c :: cs ++ (r ++ y)) = some (c :: cs, kind) := by
      rw [List.cons_append]
      cases hs : symbol? (c :: (cs ++ (r ++ y))) with
      | none =>
        rw [hs] at h
        cases h
      | some entry =>
        rw [hs] at h
        injection h with hvalue htaken
        injection hvalue with hkind
        rw [← htaken, ← hkind]
    have hsome' := symbol?_swap hy hsome
    rw [List.cons_append] at hsome'
    rw [hsome']
    simp
  | word hc hcs =>
    rw [List.cons_append, next_of_isNameStart hc] at h ⊢
    exact word_swap hy hcs h rfl
  | key hcs =>
    rw [List.cons_append, next_of_startsOther (by decide), if_pos (beq_self_eq_true _)] at h ⊢
    exact word_swap hy hcs h rfl
  | number hnumber =>
    rw [next_of_isNumber hnumber, foundNumber] at h ⊢
    generalize hn : number (_ ++ (r ++ y)) = found at h
    obtain ⟨value, taken, rest⟩ := found
    injection h with hvalue htaken hrest
    subst htaken hrest
    rw [number_swap hy (ht (isNumber_numberKind _ _ _)) hn]
    simp only [hvalue]
  | string hq hu =>
    -- A string does not look behind its quote.
    exact next_string hq hu
  | @doc cs hcs =>
    have hstops : Stops isCommentChar (r ++ y) := by
      have hrest : (cs ++ (r ++ y)).dropWhile isCommentChar = r ++ y := congrArg Reading.rest h
      rw [← hrest]
      exact stops_dropWhile _ _
    exact next_doc_of_stops hcs (hy.stops_append (by simp [runClasses]) hstops)

/-- **A step does not see what is changed behind it.** -/
theorem next_swap (hy : Yields y y') {x : List Char} (hv : (next (x ++ y)).value.goesOn = true)
    (ht : ∀ kind value, (next (x ++ y)).value = .token kind value → kind.isNumber = true →
      YieldsTail (r ++ y) (r ++ y'))
    (hr : (next (x ++ y)).rest = r ++ y) :
    next (x ++ y') = ⟨(next (x ++ y)).value, (next (x ++ y)).taken, r ++ y'⟩ := by
  obtain ⟨v, taken, rest, hnext⟩ : ∃ v t z, next (x ++ y) = ⟨v, t, z⟩ := ⟨_, _, _, rfl⟩
  have hx : x = taken ++ r := by
    have happend := next_append (x ++ y)
    rw [hr, hnext, ← List.append_assoc] at happend
    exact (List.append_cancel_right happend).symm
  rw [hnext] at hv hr ht ⊢
  dsimp only at hv hr ht ⊢
  subst hx hr
  rw [List.append_assoc] at hnext ⊢
  cases v with
  | gap => exact gap_swap hy hnext
  | token kind value => exact token_swap hy (ht kind value rfl) hnext
  | stop => cases hv
  | fault cause => cases hv

end McdocSchema.Lexeme
