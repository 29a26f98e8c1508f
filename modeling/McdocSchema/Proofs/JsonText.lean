import McdocSchema.Proofs.JsonGrammar
import McdocSchema.Proofs.Meaning

/-!
# Printed JSON is read back

The reader gives a printed value back in every layout. That holds of the values that have every key once
in an object, no integer with more digits than are read, and floating-point numbers in canonical form
(`IsReadable`). A value is read back in front of any text that does not go on with a number.
-/

namespace McdocSchema.Json

open Number (Binary64 Numeral natDigits)
open Text (Stops stops_nil stops_cons dropWhile_append_of_stops)

/-! ## Strings -/

theorem hexValue?_digitChar (n : Nat) : hexValue? (Nat.digitChar (n % 16)) = some (n % 16) := by
  have hall : ∀ k : Fin 16, hexValue? (Nat.digitChar k) = some k.val := by decide
  exact hall ⟨n % 16, Nat.mod_lt _ (by decide)⟩

theorem unit?_hexDigits {n : Nat} (h : n < 0x10000) (rest : List Char) :
    unit? (Text.hexDigits 4 n ++ rest) = some (n, rest) := by
  have hvalue : ((n / 4096 % 16 * 16 + n / 256 % 16) * 16 + n / 16 % 16) * 16 + n % 16 = n := by omega
  rw [hexDigits_four]
  simp [unit?, hexValue?_digitChar, hvalue]

/-- No character is a surrogate. -/
theorem isHigh_isLow_toNat (c : Char) : isHigh c.toNat = false ∧ isLow c.toNat = false := by
  have hcases : c.toNat < 0xD800 ∨ 0xDFFF < c.toNat := by
    rcases c.valid with h | h
    · exact .inl h
    · exact .inr h.1
  simp only [isHigh, isLow, Bool.and_eq_false_iff, decide_eq_false_iff_not]
  omega

theorem toNat_lt (c : Char) : c.toNat < 0x110000 := by
  rcases c.valid with h | h
  · exact Nat.lt_trans h (by decide)
  · exact h.2

/-- A character is read back from its escape by units, be it one unit or two. -/
theorem unitChar?_charEscape (c : Char) (rest : List Char) :
    ∃ digits, charEscape c ++ rest = '\\' :: 'u' :: digits ∧ unitChar? digits = some (c, rest) := by
  rw [charEscape]
  by_cases hc : c.toNat < 0x10000
  · refine ⟨Text.hexDigits 4 c.toNat ++ rest, by rw [if_pos hc]; rfl, ?_⟩
    obtain ⟨hhigh, hlow⟩ := isHigh_isLow_toNat c
    rw [unitChar?, unit?_hexDigits hc]
    simp [hhigh, hlow]
  · -- The two surrogates have ten bits of the character each.
    have hmax := toNat_lt c
    let high := 0xD800 + (c.toNat - 0x10000) / 0x400
    let low := 0xDC00 + (c.toNat - 0x10000) % 0x400
    have hhigh : isHigh high = true := by
      simp only [isHigh, high, Bool.and_eq_true, decide_eq_true_eq]
      omega
    have hlow : isLow low = true := by
      simp only [isLow, low, Bool.and_eq_true, decide_eq_true_eq]
      omega
    have hjoin : joinSurrogates high low = c := by
      have hn : 0x10000 + (high - 0xD800) * 0x400 + (low - 0xDC00) = c.toNat := by
        simp only [high, low]
        omega
      rw [joinSurrogates, hn, Char.ofNat_toNat]
    have hread : low? (unitEscape low ++ rest) = some (low, rest) := by
      rw [unitEscape, List.cons_append, List.cons_append, low?, unit?_hexDigits (by omega)]
      exact if_pos hlow
    refine ⟨Text.hexDigits 4 high ++ (unitEscape low ++ rest), ?_, ?_⟩
    · rw [if_neg hc, List.append_assoc]
      rfl
    · rw [unitChar?, unit?_hexDigits (by omega)]
      simp only [hhigh, if_true, hread, hjoin]

theorem stringRest_stringChar (start found : List Char) (n : Nat) (c : Char) (rest : List Char) :
    stringRest start found (n + 1) (stringChar c ++ rest) =
      stringRest start (c :: found) n rest := by
  rcases stringChar_cases c with ⟨e, -, hc, hshort⟩ | ⟨hc, hcontrol, hquote, hbackslash⟩ | hc <;> rw [hc]
  · -- The letter of a unit is none of the short escapes.
    have hletter : ¬ (e == 'u') = true := by
      intro he
      rw [eq_of_beq he] at hshort
      cases hshort
    show stringRest start found (n + 1) ('\\' :: e :: rest) = _
    rw [stringRest, if_neg (by decide), if_pos (by decide), if_neg hletter, hshort]
  · rw [List.singleton_append, stringRest.eq_def]
    dsimp only
    rw [if_neg (by simpa using hquote), if_neg (by simpa using hbackslash), if_neg (by omega)]
  · obtain ⟨digits, hdigits, hread⟩ := unitChar?_charEscape c rest
    rw [hdigits, stringRest, if_neg (by decide), if_pos (by decide), if_pos (by decide), hread]

theorem stringRest_flatMap (start : List Char) {s : List Char} (found : List Char) {n : Nat}
    (hn : s.length < n) (rest : List Char) :
    stringRest start found n (s.flatMap stringChar ++ '"' :: rest) =
      .ok (String.ofList (found.reverse ++ s), rest) := by
  induction s generalizing found n with
  | nil =>
    obtain ⟨n, rfl⟩ := Nat.exists_eq_add_of_lt hn
    simp [stringRest]
  | cons c s ih =>
    rw [List.length_cons] at hn
    obtain ⟨n, rfl⟩ := Nat.exists_eq_add_of_lt hn
    rw [List.flatMap_cons, List.append_assoc, stringRest_stringChar, ih _ (by omega)]
    simp

theorem stringChar_ne_nil (c : Char) : stringChar c ≠ [] := by
  rcases stringChar_cases c with ⟨e, -, hc, -⟩ | ⟨hc, -⟩ | hc <;> rw [hc]
  · exact List.cons_ne_nil _ _
  · exact List.cons_ne_nil _ _
  · obtain ⟨digits, hdigits, -⟩ := unitChar?_charEscape c []
    rw [← List.append_nil (charEscape c), hdigits]
    exact List.cons_ne_nil _ _

theorem length_le_flatMap_stringChar (s : List Char) :
    s.length ≤ (s.flatMap stringChar).length := by
  induction s with
  | nil => exact Nat.le_refl _
  | cons c s ih =>
    have hpos := List.length_pos_iff.2 (stringChar_ne_nil c)
    rw [List.flatMap_cons, List.length_append, List.length_cons]
    omega

theorem readString_stringChars (s : String) (rest : List Char) :
    readString (stringChars s ++ rest) = .ok (s, rest) := by
  have hlength := length_le_flatMap_stringChar s.toList
  have htext : stringChars s ++ rest = '"' :: (s.toList.flatMap stringChar ++ '"' :: rest) := by
    simp [stringChars]
  rw [htext, readString, stringRest_flatMap _ _ (by rw [List.length_append]; omega)]
  simp

/-! ## Values without parts -/

variable {c : Char}

/-- A text that starts with neither a quote nor an opening bracket is a word or a number. -/
theorem readValue_eq_elim (n : Nat) {cs : List Char} (hquote : c ≠ '"')
    (hbrace : c ≠ '\x7b') (hbracket : c ≠ '[') :
    readValue (n + 1) (c :: cs) = (word? (c :: cs)).elim (readNumber (c :: cs)) .ok := by
  rw [readValue]
  dsimp only
  split
  · next h => exact absurd (List.head_eq_of_cons_eq h) hquote
  · next h => exact absurd (List.head_eq_of_cons_eq h) hbrace
  · next h => exact absurd (List.head_eq_of_cons_eq h) hbracket
  · cases word? (c :: cs) <;> rfl

theorem word?_of_isDigit {d : Char} (hd : d.isDigit = true) (cs : List Char) :
    word? (d :: cs) = none ∧ word? ('-' :: d :: cs) = none := by
  have hne : ∀ c, c.isDigit = false → (c == d) = false :=
    fun c hc => beq_false_of_ne (Text.ne_of_holds hd hc).symm
  simp [word?, words, List.isPrefixOf, hne 'n' (by decide), hne 't' (by decide), hne 'f' (by decide),
    hne 'N' (by decide), hne 'I' (by decide), hne '-' (by decide)]

theorem exists_digit_chars {a : Numeral} (h : a.IsJson) :
    ∃ d cs, d.isDigit = true ∧ (a.chars = d :: cs ∨ a.chars = '-' :: d :: cs) := by
  obtain ⟨d, ds, hds⟩ := List.exists_cons_of_ne_nil a.whole_ne_nil
  have hd := h.whole_isDigit d (by simp [hds])
  refine ⟨d, ds ++ a.fractionChars ++ a.exponentChars, hd, ?_⟩
  rcases h.sign_eq with hs | hs
  · left
    simp [Numeral.chars, hs, hds]
  · right
    simp [Numeral.chars, hs, hds]

theorem readValue_of_numeral {a : Numeral} {n : Nat} (h : a.IsJson) (hn : a.chars.length ≤ n)
    (rest : List Char) : readValue n (a.chars ++ rest) = readNumber (a.chars ++ rest) := by
  obtain ⟨d, cs, hd, hchars | hchars⟩ := exists_digit_chars h
  · have hne : ∀ c, c.isDigit = false → d ≠ c := fun c hc => Text.ne_of_holds hd hc
    rw [hchars] at hn ⊢
    obtain ⟨n, rfl⟩ := Nat.exists_eq_add_of_lt hn
    rw [List.cons_append, readValue_eq_elim _ (hne _ (by decide)) (hne _ (by decide))
      (hne _ (by decide)), (word?_of_isDigit hd _).1]
    rfl
  · rw [hchars] at hn ⊢
    obtain ⟨n, rfl⟩ := Nat.exists_eq_add_of_lt hn
    rw [List.cons_append, List.cons_append, readValue_eq_elim _ (by decide) (by decide)
      (by decide), (word?_of_isDigit hd _).2]
    rfl

/-- The value is read back in front of what does not go on with a number, in every layout and at every
level. -/
def ReadsBack (v : Json) : Prop :=
  ∀ (style : Style) (level n : Nat) (rest : List Char), (toChars style level v).length ≤ n →
    Stops continuesNumber rest → readValue n (toChars style level v ++ rest) = .ok (v, rest)

theorem readValue_of_word {cs : List Char} {v : Json} {n : Nat} {rest : List Char}
    (hquote : c ≠ '"') (hbrace : c ≠ '\x7b') (hbracket : c ≠ '[')
    (hword : word? (c :: cs ++ rest) = some (v, rest)) (hn : (c :: cs).length ≤ n) :
    readValue n (c :: cs ++ rest) = .ok (v, rest) := by
  obtain ⟨n, rfl⟩ := Nat.exists_eq_add_of_lt hn
  rw [List.cons_append] at hword ⊢
  rw [readValue_eq_elim _ hquote hbrace hbracket, hword]
  rfl

theorem readsBack_null : ReadsBack .null := by
  intro style level n rest hn _
  rw [toChars] at hn ⊢
  exact readValue_of_word (by decide) (by decide) (by decide) rfl hn

theorem readsBack_bool (b : Bool) : ReadsBack (.bool b) := by
  intro style level n rest hn _
  cases b with
  | true =>
    rw [toChars] at hn ⊢
    exact readValue_of_word (by decide) (by decide) (by decide) rfl hn
  | false =>
    rw [toChars] at hn ⊢
    exact readValue_of_word (by decide) (by decide) (by decide) rfl hn

theorem readsBack_int {z : ℤ} (h : (natDigits z.natAbs).length ≤ Number.maxDigits) :
    ReadsBack (.int z) := by
  intro style level n rest hn hrest
  obtain ⟨a, hjson, hchars, hfraction, hexponent⟩ := Number.exists_numeral_intText z
  have hread : Number.readInteger a.text = .ok z := by
    rw [Numeral.text, hchars, String.ofList_toList]
    exact Number.readInteger_intText h
  rw [toChars, ← hchars] at hn ⊢
  rw [readValue_of_numeral hjson hn, readNumber_of_integer hjson hrest hfraction hexponent hread]

theorem readsBack_real {x : Binary64} (h : x = .nan ∨ x.IsNumber) : ReadsBack (.real x) := by
  intro style level n rest hn hrest
  rw [toChars] at hn ⊢
  cases x with
  | nan => exact readValue_of_word (by decide) (by decide) (by decide) rfl hn
  | infinity negative =>
    cases negative with
    | false => exact readValue_of_word (by decide) (by decide) (by decide) rfl hn
    | true => exact readValue_of_word (by decide) (by decide) (by decide) rfl hn
  | finite negative m e =>
    obtain ⟨a, hjson, hchars, hsome, hvalue⟩ := Binary64.exists_numeral_toText negative m e
    have htext : realChars (.finite negative m e) = a.chars := hchars.symm
    have hcanonical : Binary64.IsCanonical m e := by
      rcases h with h | h
      · cases h
      · exact h
    rw [htext] at hn ⊢
    rw [readValue_of_numeral hjson hn, readNumber_of_isSome hjson hrest hsome, hvalue hcanonical]

theorem readsBack_string (s : String) : ReadsBack (.string s) := by
  intro style level n rest hn _
  rw [toChars] at hn ⊢
  obtain ⟨n, rfl⟩ := Nat.exists_eq_add_of_lt (Nat.lt_of_lt_of_le (Nat.zero_lt_succ _) hn)
  have hread := readString_stringChars s rest
  rw [stringChars, List.cons_append] at hread ⊢
  rw [readValue]
  dsimp only
  rw [hread]
  rfl

/-! ## Arrays -/

theorem skipSpace_append {w : List Char} (hw : AreBlanks w) (hc : isSpace c = false)
    (cs : List Char) : skipSpace (w ++ c :: cs) = c :: cs :=
  dropWhile_append_of_stops hw (stops_cons.2 hc)

/-- Whether the character is neither a blank nor a closing bracket nor the mark of the byte order. -/
def mayStart (c : Char) : Bool :=
  !isSpace c && c != ']' && c != Char.ofNat 0xFEFF

theorem mayStart_iff :
    mayStart c = true ↔ isSpace c = false ∧ c ≠ ']' ∧ c ≠ Char.ofNat 0xFEFF := by
  simp [mayStart, and_assoc]

theorem mayStart_of_isDigit {d : Char} (hd : d.isDigit = true) : mayStart d = true := by
  have hne : ∀ c, c.isDigit = false → d ≠ c := fun c hc => Text.ne_of_holds hd hc
  exact mayStart_iff.2 ⟨by simp [isSpace, hne], hne _ (by decide), hne _ (by decide)⟩

theorem exists_mayStart_of_numeral {a : Numeral} (h : a.IsJson) :
    ∃ c cs, a.chars = c :: cs ∧ mayStart c = true := by
  obtain ⟨d, cs, hd, hchars | hchars⟩ := exists_digit_chars h
  · exact ⟨d, cs, hchars, mayStart_of_isDigit hd⟩
  · exact ⟨'-', d :: cs, hchars, by decide⟩

theorem exists_toChars_eq (style : Style) (level : Nat) (v : Json) :
    ∃ c cs, toChars style level v = c :: cs ∧ mayStart c = true := by
  cases v with
  | null => exact ⟨_, _, by rw [toChars], by decide⟩
  | bool b => cases b <;> exact ⟨_, _, by rw [toChars], by decide⟩
  | int z =>
    obtain ⟨a, hjson, hchars, -⟩ := Number.exists_numeral_intText z
    rw [toChars, ← hchars]
    exact exists_mayStart_of_numeral hjson
  | real x =>
    rw [toChars]
    cases x with
    | nan => exact ⟨_, _, rfl, by decide⟩
    | infinity negative => cases negative <;> exact ⟨_, _, rfl, by decide⟩
    | finite negative m e =>
      obtain ⟨a, hjson, hchars, -⟩ := Binary64.exists_numeral_toText negative m e
      have htext : realChars (.finite negative m e) = a.chars := hchars.symm
      rw [htext]
      exact exists_mayStart_of_numeral hjson
  | string s => exact ⟨'"', _, by rw [toChars]; rfl, by decide⟩
  | array items =>
    cases items with
    | nil => exact ⟨_, _, by rw [toChars], by decide⟩
    | cons item items => exact ⟨'[', _, by rw [toChars]; rfl, by decide⟩
  | object fields =>
    cases fields with
    | nil => exact ⟨_, _, by rw [toChars], by decide⟩
    | cons f fields =>
      obtain ⟨key, value⟩ := f
      exact ⟨'\x7b', _, by rw [toChars]; rfl, by decide⟩

theorem stops_margin (style : Style) (level : Nat) (hc : continuesNumber c = false)
    (cs : List Char) : Stops continuesNumber (style.margin level ++ c :: cs) := by
  rw [Style.margin]
  cases style.indent with
  | none => exact stops_cons.2 hc
  | some width => exact stops_cons.2 rfl

theorem stops_comma (style : Style) (level : Nat) (cs : List Char) :
    Stops continuesNumber (style.comma level ++ cs) := by
  obtain ⟨w, -, hcomma⟩ := exists_comma_eq style level
  rw [hcomma]
  exact stops_cons.2 rfl

theorem skipSpace_comma (style : Style) (level : Nat) (cs : List Char) :
    ∃ w, AreBlanks w ∧ skipSpace (style.comma level ++ cs) = ',' :: (w ++ cs) := by
  obtain ⟨w, hw, hcomma⟩ := exists_comma_eq style level
  refine ⟨w, hw, ?_⟩
  rw [hcomma]
  exact skipSpace_append areBlanks_nil rfl _

theorem skipSpace_value {w : List Char} (hw : AreBlanks w) (style : Style) (level : Nat) (v : Json)
    (cs : List Char) : skipSpace (w ++ (toChars style level v ++ cs)) = toChars style level v ++ cs := by
  obtain ⟨c, ds, hchars, hc⟩ := exists_toChars_eq style level v
  rw [hchars]
  exact skipSpace_append hw (mayStart_iff.1 hc).1 _

theorem skipSpace_key {w : List Char} (hw : AreBlanks w) (key : String) (cs : List Char) :
    skipSpace (w ++ (stringChars key ++ cs)) = stringChars key ++ cs :=
  skipSpace_append hw rfl _

/-- The reader gives the value back at the level. -/
def Reads (inner : Read Json) (style : Style) (level : Nat) (v : Json) : Prop :=
  ∀ rest, Stops continuesNumber rest → inner (toChars style level v ++ rest) = .ok (v, rest)

section Items

variable {inner : Read Json} {found : List Json} {item : Json} {n : Nat} {cs more rest : List Char}

theorem itemsFrom_last (hitem : inner cs = .ok (item, more)) (hmore : skipSpace more = ']' :: rest) :
    itemsFrom inner found (n + 1) cs = .ok (.array (item :: found).reverse, rest) := by
  simp only [itemsFrom, hitem, hmore]

theorem itemsFrom_next (hitem : inner cs = .ok (item, more)) (hmore : skipSpace more = ',' :: rest) :
    itemsFrom inner found (n + 1) cs = itemsFrom inner (item :: found) n (skipSpace rest) := by
  simp only [itemsFrom, hitem, hmore]

theorem readItems_eq {c : Char} (hcs : skipSpace cs = c :: rest) (hc : c ≠ ']') :
    readItems inner n cs = itemsFrom inner [] n (c :: rest) := by
  rw [readItems, hcs]
  split
  · next h => exact absurd (List.head_eq_of_cons_eq h) hc
  · rfl

end Items

/-- The items of an array are read back, behind those that were found before. -/
theorem itemsFrom_itemsChars {inner : Read Json} {style : Style} {level : Nat} (outer : Nat)
    {items : List Json} (rest : List Char) :
    ∀ (found : List Json) {item : Json} {n : Nat}, Reads inner style level item →
      (∀ v ∈ items, Reads inner style level v) → items.length < n →
      itemsFrom inner found n (toChars style level item ++ (itemsChars style level items ++
        (style.margin outer ++ ']' :: rest))) =
        .ok (.array (found.reverse ++ item :: items), rest) := by
  induction items with
  | nil =>
    intro found item n hitem _ hn
    obtain ⟨n, rfl⟩ := Nat.exists_eq_add_of_lt hn
    rw [itemsChars, List.nil_append, itemsFrom_last (hitem _ (stops_margin style outer rfl rest))
      (skipSpace_append (areBlanks_margin style outer) rfl rest), List.reverse_cons]
  | cons next items ih =>
    -- The item is read up to the comma, and the next one takes its place.
    intro found item n hitem hitems hn
    rw [List.length_cons] at hn
    obtain ⟨n, rfl⟩ := Nat.exists_eq_add_of_lt hn
    rw [itemsChars, List.append_assoc, List.append_assoc]
    obtain ⟨w, hw, hcomma⟩ := skipSpace_comma style level (toChars style level next ++
      (itemsChars style level items ++ (style.margin outer ++ ']' :: rest)))
    rw [itemsFrom_next (hitem _ (stops_comma style level _)) hcomma, skipSpace_value hw,
      ih _ (hitems next List.mem_cons_self)
        (fun v hv => hitems v (List.mem_cons_of_mem next hv)) (by omega), List.reverse_cons,
      List.append_assoc, List.singleton_append]

theorem length_comma_pos (style : Style) (level : Nat) : 0 < (style.comma level).length := by
  obtain ⟨w, -, hcomma⟩ := exists_comma_eq style level
  rw [hcomma]
  exact Nat.zero_lt_succ _

/-- The text of the further items is at least as long as they are many, and as each of them. -/
theorem length_itemsChars (style : Style) (level : Nat) (items : List Json) :
    items.length ≤ (itemsChars style level items).length ∧
      ∀ v ∈ items, (toChars style level v).length ≤ (itemsChars style level items).length := by
  induction items with
  | nil => exact ⟨Nat.zero_le _, by simp⟩
  | cons item items ih =>
    have hpos := length_comma_pos style level
    rw [itemsChars, List.length_append, List.length_append, List.length_cons]
    refine ⟨by omega, fun v hv => ?_⟩
    rcases List.mem_cons.1 hv with rfl | hv
    · omega
    · have hle := ih.2 v hv
      omega

theorem readsBack_array {items : List Json} (h : ∀ v ∈ items, ReadsBack v) :
    ReadsBack (.array items) := by
  intro style level n rest hn hrest
  cases items with
  | nil =>
    rw [toChars] at hn ⊢
    obtain ⟨n, rfl⟩ := Nat.exists_eq_add_of_lt hn
    rfl
  | cons item items =>
    rw [toChars] at hn ⊢
    simp only [List.length_append, List.length_cons, List.length_nil] at hn
    obtain ⟨hmany, hlong⟩ := length_itemsChars style (level + 1) items
    -- The brackets take a character of the bound, and an item fits in what is left of it.
    obtain ⟨n, rfl⟩ := Nat.exists_eq_succ_of_ne_zero (Nat.ne_zero_of_lt hn)
    have hreads : ∀ v ∈ item :: items, Reads (readValue n) style (level + 1) v := by
      intro v hv more hmore
      refine h v hv style (level + 1) n more ?_ hmore
      rcases List.mem_cons.1 hv with rfl | hv
      · omega
      · have hle := hlong v hv
        omega
    have htext : '[' :: style.margin (level + 1) ++ toChars style (level + 1) item ++
        itemsChars style (level + 1) items ++ style.margin level ++ [']'] ++ rest =
        '[' :: (style.margin (level + 1) ++ (toChars style (level + 1) item ++
          (itemsChars style (level + 1) items ++ (style.margin level ++ ']' :: rest)))) := by
      simp
    have hitems := itemsFrom_itemsChars level rest [] (hreads item List.mem_cons_self)
      (fun v hv => hreads v (List.mem_cons_of_mem item hv)) (show items.length < n + 1 by omega)
    have hskip := skipSpace_value (areBlanks_margin style (level + 1)) style (level + 1) item
      (itemsChars style (level + 1) items ++ (style.margin level ++ ']' :: rest))
    obtain ⟨c, ds, hchars, hc⟩ := exists_toChars_eq style (level + 1) item
    rw [hchars, List.cons_append] at hitems hskip
    rw [htext, readValue, hchars]
    exact (readItems_eq hskip (mayStart_iff.1 hc).2.1).trans hitems

/-! ## Objects -/

section Members

variable {inner : Read Json} {found : Fields Json} {key : String} {value : Json} {n : Nat}
  {cs more rest : List Char}

theorem fieldsFrom_last (hfield : readField inner cs = .ok ((key, value), more))
    (hmore : skipSpace more = '\x7d' :: rest) :
    fieldsFrom inner found (n + 1) cs = .ok (.object (found.set key value), rest) := by
  simp only [fieldsFrom, hfield, hmore]

theorem fieldsFrom_next (hfield : readField inner cs = .ok ((key, value), more))
    (hmore : skipSpace more = ',' :: rest) :
    fieldsFrom inner found (n + 1) cs =
      fieldsFrom inner (found.set key value) n (skipSpace rest) := by
  simp only [fieldsFrom, hfield, hmore]

theorem readField_eq {style : Style} {level : Nat} (hvalue : Reads inner style level value)
    (hmore : Stops continuesNumber more) :
    readField inner (stringChars key ++ ':' :: ' ' :: (toChars style level value ++ more)) =
      .ok ((key, value), more) := by
  have hstring := readString_stringChars key (':' :: ' ' :: (toChars style level value ++ more))
  have hcolon : ∀ cs, skipSpace (':' :: cs) = ':' :: cs :=
    fun cs => skipSpace_append areBlanks_nil rfl cs
  have hskip := skipSpace_value areBlanks_space style level value more
  rw [List.singleton_append] at hskip
  rw [stringChars, List.cons_append, List.cons_append] at hstring ⊢
  simp only [readField, hstring, hcolon, hskip, hvalue more hmore]

end Members

/-- The fields of an object are read back, set one after the other. -/
theorem fieldsFrom_fieldsChars {inner : Read Json} {style : Style} {level : Nat} (outer : Nat)
    {fields : Fields Json} (rest : List Char) :
    ∀ (found : Fields Json) (key : String) {value : Json} {n : Nat}, Reads inner style level value →
      (∀ f ∈ fields, Reads inner style level f.2) → fields.length < n →
      fieldsFrom inner found n (stringChars key ++ ':' :: ' ' :: (toChars style level value ++
        (fieldsChars style level fields ++ (style.margin outer ++ '\x7d' :: rest)))) =
        .ok (.object (((key, value) :: fields).foldl
          (fun found f => Fields.set f.1 f.2 found) found), rest) := by
  induction fields with
  | nil =>
    intro found key value n hvalue _ hn
    obtain ⟨n, rfl⟩ := Nat.exists_eq_add_of_lt hn
    rw [fieldsChars, List.nil_append,
      fieldsFrom_last (readField_eq hvalue (stops_margin style outer rfl rest))
      (skipSpace_append (areBlanks_margin style outer) rfl rest)]
    rfl
  | cons next fields ih =>
    intro found key value n hvalue hfields hn
    obtain ⟨nextKey, nextValue⟩ := next
    rw [List.length_cons] at hn
    obtain ⟨n, rfl⟩ := Nat.exists_eq_add_of_lt hn
    have htext : fieldsChars style level ((nextKey, nextValue) :: fields) ++
        (style.margin outer ++ '\x7d' :: rest) = style.comma level ++ (stringChars nextKey ++
          ':' :: ' ' :: (toChars style level nextValue ++ (fieldsChars style level fields ++
            (style.margin outer ++ '\x7d' :: rest)))) := by
      rw [fieldsChars]
      simp
    rw [htext]
    obtain ⟨w, hw, hcomma⟩ := skipSpace_comma style level (stringChars nextKey ++
      ':' :: ' ' :: (toChars style level nextValue ++ (fieldsChars style level fields ++
        (style.margin outer ++ '\x7d' :: rest))))
    rw [fieldsFrom_next (readField_eq hvalue (stops_comma style level _)) hcomma,
      skipSpace_key hw, ih _ _ (hfields (nextKey, nextValue) List.mem_cons_self)
        (fun f hf => hfields f (List.mem_cons_of_mem _ hf)) (by omega)]
    rfl

/-- The text of the further fields is at least as long as they are many, and as the value of each. -/
theorem length_fieldsChars (style : Style) (level : Nat) (fields : Fields Json) :
    fields.length ≤ (fieldsChars style level fields).length ∧ ∀ f ∈ fields,
      (toChars style level f.2).length ≤ (fieldsChars style level fields).length := by
  induction fields with
  | nil => exact ⟨Nat.zero_le _, by simp⟩
  | cons next fields ih =>
    obtain ⟨key, value⟩ := next
    have hpos := length_comma_pos style level
    rw [fieldsChars]
    simp only [List.length_append, List.length_cons]
    refine ⟨by omega, fun f hf => ?_⟩
    rcases List.mem_cons.1 hf with rfl | hf
    · dsimp only
      omega
    · have hle := ih.2 f hf
      omega

theorem readFields_eq {inner : Read Json} {n : Nat} {cs rest : List Char}
    (hcs : skipSpace cs = c :: rest) (hc : c ≠ '\x7d') :
    readFields inner n cs = fieldsFrom inner [] n (c :: rest) := by
  rw [readFields, hcs]
  split
  · next h => exact absurd (List.head_eq_of_cons_eq h) hc
  · rfl

theorem readsBack_object {fields : Fields Json} (h : ∀ f ∈ fields, ReadsBack f.2)
    (hnodup : (fields.map Prod.fst).Nodup) : ReadsBack (.object fields) := by
  intro style level n rest hn hrest
  cases fields with
  | nil =>
    rw [toChars] at hn ⊢
    obtain ⟨n, rfl⟩ := Nat.exists_eq_add_of_lt hn
    rfl
  | cons f fields =>
    obtain ⟨key, value⟩ := f
    rw [toChars] at hn ⊢
    simp only [List.length_append, List.length_cons, List.length_nil] at hn
    obtain ⟨hmany, hlong⟩ := length_fieldsChars style (level + 1) fields
    -- As in an array; the key and the colon make the text longer still.
    obtain ⟨n, rfl⟩ := Nat.exists_eq_succ_of_ne_zero (Nat.ne_zero_of_lt hn)
    have hreads : ∀ f ∈ (key, value) :: fields, Reads (readValue n) style (level + 1) f.2 := by
      intro f hf more hmore
      refine h f hf style (level + 1) n more ?_ hmore
      rcases List.mem_cons.1 hf with rfl | hf
      · dsimp only
        omega
      · have hle := hlong f hf
        omega
    have htext : '\x7b' :: style.margin (level + 1) ++ stringChars key ++ ':' :: ' ' ::
        toChars style (level + 1) value ++ fieldsChars style (level + 1) fields ++
        style.margin level ++ ['\x7d'] ++ rest =
        '\x7b' :: (style.margin (level + 1) ++ (stringChars key ++ ':' :: ' ' ::
          (toChars style (level + 1) value ++ (fieldsChars style (level + 1) fields ++
            (style.margin level ++ '\x7d' :: rest))))) := by
      simp
    have hfields := fieldsFrom_fieldsChars level rest [] key
      (hreads (key, value) List.mem_cons_self)
      (fun f hf => hreads f (List.mem_cons_of_mem _ hf)) (show fields.length < n + 1 by omega)
    have hskip := skipSpace_key (areBlanks_margin style (level + 1)) key (':' :: ' ' ::
      (toChars style (level + 1) value ++ (fieldsChars style (level + 1) fields ++
        (style.margin level ++ '\x7d' :: rest))))
    -- A field that is set for the first time goes to the end.
    rw [Schema.foldl_set_of_nodup hnodup, List.nil_append] at hfields
    rw [htext, readValue]
    exact (readFields_eq hskip (by decide)).trans hfields

/-! ## Whole texts -/

mutual

/-- The value is read back from its text: every key stands once in an object, no integer has more digits
than are read, and the other numbers are in canonical form. -/
def IsReadable : Json → Prop
  | .null | .bool _ | .string _ => True
  | .int z => (natDigits z.natAbs).length ≤ Number.maxDigits
  | .real x => x = .nan ∨ x.IsNumber
  | .array items => AreReadable items
  | .object fields => (fields.map Prod.fst).Nodup ∧ FieldsAreReadable fields

/-- All the values are read back. -/
def AreReadable : List Json → Prop
  | [] => True
  | item :: items => IsReadable item ∧ AreReadable items

/-- The values of all the fields are read back. -/
def FieldsAreReadable : List (String × Json) → Prop
  | [] => True
  | (_, value) :: fields => IsReadable value ∧ FieldsAreReadable fields

end

theorem areReadable_iff {items : List Json} : AreReadable items ↔ ∀ v ∈ items, v.IsReadable := by
  induction items with
  | nil => simp [AreReadable]
  | cons item items ih => simp [AreReadable, ih]

theorem fieldsAreReadable_iff {fields : Fields Json} :
    FieldsAreReadable fields ↔ ∀ f ∈ fields, f.2.IsReadable := by
  induction fields with
  | nil => simp [FieldsAreReadable]
  | cons f fields ih =>
    obtain ⟨key, value⟩ := f
    rw [FieldsAreReadable, ih, List.forall_mem_cons]

mutual

theorem readsBack : ∀ v : Json, v.IsReadable → ReadsBack v
  | .null, _ => readsBack_null
  | .bool b, _ => readsBack_bool b
  | .int _, h => readsBack_int h
  | .real _, h => readsBack_real h
  | .string s, _ => readsBack_string s
  | .array items, h => readsBack_array (readsBack_items items h)
  | .object fields, h => readsBack_object (readsBack_fields fields h.2) h.1

theorem readsBack_items : ∀ items : List Json, AreReadable items → ∀ v ∈ items, ReadsBack v
  | [], _ => by simp
  | item :: items, h =>
    List.forall_mem_cons.2 ⟨readsBack item h.1, readsBack_items items h.2⟩

theorem readsBack_fields : ∀ fields : List (String × Json), FieldsAreReadable fields →
    ∀ f ∈ fields, ReadsBack f.2
  | [], _ => by simp
  | (_, value) :: fields, h =>
    List.forall_mem_cons.2 ⟨readsBack value h.1, readsBack_fields fields h.2⟩

end

/-- A readable value is read back from its text, whatever the layout. -/
theorem parse_toChars (style : Style) {v : Json} (h : v.IsReadable) :
    parse (String.ofList (toChars style 0 v)) = .ok v := by
  have hread := readsBack v h style 0 ((toChars style 0 v).length + 1) [] (Nat.le_succ _) stops_nil
  have hskip := skipSpace_value areBlanks_nil style 0 v []
  obtain ⟨c, cs, hchars, hc⟩ := exists_toChars_eq style 0 v
  have hmark : ((c :: cs).head? == some (Char.ofNat 0xFEFF)) = false := by
    simpa using (mayStart_iff.1 hc).2.2
  have hend : skipSpace [] = [] := rfl
  rw [List.append_nil] at hread
  rw [List.nil_append, List.append_nil] at hskip
  rw [hchars] at hread hskip
  have hwhole : readWhole (c :: cs) = .ok v := by
    rw [readWhole, hmark, if_neg (by decide), hskip, hread]
    simp only [hend]
  rw [parse, String.toList_ofList, hchars, hwhole]

end McdocSchema.Json
