import McdocSchema.Proofs.JsonNumbers

/-!
# The grammar of JSON

The texts that are JSON: the rules of the standard, one constructor for each alternative. A number has a
numeral of its own, so that there is none for an infinity. A value is printed as such a text, whatever the
layout, just if it has no infinity (`isDocument_toChars_iff`).
-/

namespace McdocSchema.Json

open Number (Binary64 Numeral)

/-! ## Strings -/

/-- Whether the character is a hexadecimal digit. -/
def isHexDigit (c : Char) : Bool :=
  c.isDigit || ('a' ≤ c && c ≤ 'f') || ('A' ≤ c && c ≤ 'F')

/-- The characters that a backslash may stand before, but for the letter of a unit. -/
def escapable : List Char :=
  ['"', '\\', '/', 'b', 'f', 'n', 'r', 't']

/-- What stands between the quotes of a string. -/
inductive IsContent : List Char → Prop
  | nil : IsContent []
  | plain {c : Char} {cs : List Char} (hcontrol : 0x20 ≤ c.toNat) (hquote : c ≠ '"')
      (hbackslash : c ≠ '\\') (h : IsContent cs) : IsContent (c :: cs)
  | escape {c : Char} {cs : List Char} (hc : c ∈ escapable) (h : IsContent cs) :
      IsContent ('\\' :: c :: cs)
  | unit {a b c d : Char} {cs : List Char} (hds : [a, b, c, d].all isHexDigit = true)
      (h : IsContent cs) : IsContent ('\\' :: 'u' :: a :: b :: c :: d :: cs)

/-- A string with its quotes. -/
def IsString (cs : List Char) : Prop :=
  ∃ content, cs = '"' :: (content ++ ['"']) ∧ IsContent content

/-! ## Values -/

/-- Blanks, perhaps none. -/
def AreBlanks (cs : List Char) : Prop :=
  ∀ c ∈ cs, isSpace c = true

def grammarWords : List (List Char) :=
  ["null".toList, "true".toList, "false".toList]

/-- What the rules of the grammar speak of: a value, the values between the brackets of an array, and the
members between the braces of an object. -/
inductive Part
  | value
  | items
  | members

/-- The texts of the grammar. Blanks belong to the items and to the members. -/
inductive Derives : Part → List Char → Prop
  | word {cs : List Char} (h : cs ∈ grammarWords) : Derives .value cs
  | number {a : Numeral} (h : a.IsJson) : Derives .value a.chars
  | string {cs : List Char} (h : IsString cs) : Derives .value cs
  | emptyArray {w : List Char} (hw : AreBlanks w) : Derives .value ('[' :: (w ++ [']']))
  | array {cs : List Char} (h : Derives .items cs) : Derives .value ('[' :: (cs ++ [']']))
  | emptyObject {w : List Char} (hw : AreBlanks w) : Derives .value ('\x7b' :: (w ++ ['\x7d']))
  | object {cs : List Char} (h : Derives .members cs) : Derives .value ('\x7b' :: (cs ++ ['\x7d']))
  | item {w cs w' : List Char} (hw : AreBlanks w) (h : Derives .value cs) (hw' : AreBlanks w') :
      Derives .items (w ++ (cs ++ w'))
  | items {w cs w' more : List Char} (hw : AreBlanks w) (h : Derives .value cs) (hw' : AreBlanks w')
      (hmore : Derives .items more) : Derives .items (w ++ (cs ++ (w' ++ ',' :: more)))
  | member {w key w' v cs w'' : List Char} (hw : AreBlanks w) (hkey : IsString key)
      (hw' : AreBlanks w') (hv : AreBlanks v) (h : Derives .value cs) (hw'' : AreBlanks w'') :
      Derives .members (w ++ (key ++ (w' ++ ':' :: (v ++ (cs ++ w'')))))
  | members {w key w' v cs w'' more : List Char} (hw : AreBlanks w) (hkey : IsString key)
      (hw' : AreBlanks w') (hv : AreBlanks v) (h : Derives .value cs) (hw'' : AreBlanks w'')
      (hmore : Derives .members more) :
      Derives .members (w ++ (key ++ (w' ++ ':' :: (v ++ (cs ++ (w'' ++ ',' :: more))))))

/-- A text of the grammar: a value with blanks around it. -/
def IsDocument (text : String) : Prop :=
  ∃ w cs w', AreBlanks w ∧ Derives .value cs ∧ AreBlanks w' ∧ text.toList = w ++ (cs ++ w')

/-! ## Values without infinities -/

mutual

/-- Whether all numbers in a value are finite. -/
def isFinite : Json → Bool
  | .real x => x.isFinite
  | .array items => areFinite items
  | .object fields => fieldsAreFinite fields
  | _ => true

/-- Whether all numbers in the values are finite. -/
def areFinite : List Json → Bool
  | [] => true
  | item :: items => isFinite item && areFinite items

/-- Whether all numbers in the fields are finite. -/
def fieldsAreFinite : List (String × Json) → Bool
  | [] => true
  | (_, value) :: fields => isFinite value && fieldsAreFinite fields

end

theorem areFinite_iff {items : List Json} :
    areFinite items = true ↔ ∀ v ∈ items, v.isFinite = true := by
  induction items with
  | nil => simp [areFinite]
  | cons item items ih => simp [areFinite, ih]

theorem fieldsAreFinite_iff {fields : Fields Json} :
    fieldsAreFinite fields = true ↔ ∀ f ∈ fields, f.2.isFinite = true := by
  induction fields with
  | nil => simp [fieldsAreFinite]
  | cons f fields ih =>
    obtain ⟨key, value⟩ := f
    rw [fieldsAreFinite, Bool.and_eq_true, ih, List.forall_mem_cons]

/-! ## Printed strings -/

variable {cs : List Char}

theorem hexDigits_four (n : Nat) : Text.hexDigits 4 n =
    [Nat.digitChar (n / 4096 % 16), Nat.digitChar (n / 256 % 16), Nat.digitChar (n / 16 % 16),
      Nat.digitChar (n % 16)] := by
  simp [Text.hexDigits, List.range, List.range.loop]

theorem isHexDigit_digitChar (n : Nat) : isHexDigit (Nat.digitChar (n % 16)) = true := by
  have hall : ∀ k : Fin 16, isHexDigit (Nat.digitChar k) = true := by decide
  exact hall ⟨n % 16, Nat.mod_lt _ (by decide)⟩

theorem isContent_unitEscape {n : Nat} (h : IsContent cs) :
    IsContent (unitEscape n ++ cs) := by
  rw [unitEscape, hexDigits_four]
  exact .unit (by simp [isHexDigit_digitChar]) h

/-- A character of a string is written with a short escape, as it is, or with an escape by units. -/
theorem stringChar_cases (c : Char) :
    (∃ e ∈ escapable, stringChar c = ['\\', e] ∧ shortEscape? e = some c) ∨
      (stringChar c = [c] ∧ 0x20 ≤ c.toNat ∧ c ≠ '"' ∧ c ≠ '\\') ∨ stringChar c = charEscape c := by
  by_cases hquote : c = '"'
  · rw [hquote]
    exact .inl ⟨'"', by decide, rfl, rfl⟩
  by_cases hbackslash : c = '\\'
  · rw [hbackslash]
    exact .inl ⟨'\\', by decide, rfl, rfl⟩
  by_cases hn : c = '\n'
  · rw [hn]
    exact .inl ⟨'n', by decide, rfl, rfl⟩
  by_cases hr : c = '\r'
  · rw [hr]
    exact .inl ⟨'r', by decide, rfl, rfl⟩
  by_cases ht : c = '\t'
  · rw [ht]
    exact .inl ⟨'t', by decide, rfl, rfl⟩
  by_cases hb : c = '\x08'
  · rw [hb]
    exact .inl ⟨'b', by decide, rfl, rfl⟩
  by_cases hf : c = '\x0c'
  · rw [hf]
    exact .inl ⟨'f', by decide, rfl, rfl⟩
  right
  have hother : stringChar c = if 0x20 ≤ c.toNat && c.toNat < 0x7F then [c] else charEscape c := by
    simp only [stringChar, beq_iff_eq, hquote, hbackslash, hn, hr, ht, hb, hf, if_false]
  rw [hother]
  by_cases hplain : (0x20 ≤ c.toNat && c.toNat < 0x7F) = true
  · rw [if_pos hplain]
    rw [Bool.and_eq_true, decide_eq_true_eq] at hplain
    exact .inl ⟨rfl, hplain.1, hquote, hbackslash⟩
  · rw [if_neg hplain]
    exact .inr rfl

theorem isContent_stringChar {c : Char} (h : IsContent cs) :
    IsContent (stringChar c ++ cs) := by
  rcases stringChar_cases c with ⟨e, he, hc, -⟩ | ⟨hc, hcontrol, hquote, hbackslash⟩ | hc <;> rw [hc]
  · exact .escape he h
  · exact .plain hcontrol hquote hbackslash h
  · rw [charEscape]
    split
    · exact isContent_unitEscape h
    · rw [List.append_assoc]
      exact isContent_unitEscape (isContent_unitEscape h)

theorem isString_stringChars (s : String) : IsString (stringChars s) := by
  refine ⟨s.toList.flatMap stringChar, rfl, ?_⟩
  induction s.toList with
  | nil => exact .nil
  | cons c cs ih =>
    rw [List.flatMap_cons]
    exact isContent_stringChar ih

/-! ## Printed values -/

theorem areBlanks_nil : AreBlanks [] := by
  intro c hc
  cases hc

theorem areBlanks_margin (style : Style) (level : Nat) : AreBlanks (style.margin level) := by
  rw [Style.margin]
  cases style.indent with
  | none => exact areBlanks_nil
  | some width =>
    intro c hc
    rcases List.mem_cons.1 hc with rfl | hc
    · rfl
    · rw [List.eq_of_mem_replicate hc]
      rfl

theorem exists_comma_eq (style : Style) (level : Nat) :
    ∃ w, AreBlanks w ∧ style.comma level = ',' :: w := by
  rw [Style.comma]
  cases style.indent with
  | none =>
    refine ⟨[' '], ?_, rfl⟩
    intro c hc
    rw [List.mem_singleton.1 hc]
    rfl
  | some width => exact ⟨style.margin level, areBlanks_margin style level, rfl⟩

theorem areBlanks_space : AreBlanks [' '] := by
  intro c hc
  rw [List.mem_singleton.1 hc]
  rfl

theorem derives_realChars {x : Binary64} (h : x.isFinite = true) : Derives .value (realChars x) := by
  cases x with
  | nan => cases h
  | infinity negative => cases h
  | finite negative m e =>
    obtain ⟨a, hjson, hchars, -⟩ := Binary64.exists_numeral_toText negative m e
    show Derives .value (Binary64.toText (.finite negative m e)).toList
    rw [← hchars]
    exact .number hjson

mutual

theorem derives_toChars (style : Style) (level : Nat) :
    ∀ v : Json, v.isFinite = true → Derives .value (toChars style level v)
  | .null, _ => .word (by rw [toChars]; decide)
  | .bool true, _ => .word (by rw [toChars]; decide)
  | .bool false, _ => .word (by rw [toChars]; decide)
  | .int n, _ => by
    obtain ⟨a, hjson, hchars, -⟩ := Number.exists_numeral_intText n
    rw [toChars, ← hchars]
    exact .number hjson
  | .real x, h => by
    rw [toChars]
    exact derives_realChars h
  | .string s, _ => by
    rw [toChars]
    exact .string (isString_stringChars s)
  | .array [], _ => by
    rw [toChars]
    exact .emptyArray areBlanks_nil
  | .array (item :: items), h => by
    rw [isFinite, areFinite, Bool.and_eq_true] at h
    have hitem := derives_toChars style (level + 1) item h.1
    -- The blanks behind the opening bracket belong to the first item, those before the closing one to
    -- the last.
    have hitems := derives_itemsChars style (level + 1) items h.2 (areBlanks_margin style level)
      (areBlanks_margin style (level + 1)) hitem
    rw [toChars]
    have harray := Derives.array hitems
    simpa using harray
  | .object [], _ => by
    rw [toChars]
    exact .emptyObject areBlanks_nil
  | .object ((key, value) :: fields), h => by
    rw [isFinite, fieldsAreFinite, Bool.and_eq_true] at h
    have hvalue := derives_toChars style (level + 1) value h.1
    have hfields := derives_fieldsChars style (level + 1) fields h.2 (areBlanks_margin style level)
      (areBlanks_margin style (level + 1)) (isString_stringChars key) hvalue
    rw [toChars]
    have hobject := Derives.object hfields
    simpa using hobject

/-- The further items of an array go on with what stands before them. -/
theorem derives_itemsChars (style : Style) (level : Nat) :
    ∀ items : List Json, areFinite items = true → ∀ {w cs w' : List Char}, AreBlanks w' →
      AreBlanks w → Derives .value cs →
      Derives .items (w ++ (cs ++ (itemsChars style level items ++ w')))
  | [], _, _, _, _, hw', hw, hcs => by
    rw [itemsChars]
    exact .item hw hcs hw'
  | item :: items, h, w, cs, w', hw', hw, hcs => by
    rw [areFinite, Bool.and_eq_true] at h
    have hitem := derives_toChars style level item h.1
    obtain ⟨v, hv, hcomma⟩ := exists_comma_eq style level
    have hmore := derives_itemsChars style level items h.2 hw' hv hitem
    rw [itemsChars, hcomma]
    have hitems := Derives.items hw hcs areBlanks_nil hmore
    simpa using hitems

/-- The further fields of an object go on with what stands before them. -/
theorem derives_fieldsChars (style : Style) (level : Nat) :
    ∀ fields : List (String × Json), fieldsAreFinite fields = true →
      ∀ {w key cs w' : List Char}, AreBlanks w' → AreBlanks w → IsString key →
      Derives .value cs →
      Derives .members (w ++ (key ++ ':' :: ' ' :: (cs ++ (fieldsChars style level fields ++ w'))))
  | [], _, _, _, _, _, hw', hw, hkey, hcs => by
    rw [fieldsChars]
    exact .member hw hkey areBlanks_nil areBlanks_space hcs hw'
  | (key', value) :: fields, h, w, key, cs, w', hw', hw, hkey, hcs => by
    rw [fieldsAreFinite, Bool.and_eq_true] at h
    have hvalue := derives_toChars style level value h.1
    obtain ⟨v, hv, hcomma⟩ := exists_comma_eq style level
    have hmore := derives_fieldsChars style level fields h.2 hw' hv (isString_stringChars key') hvalue
    rw [fieldsChars, hcomma]
    have hmembers := Derives.members hw hkey areBlanks_nil areBlanks_space hcs areBlanks_nil hmore
    simpa using hmembers

end

/-! ## Capitals outside strings -/

/-- Where a character stands: outside the strings, inside one, or there behind a backslash. -/
inductive Place
  | outside
  | inside
  | escaped

/-- Whether the character starts the word for an infinity or for no number. -/
def isCapital (c : Char) : Bool :=
  c == 'I' || c == 'N'

/-- Whether there is one of the two capitals outside the strings of a text. -/
def hasCapital : Place → List Char → Bool
  | _, [] => false
  | .outside, c :: cs => isCapital c || hasCapital (if c == '"' then .inside else .outside) cs
  | .inside, c :: cs =>
    hasCapital (if c == '"' then .outside else if c == '\\' then .escaped else .inside) cs
  | .escaped, _ :: cs => hasCapital .inside cs

/-- The text does not matter to what stands outside the strings. -/
def IsQuiet (cs : List Char) : Prop :=
  ∀ rest, hasCapital .outside (cs ++ rest) = hasCapital .outside rest

/-- Whether the character is neither a capital nor a quote. -/
def isQuietChar (c : Char) : Bool :=
  !isCapital c && c != '"'

theorem isQuiet_nil : IsQuiet [] := by
  intro rest
  rfl

theorem IsQuiet.append {cs ds : List Char} (h : IsQuiet cs) (h' : IsQuiet ds) :
    IsQuiet (cs ++ ds) := by
  intro rest
  rw [List.append_assoc, h, h']

theorem IsQuiet.cons {c : Char} (hc : isQuietChar c = true) (h : IsQuiet cs) :
    IsQuiet (c :: cs) := by
  intro rest
  rw [isQuietChar, Bool.and_eq_true, Bool.not_eq_true', bne_iff_ne] at hc
  rw [List.cons_append, hasCapital, hc.1, if_neg (by simpa using hc.2), Bool.false_or]
  exact h rest

theorem isQuiet_of_forall (h : ∀ c ∈ cs, isQuietChar c = true) : IsQuiet cs := by
  induction cs with
  | nil => exact isQuiet_nil
  | cons c cs ih =>
    exact (ih fun d hd => h d (List.mem_cons_of_mem c hd)).cons (h c List.mem_cons_self)

theorem AreBlanks.isQuiet {w : List Char} (h : AreBlanks w) : IsQuiet w := by
  refine isQuiet_of_forall fun c hc => ?_
  have hspace := h c hc
  simp only [isSpace, Bool.or_eq_true, beq_iff_eq] at hspace
  rcases hspace with ((rfl | rfl) | rfl) | rfl <;> rfl

theorem hasCapital_inside {c : Char} (hq : c ≠ '"') (hb : c ≠ '\\') :
    hasCapital .inside (c :: cs) = hasCapital .inside cs := by
  rw [hasCapital, if_neg (by simpa using hq), if_neg (by simpa using hb)]

theorem IsContent.hasCapital_append (h : IsContent cs) (rest : List Char) :
    hasCapital .inside (cs ++ rest) = hasCapital .inside rest := by
  induction h with
  | nil => rfl
  | plain _ hq hb _ ih =>
    rw [List.cons_append, hasCapital_inside hq hb, ih]
  | escape _ _ ih => exact ih
  | @unit a b c d cs hds _ ih =>
    -- No hexadecimal digit ends the string or starts another escape.
    have hhex : ∀ x ∈ [a, b, c, d], x ≠ '"' ∧ x ≠ '\\' := by
      intro x hx
      have hxhex := List.all_eq_true.1 hds x hx
      exact ⟨Text.ne_of_holds hxhex (by decide), Text.ne_of_holds hxhex (by decide)⟩
    show hasCapital .inside (a :: b :: c :: d :: (cs ++ rest)) = _
    rw [hasCapital_inside (hhex a (by simp)).1 (hhex a (by simp)).2,
      hasCapital_inside (hhex b (by simp)).1 (hhex b (by simp)).2,
      hasCapital_inside (hhex c (by simp)).1 (hhex c (by simp)).2,
      hasCapital_inside (hhex d (by simp)).1 (hhex d (by simp)).2, ih]

theorem IsString.isQuiet (h : IsString cs) : IsQuiet cs := by
  obtain ⟨content, rfl, hcontent⟩ := h
  intro rest
  show hasCapital .inside (content ++ ['"'] ++ rest) = _
  rw [List.append_assoc, hcontent.hasCapital_append]
  rfl

theorem isQuiet_numeral (a : Numeral) : IsQuiet a.chars := by
  refine isQuiet_of_forall fun c hc => ?_
  rcases Numeral.isDecimal_or_mem_marks hc with hdigit | hmark
  · have hne : ∀ d, Text.isDecimal d = false → (c == d) = false :=
      fun d hd => beq_false_of_ne (Text.ne_of_holds hdigit hd)
    simp [isQuietChar, isCapital, bne, hne 'I' (by decide), hne 'N' (by decide), hne '"' (by decide)]
  · have hall : Numeral.marks.all isQuietChar = true := by decide
    exact List.all_eq_true.1 hall c hmark

/-- What the grammar has is quiet. -/
theorem Derives.isQuiet {part : Part} (h : Derives part cs) : IsQuiet cs := by
  induction h with
  | word h =>
    have hall : grammarWords.all (·.all isQuietChar) = true := by decide
    exact isQuiet_of_forall fun c hc =>
      List.all_eq_true.1 (List.all_eq_true.1 hall _ h) c hc
  | number _ => exact isQuiet_numeral _
  | string h => exact h.isQuiet
  | emptyArray hw => exact (hw.isQuiet.append (isQuiet_nil.cons rfl)).cons rfl
  | array _ ih => exact (ih.append (isQuiet_nil.cons rfl)).cons rfl
  | emptyObject hw => exact (hw.isQuiet.append (isQuiet_nil.cons rfl)).cons rfl
  | object _ ih => exact (ih.append (isQuiet_nil.cons rfl)).cons rfl
  | item hw _ hw' ih => exact hw.isQuiet.append (ih.append hw'.isQuiet)
  | items hw _ hw' _ ih ihmore =>
    exact hw.isQuiet.append (ih.append (hw'.isQuiet.append (ihmore.cons rfl)))
  | member hw hkey hw' hv _ hw'' ih =>
    exact hw.isQuiet.append (hkey.isQuiet.append (hw'.isQuiet.append
      ((hv.isQuiet.append (ih.append hw''.isQuiet)).cons rfl)))
  | members hw hkey hw' hv _ hw'' _ ih ihmore =>
    exact hw.isQuiet.append (hkey.isQuiet.append (hw'.isQuiet.append
      ((hv.isQuiet.append (ih.append (hw''.isQuiet.append (ihmore.cons rfl)))).cons rfl)))

theorem hasCapital_of_isDocument {text : String} (h : IsDocument text) :
    hasCapital .outside text.toList = false := by
  obtain ⟨w, cs, w', hw, hcs, hw', htext⟩ := h
  have hquiet := hw.isQuiet.append (hcs.isQuiet.append hw'.isQuiet) []
  rw [List.append_nil] at hquiet
  rw [htext, hquiet]
  rfl

theorem isQuiet_margin (style : Style) (level : Nat) : IsQuiet (style.margin level) :=
  (areBlanks_margin style level).isQuiet

theorem isQuiet_comma (style : Style) (level : Nat) : IsQuiet (style.comma level) := by
  obtain ⟨w, hw, hcomma⟩ := exists_comma_eq style level
  rw [hcomma]
  exact hw.isQuiet.cons rfl

theorem isQuiet_colon : IsQuiet [':', ' '] :=
  (isQuiet_nil.cons rfl).cons rfl

theorem hasCapital_realChars (x : Binary64) (rest : List Char) :
    hasCapital .outside (realChars x ++ rest) = (!x.isFinite || hasCapital .outside rest) := by
  cases x with
  | nan => rfl
  | infinity negative => cases negative <;> rfl
  | finite negative m e =>
    obtain ⟨a, -, hchars, -⟩ := Binary64.exists_numeral_toText negative m e
    show hasCapital .outside ((Binary64.toText (.finite negative m e)).toList ++ rest) = _
    rw [← hchars, isQuiet_numeral a rest]
    rfl

mutual

/-- The text of a value has a capital outside its strings just if the value has an infinity. -/
theorem hasCapital_toChars (style : Style) (level : Nat) :
    ∀ (v : Json) (rest : List Char), hasCapital .outside (toChars style level v ++ rest) =
      (!v.isFinite || hasCapital .outside rest)
  | .null, _ => by rw [toChars]; rfl
  | .bool true, _ => by rw [toChars]; rfl
  | .bool false, _ => by rw [toChars]; rfl
  | .int n, rest => by
    obtain ⟨a, -, hchars, -⟩ := Number.exists_numeral_intText n
    rw [toChars, ← hchars, isQuiet_numeral a rest]
    rfl
  | .real x, rest => by
    rw [toChars]
    exact hasCapital_realChars x rest
  | .string s, rest => by
    rw [toChars, (isString_stringChars s).isQuiet rest]
    rfl
  | .array [], _ => by rw [toChars]; rfl
  | .array (item :: items), rest => by
    -- Around the items all is quiet, so that the capitals are those of the items.
    have hopen : IsQuiet ('[' :: style.margin (level + 1)) := (isQuiet_margin style _).cons rfl
    have hclose : IsQuiet (style.margin level ++ [']']) :=
      (isQuiet_margin style _).append (isQuiet_nil.cons rfl)
    have htext : toChars style level (.array (item :: items)) ++ rest =
        ('[' :: style.margin (level + 1)) ++ (toChars style (level + 1) item ++
          (itemsChars style (level + 1) items ++ ((style.margin level ++ [']']) ++ rest))) := by
      rw [toChars]
      simp
    rw [htext, hopen, hasCapital_toChars style (level + 1) item,
      hasCapital_itemsChars style (level + 1) items, hclose, isFinite, areFinite, Bool.not_and,
      Bool.or_assoc]
  | .object [], _ => by rw [toChars]; rfl
  | .object ((key, value) :: fields), rest => by
    have hopen : IsQuiet ('\x7b' :: style.margin (level + 1)) := (isQuiet_margin style _).cons rfl
    have hkey := (isString_stringChars key).isQuiet.append isQuiet_colon
    have hclose : IsQuiet (style.margin level ++ ['\x7d']) :=
      (isQuiet_margin style _).append (isQuiet_nil.cons rfl)
    have htext : toChars style level (.object ((key, value) :: fields)) ++ rest =
        ('\x7b' :: style.margin (level + 1)) ++ ((stringChars key ++ [':', ' ']) ++
          (toChars style (level + 1) value ++ (fieldsChars style (level + 1) fields ++
            ((style.margin level ++ ['\x7d']) ++ rest)))) := by
      rw [toChars]
      simp
    rw [htext, hopen, hkey, hasCapital_toChars style (level + 1) value,
      hasCapital_fieldsChars style (level + 1) fields, hclose, isFinite, fieldsAreFinite, Bool.not_and,
      Bool.or_assoc]

theorem hasCapital_itemsChars (style : Style) (level : Nat) :
    ∀ (items : List Json) (rest : List Char),
      hasCapital .outside (itemsChars style level items ++ rest) =
        (!areFinite items || hasCapital .outside rest)
  | [], _ => by rw [itemsChars]; rfl
  | item :: items, rest => by
    rw [itemsChars, List.append_assoc, List.append_assoc, isQuiet_comma style level,
      hasCapital_toChars style level item, hasCapital_itemsChars style level items, areFinite,
      Bool.not_and, Bool.or_assoc]

theorem hasCapital_fieldsChars (style : Style) (level : Nat) :
    ∀ (fields : List (String × Json)) (rest : List Char),
      hasCapital .outside (fieldsChars style level fields ++ rest) =
        (!fieldsAreFinite fields || hasCapital .outside rest)
  | [], _ => by rw [fieldsChars]; rfl
  | (key, value) :: fields, rest => by
    have hkey := (isString_stringChars key).isQuiet.append isQuiet_colon
    have htext : fieldsChars style level ((key, value) :: fields) ++ rest =
        style.comma level ++ ((stringChars key ++ [':', ' ']) ++
          (toChars style level value ++ (fieldsChars style level fields ++ rest))) := by
      rw [fieldsChars]
      simp
    rw [htext, isQuiet_comma style level, hkey, hasCapital_toChars style level value,
      hasCapital_fieldsChars style level fields, fieldsAreFinite, Bool.not_and, Bool.or_assoc]

end

/-- The text of a value belongs to the grammar just if the numbers in the value are finite. -/
theorem isDocument_toChars_iff (style : Style) (v : Json) :
    IsDocument (String.ofList (toChars style 0 v)) ↔ v.isFinite = true := by
  constructor
  · intro h
    have hquiet := hasCapital_of_isDocument h
    rw [String.toList_ofList] at hquiet
    have hcapital := hasCapital_toChars style 0 v []
    rw [List.append_nil, hquiet, hasCapital, Bool.or_false] at hcapital
    rw [← Bool.not_eq_false, ← Bool.not_eq_true', ← hcapital]
    decide
  · intro h
    exact ⟨[], _, [], areBlanks_nil, derives_toChars style 0 v h, areBlanks_nil, by simp⟩

end McdocSchema.Json
