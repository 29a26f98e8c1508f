import McdocSchema.Proofs.JoinedText
import McdocSchema.Proofs.Numerals
import McdocSchema.Proofs.ReadBack

/-!
# The text of number ranges

A range is written as a number alone, as two numbers with a delimiter between them, as a number and a
delimiter, or as a delimiter and a number. `RangeText.Means` says what each of these texts means, and
`RangeText.bounds` and `RangeText.unread` say what is made of it and which tokens are left over. The two
agree on some texts only: a range is understood unless it has one of the forms that the main statement
lists (`Parse.rangeText_means_iff`).
-/

namespace McdocSchema

open Number (Binary64 Numeral)
open Text (Stops stops_nil stops_cons)

/-! ## Texts without spaces -/

namespace Lexeme

/-- The text is a sequence of lexemes and gaps, and its tokens have the forms. -/
inductive Reads : List Char → List Form → Prop
  | nil : Reads [] []
  | gap {cs taken rest : List Char} {fs : List Form} (h : next cs = ⟨.gap, taken, rest⟩)
      (hrest : Reads rest fs) : Reads cs fs
  | token {cs taken rest : List Char} {kind : Token.Kind} {value : String} {fs : List Form}
      (h : next cs = ⟨.token kind value, taken, rest⟩) (hrest : Reads rest fs) :
      Reads cs (⟨kind, value⟩ :: fs)

end Lexeme

open Lexeme (Reads)

theorem Scanner.run_of_reads {s : Scanner} {done : List Token} {cs : List Char} {fs : List Form}
    (h : Reads cs fs) (hs : s.rest = cs) :
    ∃ ts, (run s done).fault = none ∧ (run s done).tokens = done.reverse ++ ts ∧
      ts.map Token.form = fs ++ [Form.eof] := by
  induction h generalizing s done with
  | nil =>
    have hnext : (Lexeme.next s.rest).value = .stop := by
      rw [hs]
      rfl
    refine ⟨[Token.eofAt s.pos], ?_, ?_, rfl⟩
    · rw [run_eq, hnext]
    · rw [run_eq, hnext, List.reverse_cons]
  | gap hnext _ ih =>
    rw [← hs] at hnext
    rw [run_of_gap (by rw [hnext]), hnext]
    exact ih rfl
  | @token cs taken rest kind value fs hnext _ ih =>
    rw [← hs] at hnext
    have hrest : (s.moveBehind (Lexeme.next s.rest)).rest = rest := by
      rw [hnext]
      rfl
    rw [run_of_token (by rw [hnext])]
    obtain ⟨ts, hfault, htokens, hts⟩ := @ih _ (⟨kind, value, s.pos⟩ :: done) hrest
    refine ⟨⟨kind, value, s.pos⟩ :: ts, hfault, htokens.trans ?_, ?_⟩
    · rw [List.reverse_cons, List.append_assoc, List.singleton_append]
    · rw [List.map_cons, hts, List.cons_append]
      rfl

theorem Token.scan_of_reads {cs : List Char} {fs : List Form} (h : Reads cs fs) :
    ∃ ts, Token.scan (String.ofList cs) = .ok ts ∧ ts.map Token.form = fs ++ [Form.eof] := by
  have hs : (Scanner.ofString (String.ofList cs)).rest = cs := String.toList_ofList
  obtain ⟨ts, hfault, htokens, hts⟩ := @Scanner.run_of_reads _ [] _ _ h hs
  refine ⟨ts, ?_, hts⟩
  rw [Token.scan, Scanner.tokens, hfault, htokens]
  rfl

/-! ## Delimiters -/

/-- What stands between the bounds of a range: two points, with an angle on the side of each end that is
excluded. -/
structure Delimiter where
  lowerExclusive : Bool
  upperExclusive : Bool
  deriving DecidableEq, Repr

namespace Delimiter

def chars (d : Delimiter) : List Char :=
  (if d.lowerExclusive then ['<'] else []) ++
    ('.' :: '.' :: if d.upperExclusive then ['<'] else [])

def kind : Delimiter → Token.Kind
  | ⟨false, false⟩ => .range
  | ⟨false, true⟩ => .rangeExclusive
  | ⟨true, false⟩ => .exclusiveRange
  | ⟨true, true⟩ => .exclusiveRangeExclusive

def form (d : Delimiter) : Form :=
  ⟨d.kind, String.ofList d.chars⟩

/-- Whether the character can be part of a delimiter. -/
def isPart (c : Char) : Bool :=
  c == '.' || c == '<'

theorem next_of_symbol? {c : Char} {cs taken rest : List Char} {k : Token.Kind}
    (hc : isPart c = true) (h : Lexeme.symbol? (c :: cs) = some (taken, k))
    (hcs : c :: cs = taken ++ rest) :
    Lexeme.next (c :: cs) = ⟨.token k (String.ofList taken), taken, rest⟩ := by
  have hother : Lexeme.startsOther c = true ∧ ¬ (c == '%') = true := by
    rw [isPart, Bool.or_eq_true, beq_iff_eq, beq_iff_eq] at hc
    rcases hc with rfl | rfl <;> decide
  rw [Lexeme.next_of_startsOther hother.1, if_neg hother.2, Lexeme.foundSymbol, h]
  dsimp only
  rw [hcs, List.drop_left]

/-- A delimiter is found whole where no part of another one follows. -/
theorem next_append (d : Delimiter) {rest : List Char} (h : Stops isPart rest) :
    Lexeme.next (d.chars ++ rest) = ⟨.token d.kind (String.ofList d.chars), d.chars, rest⟩ := by
  have hrest : rest = [] ∨ ∃ c cs, rest = c :: cs ∧ c ≠ '.' ∧ c ≠ '<' := by
    cases rest with
    | nil => exact .inl rfl
    | cons c cs =>
      have hc := stops_cons.1 h
      rw [isPart, Bool.or_eq_false_iff, beq_eq_false_iff_ne, beq_eq_false_iff_ne] at hc
      exact .inr ⟨c, cs, rfl, hc⟩
  rcases d with ⟨_ | _, _ | _⟩
  · refine next_of_symbol? (by decide) ?_ rfl
    rcases hrest with rfl | ⟨c, cs, rfl, hp, ha⟩
    · rfl
    · simp [Lexeme.symbol?, Lexeme.symbols, List.isPrefixOf, hp.symm, ha.symm, kind, chars]
  · exact next_of_symbol? (by decide) rfl rfl
  · refine next_of_symbol? (by decide) ?_ rfl
    rcases hrest with rfl | ⟨c, cs, rfl, hp, ha⟩
    · rfl
    · simp [Lexeme.symbol?, Lexeme.symbols, List.isPrefixOf, ha.symm, kind, chars]
  · exact next_of_symbol? (by decide) rfl rfl

end Delimiter

/-! ## Numerals and delimiters -/

namespace Number.Numeral

def form (a : Numeral) : Form :=
  ⟨a.kind, a.text⟩

theorem stops_isPart (a : Numeral) (rest : List Char) :
    Stops Delimiter.isPart (a.chars ++ rest) := by
  obtain ⟨c, cs, hcs, hc⟩ := a.exists_chars_eq
  rw [hcs]
  refine stops_cons.2 ?_
  rw [Delimiter.isPart, Bool.or_eq_false_iff, beq_eq_false_iff_ne, beq_eq_false_iff_ne]
  rcases hc with hc | hc
  · exact ⟨Text.ne_of_holds hc (by decide), Text.ne_of_holds hc (by decide)⟩
  · exact ⟨Text.ne_of_holds hc (by decide), Text.ne_of_holds hc (by decide)⟩

def withoutFraction (a : Numeral) : Numeral :=
  { a with fraction := none, fraction_isDecimal := Number.isDecimal_of_mem_none }

/-- Whether the point of the numeral and those of the delimiter are taken for an ellipsis. -/
def blursInto (a : Numeral) (d : Delimiter) : Bool :=
  a.endsInPoint && !d.lowerExclusive

/-- The forms of a numeral and a delimiter behind it. -/
def formsWith (a : Numeral) (d : Delimiter) : List Form :=
  if a.blursInto d then
    a.withoutFraction.form :: ⟨.ellipsis, "..."⟩ ::
      if d.upperExclusive then [⟨.leftAngle, "<"⟩] else []
  else [a.form, d.form]

theorem value_withoutFraction {a : Numeral} (h : a.endsInPoint = true) :
    a.withoutFraction.value = a.value := by
  rw [endsInPoint, Bool.and_eq_true, beq_iff_eq] at h
  simp only [value, lastExponent, digits, isNegative, withoutFraction, h.2]
  rfl

theorem chars_of_endsInPoint {a : Numeral} (h : a.endsInPoint = true) :
    a.chars = a.withoutFraction.chars ++ ['.'] := by
  rw [endsInPoint, Bool.and_eq_true, beq_iff_eq, Option.isNone_iff_eq_none] at h
  simp [chars, fractionChars, exponentChars, withoutFraction, h.1, h.2]

/-- A numeral and a delimiter behind it are read as two tokens unless the first ends in a point and the
second starts with one. -/
theorem reads_append {a : Numeral} {d : Delimiter} {rest : List Char} {fs : List Form}
    (hstops : Stops Delimiter.isPart rest) (hrest : Reads rest fs) :
    Reads (a.chars ++ (d.chars ++ rest)) (a.formsWith d ++ fs) := by
  rw [formsWith]
  by_cases hblurs : a.blursInto d = true
  · rw [if_pos hblurs]
    rw [blursInto, Bool.and_eq_true, Bool.not_eq_true'] at hblurs
    obtain ⟨hends, hlower⟩ := hblurs
    have hcs : a.chars ++ (d.chars ++ rest) = a.withoutFraction.chars ++
        '.' :: '.' :: '.' :: ((if d.upperExclusive then ['<'] else []) ++ rest) := by
      rw [chars_of_endsInPoint hends, Delimiter.chars, hlower]
      simp
    rw [hcs]
    refine .token (next_append (.inr (.inr ⟨?_, _, rfl⟩))) ?_
    · simp [endsInPoint, withoutFraction]
    refine .token (Delimiter.next_of_symbol? (by decide) rfl rfl) ?_
    cases d.upperExclusive with
    | false => exact hrest
    | true =>
      refine .token (Delimiter.next_of_symbol? (by decide) ?_ rfl) hrest
      cases rest with
      | nil => rfl
      | cons c cs =>
        have hc := stops_cons.1 hstops
        rw [Delimiter.isPart, Bool.or_eq_false_iff, beq_eq_false_iff_ne] at hc
        simp [Lexeme.symbol?, Lexeme.symbols, List.isPrefixOf, hc.1.symm]
  · rw [if_neg hblurs]
    refine .token (next_append ?_) (.token (d.next_append hstops) hrest)
    rw [blursInto, Bool.and_eq_true, Bool.not_eq_true', not_and_or] at hblurs
    -- In front of the delimiter there is an angle, or the numeral does not end in a point.
    rcases hl : d.lowerExclusive with _ | _
    · right; right
      refine ⟨?_, (if d.upperExclusive then ['<'] else []) ++ rest, ?_⟩
      · rw [hl] at hblurs
        simpa using hblurs
      · simp [Delimiter.chars, hl]
    · right; left
      exact ⟨'.' :: '.' :: ((if d.upperExclusive then ['<'] else []) ++ rest), by
        simp [Delimiter.chars, hl]⟩

end Number.Numeral

/-! ## Ranges and what they mean -/

inductive RangeText
  | exactly (a : Numeral)
  | between (a : Numeral) (d : Delimiter) (b : Numeral)
  | atLeast (a : Numeral) (d : Delimiter)
  | atMost (d : Delimiter) (b : Numeral)

namespace RangeText

def chars : RangeText → List Char
  | exactly a => a.chars
  | between a d b => a.chars ++ (d.chars ++ b.chars)
  | atLeast a d => a.chars ++ d.chars
  | atMost d b => d.chars ++ b.chars

/-- The range is what the text means. An end without a bound may count as excluded or not. -/
def Means : RangeText → NumberRange → Prop
  | exactly a, r =>
    r.min = some a.value ∧ r.max = some a.value ∧ r.minExclusive = false ∧ r.maxExclusive = false
  | between a d b, r =>
    r.min = some a.value ∧ r.max = some b.value ∧ r.minExclusive = d.lowerExclusive ∧
      r.maxExclusive = d.upperExclusive
  | atLeast a d, r => r.min = some a.value ∧ r.max = none ∧ r.minExclusive = d.lowerExclusive
  | atMost d b, r => r.min = none ∧ r.max = some b.value ∧ r.maxExclusive = d.upperExclusive

/-- Whether the parser takes the delimiter behind the numeral for one. -/
def joins (a : Numeral) (d : Delimiter) : Bool :=
  !d.lowerExclusive && !a.endsInPoint

/-- Whether the text is understood as it is meant. -/
def isUnderstood : RangeText → Bool
  | exactly _ => false
  | between a d _ => joins a d
  | atLeast a d => joins a d
  | atMost d _ => d.lowerExclusive

/-! ## How ranges are read -/

/-- The forms of the tokens. -/
def forms : RangeText → List Form
  | exactly a => [a.form]
  | between a d b => a.formsWith d ++ [b.form]
  | atLeast a d => a.formsWith d
  | atMost d b => [d.form, b.form]

/-- The range that the text is read as. -/
def bounds : RangeText → NumberRange
  | exactly a => ⟨some a.value, none, false, false⟩
  | between a d b =>
    if joins a d then ⟨some a.value, some b.value, false, d.upperExclusive⟩
    else ⟨some a.value, none, false, false⟩
  | atLeast a d =>
    ⟨some a.value, none, false, joins a d && d.upperExclusive⟩
  | atMost d b => if d.lowerExclusive then ⟨none, some b.value, true, d.upperExclusive⟩ else {}

/-- The forms of the tokens that are left behind the range. -/
def unread : RangeText → List Form
  | exactly _ => []
  | between a d b => if joins a d then [] else (a.formsWith d).tail ++ [b.form]
  | atLeast a d => if joins a d then [] else (a.formsWith d).tail
  | atMost d b => if d.lowerExclusive then [] else [d.form, b.form]

theorem reads_numeral (a : Numeral) : Reads a.chars [a.form] := by
  have h := @Numeral.next_append a [] (.inl rfl)
  rw [List.append_nil] at h
  exact .token h .nil

theorem reads_chars (t : RangeText) : Reads t.chars t.forms := by
  cases t with
  | exactly a => exact reads_numeral a
  | between a d b =>
    have hstops := b.stops_isPart []
    rw [List.append_nil] at hstops
    exact Numeral.reads_append hstops (reads_numeral b)
  | atLeast a d =>
    have h := @Numeral.reads_append a d [] [] stops_nil .nil
    rw [List.append_nil, List.append_nil] at h
    exact h
  | atMost d b =>
    have hstops := b.stops_isPart []
    rw [List.append_nil] at hstops
    exact .token (d.next_append hstops) (reads_numeral b)

theorem lowerExclusive_of_joins {a : Numeral} {d : Delimiter} (h : joins a d = true) :
    d.lowerExclusive = false := by
  rw [joins, Bool.and_eq_true, Bool.not_eq_true'] at h
  exact h.1

/-- A text is understood if nothing is left and the range is what the text means. -/
theorem isUnderstood_iff (t : RangeText) :
    t.isUnderstood = true ↔ t.unread = [] ∧ t.Means t.bounds := by
  cases t with
  | exactly a => simp [isUnderstood, Means, bounds]
  | between a d b =>
    by_cases h : joins a d = true
    · simp [isUnderstood, unread, Means, bounds, h, lowerExclusive_of_joins h]
    · simp [isUnderstood, unread, h]
  | atLeast a d =>
    by_cases h : joins a d = true
    · simp [isUnderstood, unread, Means, bounds, h, lowerExclusive_of_joins h]
    · have htail : (a.formsWith d).tail ≠ [] := by
        rw [Numeral.formsWith]
        split <;> simp
      simp [isUnderstood, unread, h, htail]
  | atMost d b =>
    cases h : d.lowerExclusive <;> simp [isUnderstood, unread, Means, bounds, h]

end RangeText

/-! ## Parsing ranges -/

namespace Parse

open TokenStream RangeText

variable {a b : Numeral} {d : Delimiter} {ts rest : TokenStream}

theorem isNumber_of_form {t : Token} (h : t.form = a.form) :
    t.kind.isNumber = true ∧ Number.readReal t.value = .ok a.value := by
  rw [kind_of_form h, value_of_form h]
  exact ⟨a.isNumber_kind, a.readReal_text⟩

theorem bound?_of_numeral (h : Front [b.form] ts rest) (hr : rest ≠ []) :
    bound? ts = .done (some b.value) rest := by
  obtain ⟨t, rfl, ht⟩ := front_singleton_iff.1 h
  obtain ⟨hnumber, hvalue⟩ := isNumber_of_form ht
  exact bound?_cons hnumber hvalue hr

/-- A numeral in front of a delimiter that the parser does not take for one is a lower bound. -/
theorem numberRange_of_not_joins {fs : List Form} (h : joins a d = false)
    (hts : Front (a.formsWith d ++ fs) ts rest) (hr : rest ≠ []) :
    ∃ mid, numberRange ts = .done ⟨some a.value, none, false, false⟩ mid ∧
      Front ((a.formsWith d).tail ++ fs) mid rest := by
  -- What follows the numeral is an ellipsis or a delimiter with an angle in front.
  have hvalue : ∃ (a' : Numeral) (f : Form) (gs : List Form), a.formsWith d = a'.form :: f :: gs ∧
      a'.value = a.value ∧ f.kind ≠ .range ∧ f.kind ≠ .rangeExclusive := by
    rw [Numeral.formsWith]
    by_cases hblurs : a.blursInto d = true
    · rw [if_pos hblurs]
      rw [Numeral.blursInto, Bool.and_eq_true] at hblurs
      exact ⟨a.withoutFraction, _, _, rfl, Numeral.value_withoutFraction hblurs.1, by decide,
        by decide⟩
    · rw [if_neg hblurs]
      have hlower : d.lowerExclusive = true := by
        rw [Numeral.blursInto] at hblurs
        rw [joins] at h
        revert h hblurs
        cases d.lowerExclusive <;> cases a.endsInPoint <;> simp
      obtain ⟨lower, upper⟩ := d
      obtain rfl : lower = true := hlower
      refine ⟨a, _, _, rfl, rfl, ?_, ?_⟩ <;> cases upper <;> decide
  obtain ⟨a', f, gs, hforms, hvalue, hf, hf'⟩ := hvalue
  rw [hforms, List.cons_append] at hts
  obtain ⟨t, mid, rfl, ht, hmid⟩ := front_cons_iff.1 hts
  have hcurrent : mid.current.kind = f.kind := by
    obtain ⟨u, _, rfl, hu, -⟩ := front_cons_iff.1 hmid
    rw [current_cons, kind_of_form hu]
  obtain ⟨hnumber, hread⟩ := isNumber_of_form ht
  refine ⟨mid, ?_, ?_⟩
  · rw [← hvalue]
    exact numberRange_min hnumber hread (hmid.ne_nil hr) (by rwa [hcurrent]) (by rwa [hcurrent])
  · rw [hforms]
    exact hmid

/-- A numeral and a delimiter that the parser takes for one, perhaps with another numeral. -/
theorem numberRange_of_joins {fs : List Form} {y : Option Binary64} (h : joins a d = true)
    (hts : Front (a.formsWith d ++ fs) ts rest) (hr : rest ≠ [])
    (hy : ∀ mid, Front fs mid rest → bound? mid = .done y rest) :
    numberRange ts = .done ⟨some a.value, y, false, d.upperExclusive⟩ rest := by
  rw [joins, Bool.and_eq_true, Bool.not_eq_true', Bool.not_eq_true'] at h
  obtain ⟨lower, upper⟩ := d
  obtain rfl : lower = false := h.1
  rw [Numeral.formsWith, if_neg (by simp [Numeral.blursInto, h.2])] at hts
  obtain ⟨t, _, rfl, ht, hts⟩ := front_cons_iff.1 hts
  obtain ⟨u, mid, rfl, hu, hmid⟩ := front_cons_iff.1 hts
  have hkind : u.kind = .range ∨ u.kind = .rangeExclusive := by
    rw [kind_of_form hu]
    cases upper
    · exact .inl rfl
    · exact .inr rfl
  have hupper : (u.kind == .rangeExclusive) = upper := by
    rw [kind_of_form hu]
    cases upper <;> rfl
  obtain ⟨hnumber, hread⟩ := isNumber_of_form ht
  rw [numberRange_min_max hnumber hread hkind (hmid.ne_nil hr) (hy mid hmid), hupper]

/-- What the parser makes of each text of a range, in front of the end of the text. -/
theorem numberRange_of_rangeText (t : RangeText) (h : Front t.forms ts rest) (hr : rest ≠ [])
    (heof : rest.current.kind = .eof) :
    ∃ mid, numberRange ts = .done t.bounds mid ∧ Front t.unread mid rest := by
  have hnone : bound? rest = .done none rest := bound?_of_not_isNumber (by rw [heof]; rfl)
  cases t with
  | exactly a =>
    obtain ⟨t, rfl, ht⟩ := front_singleton_iff.1 h
    obtain ⟨hnumber, hread⟩ := isNumber_of_form ht
    exact ⟨rest, numberRange_min hnumber hread hr (by rw [heof]; decide) (by rw [heof]; decide),
      front_nil_iff.2 rfl⟩
  | between a d b =>
    cases hj : joins a d with
    | true =>
      simp only [bounds, unread, hj, if_true]
      exact ⟨rest, numberRange_of_joins hj h hr fun mid hmid => bound?_of_numeral hmid hr,
        front_nil_iff.2 rfl⟩
    | false =>
      simp only [bounds, unread, hj, Bool.false_eq_true, if_false]
      exact numberRange_of_not_joins hj h hr
  | atLeast a d =>
    have h : Front (a.formsWith d ++ []) ts rest := by rwa [List.append_nil]
    cases hj : joins a d with
    | true =>
      simp only [bounds, unread, hj, if_true, Bool.true_and]
      refine ⟨rest, numberRange_of_joins hj h hr fun mid hmid => ?_, front_nil_iff.2 rfl⟩
      rw [front_nil_iff.1 hmid]
      exact hnone
    | false =>
      simp only [bounds, unread, hj, Bool.false_eq_true, if_false, Bool.false_and]
      have hmin := numberRange_of_not_joins hj h hr
      rwa [List.append_nil] at hmin
  | atMost d b =>
    obtain ⟨u, mid, rfl, hu, hmid⟩ := front_cons_iff.1 h
    obtain ⟨lower, upper⟩ := d
    cases lower with
    | true =>
      have hkind : u.kind = .exclusiveRange ∨ u.kind = .exclusiveRangeExclusive := by
        rw [kind_of_form hu]
        cases upper
        · exact .inl rfl
        · exact .inr rfl
      have hupper : (u.kind == .exclusiveRangeExclusive) = upper := by
        rw [kind_of_form hu]
        cases upper <;> rfl
      refine ⟨rest, ?_, front_nil_iff.2 rfl⟩
      rw [numberRange_max hkind (hmid.ne_nil hr) (bound?_of_numeral hmid hr), hupper]
      rfl
    | false =>
      refine ⟨u :: mid, numberRange_none ?_ ?_ ?_, h⟩
      all_goals
        rw [current_cons, kind_of_form hu]
        cases upper <;> decide

/-- The text of a range behind an at sign is scanned and parsed as `bounds` and `unread` say. -/
theorem exists_scan_range (t : RangeText) :
    ∃ ts rest, Token.scan (String.ofList ('@' :: t.chars)) = .ok ts ∧
      range? ts = .done (some t.bounds) rest ∧ rest.map Token.form = t.unread ++ [Form.eof] := by
  have hsign : Lexeme.next ('@' :: t.chars) = ⟨.token .atSign "@", ['@'], t.chars⟩ := rfl
  obtain ⟨ts, hscan, hts⟩ := Token.scan_of_reads (.token hsign t.reads_chars)
  obtain ⟨at_, ts, rfl, hat, hts⟩ := List.map_eq_cons_iff.1 hts
  obtain ⟨w, last, rfl, hw, hlast⟩ := List.map_eq_append_iff.1 hts
  obtain ⟨e, rfl, he⟩ := List.map_eq_singleton_iff.1 hlast
  have hfront : Front t.forms (w ++ [e]) [e] := ⟨w, rfl, hw⟩
  have heof : TokenStream.current [e] = e := rfl
  obtain ⟨mid, hrange, u, rfl, hu⟩ := numberRange_of_rangeText t hfront (List.cons_ne_nil e [])
    (by rw [heof, kind_of_form he]; rfl)
  refine ⟨_, _, hscan, range?_cons (by rw [kind_of_form hat]) (by simp) hrange, ?_⟩
  rw [List.map_append, hu, List.map_singleton, he]

/-- The text of a range behind an at sign is always scanned and parsed. All of it is consumed, and the
range is what the text means, just if the text is understood. -/
theorem rangeText_means_iff (t : RangeText) :
    ∃ ts, Token.scan (String.ofList ('@' :: t.chars)) = .ok ts ∧
      (∃ rest, range? ts = .done (some t.bounds) rest ∧
        rest.map Token.form = t.unread ++ [Form.eof]) ∧
      ((∃ r rest, range? ts = .done (some r) rest ∧ rest.map Token.form = [Form.eof] ∧ t.Means r) ↔
        t.isUnderstood = true) := by
  obtain ⟨ts, rest, hscan, hrange, hrest⟩ := exists_scan_range t
  refine ⟨ts, hscan, ⟨rest, hrange, hrest⟩, ?_⟩
  rw [isUnderstood_iff]
  constructor
  · rintro ⟨r, rest', hrange', hrest', hmeans⟩
    rw [hrange] at hrange'
    cases hrange'
    rw [hrest'] at hrest
    exact ⟨List.self_eq_append_left.1 hrest, hmeans⟩
  · rintro ⟨hunread, hmeans⟩
    rw [hunread, List.nil_append] at hrest
    exact ⟨t.bounds, rest, hrange, hrest, hmeans⟩

def digitNumeral (c : Char) (h : Text.isDecimal c = true) : Numeral where
  sign := []
  whole := [c]
  fraction := none
  exponent := none
  isSign := .inl rfl
  whole_ne_nil := List.cons_ne_nil c []
  whole_isDecimal := fun _ hd => List.mem_singleton.1 hd ▸ h
  fraction_isDecimal := Number.isDecimal_of_mem_none

/-- One text of each form that is not understood: a number alone has no upper bound, and behind the
others something is left. -/
theorem ranges_not_understood :
    (∃ ts rest, Token.scan "@5" = .ok ts ∧
      range? ts = .done (some ⟨some 5, none, false, false⟩) rest ∧ rest.length = 1) ∧
    (∃ ts rest, Token.scan "@..5" = .ok ts ∧
      range? ts = .done (some ⟨none, none, false, false⟩) rest ∧ rest.length = 3) ∧
    (∃ ts rest, Token.scan "@5<..6" = .ok ts ∧
      range? ts = .done (some ⟨some 5, none, false, false⟩) rest ∧ rest.length = 3) ∧
    (∃ ts rest, Token.scan "@5<.." = .ok ts ∧
      range? ts = .done (some ⟨some 5, none, false, false⟩) rest ∧ rest.length = 2) := by
  let five := digitNumeral '5' (by decide)
  let six := digitNumeral '6' (by decide)
  have hfive : five.value = 5 := by decide
  have hlength : ∀ {t : RangeText} {rest : TokenStream},
      rest.map Token.form = t.unread ++ [Form.eof] → rest.length = t.unread.length + 1 := by
    intro t rest h
    simpa using congrArg List.length h
  refine ⟨?_, ?_, ?_, ?_⟩
  · obtain ⟨ts, rest, hscan, hrange, hrest⟩ := exists_scan_range (exactly five)
    exact ⟨ts, rest, hscan, by rw [hrange, bounds, hfive], hlength hrest⟩
  · obtain ⟨ts, rest, hscan, hrange, hrest⟩ := exists_scan_range (atMost ⟨false, false⟩ five)
    exact ⟨ts, rest, hscan, hrange, hlength hrest⟩
  · obtain ⟨ts, rest, hscan, hrange, hrest⟩ := exists_scan_range (between five ⟨true, false⟩ six)
    exact ⟨ts, rest, hscan, by rw [hrange, ← hfive]; rfl, hlength hrest⟩
  · obtain ⟨ts, rest, hscan, hrange, hrest⟩ := exists_scan_range (atLeast five ⟨true, false⟩)
    exact ⟨ts, rest, hscan, by rw [hrange, ← hfive]; rfl, hlength hrest⟩

end Parse

end McdocSchema
