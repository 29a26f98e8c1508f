import McdocSchema.Declaration
import McdocSchema.Proofs.NumberText
import McdocSchema.Proofs.Writing

/-!
# Printing documents

A printer for documents: the tokens of every node, written as a text. A union stands between
parentheses wherever it occurs, every item of a list has a comma behind it, and every member of a body
and every declaration ends its line. `Document.IsPrintable` says which documents can be printed; what is
printed for them is writable, so that the scanner reads the printed tokens.
-/

namespace McdocSchema

open Number (Binary64)

/-! ## Names and paths -/

namespace Lexeme

open Text

variable {s : String}

/-- Whether the text is an identifier: a word that is no keyword, or a word with a percent sign that
is no special key. -/
def isName (s : String) : Bool :=
  match s.toList with
  | [] => false
  | c :: cs =>
    cs.all isNameChar &&
      (isNameStart c && kindIn keywords s == .identifier ||
        c == '%' && kindIn specialKeys s == .identifier)

/-- Whether the text can stand between the brackets of an index: an identifier or a special key. -/
def isKey (s : String) : Bool :=
  isName s || (specialKeys.map Prod.fst).contains s

theorem isName_iff :
    isName s = true ↔ ∃ c cs, s.toList = c :: cs ∧ (∀ d ∈ cs, isNameChar d = true) ∧
      (isNameStart c = true ∧ kindIn keywords s = .identifier ∨
        c = '%' ∧ kindIn specialKeys s = .identifier) := by
  unfold isName
  split
  · next hs => simp [hs]
  · next c cs hs => simp [hs, and_assoc]

theorem spells_of_isName (h : isName s = true) : Spells s.toList .identifier s := by
  obtain ⟨c, cs, hs, hall, hk⟩ := isName_iff.1 h
  have hcs : String.ofList (c :: cs) = s := by rw [← hs, String.ofList_toList]
  rcases hk with ⟨hc, hk⟩ | ⟨rfl, hk⟩
  · have hword := Spells.word hc hall
    rwa [hcs, hk, ← hs] at hword
  · have hkey := Spells.key hall
    rwa [hcs, hk, ← hs] at hkey

theorem kindIn_specialKeys_of_isName (h : isName s = true) :
    kindIn specialKeys s = .identifier := by
  obtain ⟨c, cs, hs, -, ⟨hc, -⟩ | ⟨-, hk⟩⟩ := isName_iff.1 h
  · have hall : ∀ e ∈ specialKeys, e.1.toList.head? = some '%' := by decide
    have hnone : specialKeys.lookup s = none := by
      rw [List.lookup_eq_none_iff]
      intro e he
      rw [bne_iff_ne]
      rintro rfl
      have hhead := hall e he
      rw [hs, List.head?_cons, Option.some.injEq] at hhead
      rw [hhead] at hc
      exact absurd hc (by decide)
    rw [kindIn, hnone]
    rfl
  · exact hk

theorem spells_of_mem_specialKeys (h : s ∈ specialKeys.map Prod.fst) :
    Spells s.toList (kindIn specialKeys s) s ∧ (kindIn specialKeys s).isSpecialKey = true := by
  have hall : ∀ s ∈ specialKeys.map Prod.fst, s.toList.head? = some '%' ∧
      s.toList.tail.all isNameChar = true ∧ (kindIn specialKeys s).isSpecialKey = true := by decide
  obtain ⟨hhead, htail, hk⟩ := hall s h
  have hs : s.toList = '%' :: s.toList.tail := (List.cons_head?_tail hhead).symm
  have hkey := Spells.key (List.all_eq_true.1 htail)
  rw [← hs, String.ofList_toList] at hkey
  exact ⟨hkey, hk⟩

theorem spells_of_isKey (h : isKey s = true) :
    Spells s.toList (kindIn specialKeys s) s ∧
      (kindIn specialKeys s = .identifier ∨ (kindIn specialKeys s).isSpecialKey = true) := by
  rw [isKey, Bool.or_eq_true, List.contains_iff_mem] at h
  rcases h with h | h
  · have hk := kindIn_specialKeys_of_isName h
    rw [hk]
    exact ⟨spells_of_isName h, .inl rfl⟩
  · have hs := spells_of_mem_specialKeys h
    exact ⟨hs.1, .inr hs.2⟩

theorem spells_keyword (h : s ∈ keywords.map Prod.fst) :
    Spells s.toList (kindIn keywords s) s := by
  have hall : ∀ s ∈ keywords.map Prod.fst, ∃ c ∈ s.toList.head?, isNameStart c = true ∧
      s.toList.tail.all isNameChar = true := by
    intro s hs
    fin_cases hs <;> exact ⟨_, rfl, by decide, by decide⟩
  obtain ⟨c, hhead, hc, htail⟩ := hall s h
  have hs : s.toList = c :: s.toList.tail := (List.cons_head?_tail hhead).symm
  have hword := Spells.word hc (List.all_eq_true.1 htail)
  rwa [← hs, String.ofList_toList] at hword

/-- A name has name characters only, and perhaps a percent sign. -/
theorem ne_of_isName {x : Char} (h : isName s = true) (hstart : isNameStart x = false)
    (hchar : isNameChar x = false) (hx : x ≠ '%') : ∀ c ∈ s.toList, c ≠ x := by
  obtain ⟨c, cs, hs, hall, hc⟩ := isName_iff.1 h
  rw [hs]
  intro d hd
  rcases List.mem_cons.1 hd with rfl | hd
  · rcases hc with ⟨hc, -⟩ | ⟨rfl, -⟩
    · exact ne_of_holds hc hstart
    · exact hx.symm
  · exact ne_of_holds (hall d hd) hchar

end Lexeme

/-- The parts of a text between double colons. -/
def splitPath : List Char → List (List Char)
  | [] => [[]]
  | ':' :: ':' :: cs => [] :: splitPath cs
  | c :: cs =>
    match splitPath cs with
    | [] => [[c]]
    | n :: ns => (c :: n) :: ns

def pathNames (path : String) : List String :=
  (splitPath path.toList).map String.ofList

theorem splitPath_cons {c : Char} {cs n : List Char} {ns : List (List Char)} (hc : c ≠ ':')
    (h : splitPath cs = n :: ns) : splitPath (c :: cs) = (c :: n) :: ns := by
  unfold splitPath
  split
  · next heq => exact absurd heq (by simp)
  · next heq => exact absurd (List.head_eq_of_cons_eq heq) hc
  · next heq =>
    cases heq
    rw [h]

theorem splitPath_append {n cs m : List Char} {ns : List (List Char)} (hn : ∀ c ∈ n, c ≠ ':')
    (h : splitPath cs = m :: ns) : splitPath (n ++ cs) = (n ++ m) :: ns := by
  induction n with
  | nil => exact h
  | cons c n ih =>
    have ih := ih fun d hd => hn d (List.mem_cons_of_mem c hd)
    exact splitPath_cons (hn c List.mem_cons_self) ih

theorem splitPath_intercalate {n : List Char} {ns : List (List Char)}
    (h : ∀ m ∈ n :: ns, ∀ c ∈ m, c ≠ ':') :
    splitPath ([':', ':'].intercalate (n :: ns)) = n :: ns := by
  induction ns generalizing n with
  | nil =>
    have hnil : splitPath [] = [[]] := rfl
    have hn := splitPath_append (h n List.mem_cons_self) hnil
    simpa using hn
  | cons m ns ih =>
    have ih := ih fun l hl => h l (List.mem_cons_of_mem n hl)
    have hcolons : splitPath (':' :: ':' :: [':', ':'].intercalate (m :: ns)) = [] :: m :: ns := by
      rw [splitPath, ih]
    have hn := splitPath_append (h n List.mem_cons_self) hcolons
    simpa [List.intercalate] using hn

theorem pathNames_intercalate {names : List String} (hne : names ≠ [])
    (h : ∀ n ∈ names, Lexeme.isName n = true) : pathNames ("::".intercalate names) = names := by
  obtain ⟨n, ns, rfl⟩ := List.exists_cons_of_ne_nil hne
  have hchars : ∀ m ∈ (n :: ns).map String.toList, ∀ c ∈ m, c ≠ ':' := by
    intro m hm
    obtain ⟨s, hs, rfl⟩ := List.mem_map.1 hm
    exact Lexeme.ne_of_isName (h s hs) (by decide) (by decide) (by decide)
  have hcolons : "::".toList = [':', ':'] := by decide
  rw [pathNames, String.toList_intercalate, hcolons, List.map_cons, splitPath_intercalate hchars,
    ← List.map_cons, List.map_map]
  simp [Function.comp_def]

/-! ## Forms of tokens -/

namespace Form

open Lexeme

def symbol (k : Token.Kind) : Form :=
  ⟨k, String.ofList (((symbols.find? (·.2 == k)).map Prod.fst).getD [])⟩

def keyword (s : String) : Form := ⟨kindIn keywords s, s⟩

def name (s : String) : Form := ⟨.identifier, s⟩

/-- A key between brackets. -/
def key (s : String) : Form := ⟨kindIn specialKeys s, s⟩

/-- A bound of a range. -/
def bound (x : Binary64) : Form := ⟨.float, x.boundText⟩

def integer (n : Int) : Form := ⟨.integer, Number.intText n⟩

/-- A documentation comment on a line of its own, if there is one. -/
def docLine : Option String → List Form
  | none => []
  | some s => [⟨.docComment, s⟩, newline]

/-- Items between an opening and a closing symbol, or nothing if there are no items. -/
def enclose (opening close : Token.Kind) (items : List Form) : List Form :=
  if items.isEmpty then [] else symbol opening :: items ++ [symbol close]

/-- Names with commas behind them. -/
def names (ss : List String) : List Form :=
  ss.flatMap fun s => [name s, symbol .comma]

/-- Whether the lexemes of tokens of the kind are their values. -/
def isPlain (k : Token.Kind) : Bool :=
  k != .string && k != .docComment && k != .newline

theorem Writable.plain {f : Form} {fs : List Form} (hk : isPlain f.kind = true)
    (hf : Spells f.value.toList f.kind f.value) (h : Writable fs) : Writable (f :: fs) := by
  have hlexeme : f.lexeme = f.value.toList := by
    unfold lexeme
    split
    · next hs =>
      rw [hs] at hk
      cases hk
    · next hs =>
      rw [hs] at hk
      cases hk
    · next hs =>
      rw [hs] at hk
      cases hk
    · rfl
  have hspelled : f.IsSpelled := by rwa [IsSpelled, hlexeme]
  have hdoc : f.kind ≠ .docComment := by
    intro hs
    rw [hs] at hk
    cases hk
  exact .cons hspelled hdoc h

variable {fs : List Form}

theorem Writable.symbol {k : Token.Kind} (hk : k ∈ symbols.map Prod.snd) (h : Writable fs) :
    Writable (symbol k :: fs) := by
  have hplain : ∀ k ∈ symbols.map Prod.snd, isPlain k = true := by decide
  refine .plain (hplain k hk) ?_ h
  have hfind : (symbols.find? (·.2 == k)).isSome = true := by
    obtain ⟨e, he, rfl⟩ := List.mem_map.1 hk
    rw [List.find?_isSome]
    exact ⟨e, he, by simp⟩
  obtain ⟨e, he⟩ := Option.isSome_iff_exists.1 hfind
  have hek : e.2 = k := by simpa using List.find?_some he
  have hmem : (e.1, e.2) ∈ symbols := List.mem_of_find?_eq_some he
  have hspells := Spells.symbol hmem
  rw [Form.symbol, he]
  simpa [hek] using hspells

theorem Writable.keyword {s : String} (hs : s ∈ keywords.map Prod.fst) (h : Writable fs) :
    Writable (keyword s :: fs) := by
  have hplain : ∀ s ∈ keywords.map Prod.fst, isPlain (kindIn keywords s) = true := by decide
  exact .plain (hplain s hs) (spells_keyword hs) h

theorem Writable.name {s : String} (hs : isName s = true) (h : Writable fs) :
    Writable (name s :: fs) :=
  .plain rfl (spells_of_isName hs) h

theorem Writable.key {s : String} (hs : isKey s = true) (h : Writable fs) :
    Writable (key s :: fs) := by
  obtain ⟨hspells, hk⟩ := spells_of_isKey hs
  refine .plain ?_ hspells h
  show isPlain (kindIn specialKeys s) = true
  rcases hk with hk | hk
  · rw [hk]
    rfl
  · revert hk
    cases kindIn specialKeys s <;> decide

theorem Writable.bound (x : Binary64) (h : Writable fs) : Writable (bound x :: fs) :=
  .plain rfl (Number.spells_boundText x) h

theorem Writable.integer (n : Int) (h : Writable fs) : Writable (integer n :: fs) :=
  .plain rfl (Number.spells_intText n) h

theorem Writable.newline (h : Writable fs) : Writable (newline :: fs) :=
  .cons isSpelled_newline (by decide) h

theorem Writable.docLine {doc : Option String} (hd : ∀ s ∈ doc, IsLine s) :
    Writable (docLine doc) := by
  cases doc with
  | none => exact .nil
  | some s => exact .doc (isSpelled_docComment (hd s rfl)) rfl .nil

theorem Writable.enclose {opening close : Token.Kind} {items : List Form}
    (ho : opening ∈ symbols.map Prod.snd) (hc : close ∈ symbols.map Prod.snd)
    (h : Writable items) : Writable (enclose opening close items) := by
  unfold Form.enclose
  split
  · exact .nil
  · exact .symbol ho (h.append (.symbol hc .nil))

theorem Writable.names {ss : List String} (hs : ∀ s ∈ ss, isName s = true) :
    Writable (names ss) :=
  .flatMap fun s hmem => .name (hs s hmem) (.symbol (by decide) .nil)

end Form

/-! ## Ranges -/

namespace NumberRange

open Form

/-- The tokens of an upper bound, if there is one. -/
def maxForms : Option Binary64 → List Form
  | none => []
  | some x => [bound x]

/-- The tokens of a range behind its at sign. -/
def forms (range : NumberRange) : List Form :=
  match range.min with
  | some x =>
    bound x :: symbol (if range.maxExclusive then .rangeExclusive else .range) :: maxForms range.max
  | none =>
    if range.minExclusive then
      symbol (if range.maxExclusive then .exclusiveRangeExclusive else .exclusiveRange)
        :: maxForms range.max
    else []

/-- A range that can be written: a lower bound is inclusive; without one there is a delimiter that
starts with an angle, or nothing at all. The bounds are numbers with lexemes. -/
structure IsPrintable (range : NumberRange) : Prop where
  min_isBound : ∀ x ∈ range.min, Number.IsBound x
  max_isBound : ∀ x ∈ range.max, Number.IsBound x
  minExclusive_of_min : range.min ≠ none → range.minExclusive = false
  eq_of_inclusive : range.min = none → range.minExclusive = false → range = {}

/-- The tokens of a range, if there is one. -/
def optionForms : Option NumberRange → List Form
  | none => []
  | some range => symbol .atSign :: range.forms

theorem writable_maxForms (max : Option Binary64) : Writable (maxForms max) := by
  cases max with
  | none => exact .nil
  | some x => exact .bound x .nil

theorem writable_forms (range : NumberRange) : Writable range.forms := by
  unfold forms
  split
  · refine .bound _ (.symbol ?_ (writable_maxForms _))
    split <;> decide
  · split
    · refine .symbol ?_ (writable_maxForms _)
      split <;> decide
    · exact .nil

theorem writable_optionForms (range : Option NumberRange) : Writable (optionForms range) := by
  cases range with
  | none => exact .nil
  | some range => exact .symbol (by decide) range.writable_forms

end NumberRange

/-! ## Types -/

/-- The tokens of a path. -/
def pathForms (path : String) : List Form :=
  match pathNames path with
  | [] => []
  | n :: ns => .name n :: ns.flatMap fun m => [.symbol .doubleColon, .name m]

/-- A path that can be written: names between double colons. -/
def IsPath (path : String) : Prop :=
  ∃ names : List String, names ≠ [] ∧ (∀ n ∈ names, Lexeme.isName n = true) ∧
    "::".intercalate names = path

namespace Index

/-- The tokens of an index. -/
def forms : Index → List Form
  | .key s => [.symbol .leftBracket, .key s, .symbol .rightBracket]
  | .path _ => []

/-- An index that can be written: a key. -/
def IsPrintable : Index → Prop
  | .key s => Lexeme.isKey s = true
  | .path _ => False

theorem writable_forms {i : Index} (h : i.IsPrintable) : Form.Writable i.forms := by
  cases i with
  | key s => exact .symbol (by decide) (.key h (.symbol (by decide) .nil))
  | path names => exact h.elim

end Index

namespace TypeExpr

open Form

/-- The names of the numeric types. -/
def numericNames : List String :=
  ["byte", "short", "int", "long", "float", "double"]

/-- The tokens of a literal. -/
def literalForms : Literal → List Form
  | .text s => [⟨.string, s⟩]
  | .flag b => [keyword (if b then "true" else "false")]
  | .null => []

mutual

/-- The tokens of a type. -/
def forms : TypeExpr → List Form
  | .any _ => [keyword "any"]
  | .boolean _ => [keyword "boolean"]
  | .string _ length => keyword "string" :: NumberRange.optionForms length
  | .numeric _ name range => keyword name :: NumberRange.optionForms range
  | .literal _ value _ => literalForms value
  | .list _ element size =>
    symbol .leftBracket :: (forms element ++ symbol .rightBracket :: NumberRange.optionForms size)
  | .tuple _ elements => symbol .leftParen :: (itemForms elements ++ [symbol .rightParen])
  | .union _ [] => []
  | .union _ (t :: ts) =>
    symbol .leftParen :: (forms t ++ (alternativeForms ts ++ [symbol .rightParen]))
  | .reference _ path arguments =>
    pathForms path ++ enclose .leftAngle .rightAngle (itemForms arguments)
  | .indexed _ base indices => forms base ++ indices.flatMap Index.forms
  | .primitiveArray .. | .struct .. | .enum .. | .absent | .foreign .. => []

/-- The tokens of types with commas behind them. -/
def itemForms : List TypeExpr → List Form
  | [] => []
  | t :: ts => forms t ++ symbol .comma :: itemForms ts

/-- The tokens of types with bars in front of them. -/
def alternativeForms : List TypeExpr → List Form
  | [] => []
  | t :: ts => symbol .pipe :: (forms t ++ alternativeForms ts)

end

def isReference : TypeExpr → Bool
  | .reference .. => true
  | _ => false

mutual

/-- A type that can be written. -/
def IsPrintable : TypeExpr → Prop
  | .any _ | .boolean _ => True
  | .string _ length => ∀ r ∈ length, r.IsPrintable
  | .numeric _ name range => name ∈ numericNames ∧ ∀ r ∈ range, r.IsPrintable
  | .literal _ value typeName => value ≠ .null ∧ typeName = none
  | .list _ element size => IsPrintable element ∧ ∀ r ∈ size, r.IsPrintable
  | .tuple _ elements => ArePrintable elements
  | .union _ members => 2 ≤ members.length ∧ ArePrintable members
  | .reference _ path arguments => IsPath path ∧ ArePrintable arguments
  | .indexed _ base indices =>
    base.isReference = true ∧ IsPrintable base ∧ indices ≠ [] ∧ ∀ i ∈ indices, i.IsPrintable
  | .primitiveArray .. | .struct .. | .enum .. | .absent | .foreign .. => False

/-- Types that can be written. -/
def ArePrintable : List TypeExpr → Prop
  | [] => True
  | t :: ts => IsPrintable t ∧ ArePrintable ts

end

theorem arePrintable_iff {ts : List TypeExpr} : ArePrintable ts ↔ ∀ t ∈ ts, t.IsPrintable := by
  induction ts with
  | nil => simp [ArePrintable]
  | cons t ts ih => simp [ArePrintable, ih]

theorem itemForms_eq (ts : List TypeExpr) :
    itemForms ts = ts.flatMap fun t => t.forms ++ [symbol .comma] := by
  induction ts with
  | nil => rfl
  | cons t ts ih => simp [itemForms, ih]

theorem alternativeForms_eq (ts : List TypeExpr) :
    alternativeForms ts = ts.flatMap fun t => symbol .pipe :: t.forms := by
  induction ts with
  | nil => rfl
  | cons t ts ih => simp [alternativeForms, ih]

end TypeExpr

theorem writable_pathForms {path : String} (h : IsPath path) : Form.Writable (pathForms path) := by
  obtain ⟨names, hne, hnames, rfl⟩ := h
  rw [pathForms, pathNames_intercalate hne hnames]
  obtain ⟨n, ns, rfl⟩ := List.exists_cons_of_ne_nil hne
  refine .name (hnames n List.mem_cons_self) (.flatMap fun m hm => ?_)
  exact .symbol (by decide) (.name (hnames m (List.mem_cons_of_mem n hm)) .nil)

namespace TypeExpr

open Form

mutual

theorem writable_forms : (t : TypeExpr) → t.IsPrintable → Writable t.forms
  | .any _, _ => .keyword (by decide) .nil
  | .boolean _, _ => .keyword (by decide) .nil
  | .string _ length, _ => .keyword (by decide) (NumberRange.writable_optionForms length)
  | .numeric _ name range, h => by
    have hall : ∀ s ∈ numericNames, s ∈ Lexeme.keywords.map Prod.fst := by decide
    exact .keyword (hall name h.1) (NumberRange.writable_optionForms range)
  | .literal _ (.text s) _, _ => .cons (isSpelled_string s) (by simp) .nil
  | .literal _ (.flag b) _, _ => by
    refine .keyword ?_ .nil
    cases b <;> decide
  | .literal _ .null _, h => absurd rfl h.1
  | .list _ element size, h =>
    .symbol (by decide) ((writable_forms element h.1).append
      (.symbol (by decide) (NumberRange.writable_optionForms size)))
  | .tuple _ elements, h =>
    .symbol (by decide) ((writable_itemForms elements h).append (.symbol (by decide) .nil))
  | .union _ [], _ => .nil
  | .union _ (t :: ts), h =>
    .symbol (by decide) ((writable_forms t h.2.1).append
      ((writable_alternativeForms ts h.2.2).append (.symbol (by decide) .nil)))
  | .reference _ path arguments, h =>
    (writable_pathForms h.1).append
      (.enclose (by decide) (by decide) (writable_itemForms arguments h.2))
  | .indexed _ base indices, h =>
    (writable_forms base h.2.1).append (.flatMap fun i hi => i.writable_forms (h.2.2.2 i hi))
  | .primitiveArray .., h => h.elim
  | .struct .., h => h.elim
  | .enum .., h => h.elim
  | .absent, h => h.elim
  | .foreign .., h => h.elim

theorem writable_itemForms : (ts : List TypeExpr) → ArePrintable ts → Writable (itemForms ts)
  | [], _ => .nil
  | t :: ts, h =>
    (writable_forms t h.1).append (.symbol (by decide) (writable_itemForms ts h.2))

theorem writable_alternativeForms :
    (ts : List TypeExpr) → ArePrintable ts → Writable (alternativeForms ts)
  | [], _ => .nil
  | t :: ts, h =>
    .symbol (by decide) ((writable_forms t h.1).append (writable_alternativeForms ts h.2))

end

end TypeExpr

/-! ## Declarations -/

/-- The tokens of a field. -/
def Field.forms (f : Field TypeExpr) : List Form :=
  .name f.name :: ((if f.optional then [.symbol .question] else []) ++ .symbol .colon :: f.type.forms)

/-- The tokens of a variant. -/
def Variant.forms (v : Variant) : List Form :=
  .name v.name :: match v.value with
    | none => []
    | some n => [.symbol .equals, .integer n]

/-- The tokens of a member of a body: its documentation, the member itself, a comma and a line
break. -/
def memberForms (doc : Option String) (item : List Form) : List Form :=
  Form.docLine doc ++ (item ++ [.symbol .comma, .newline])

/-- The documentation of a declaration, which only an alias has. -/
def Declaration.doc : Declaration → Option String
  | .alias decl => decl.doc
  | _ => none

/-- The tokens of a declaration between its documentation and the end of its line. -/
def Declaration.bareForms : Declaration → List Form
  | .alias decl =>
    .keyword "type" :: .name decl.name ::
      (Form.enclose .leftAngle .rightAngle (Form.names decl.parameters) ++
        .symbol .equals :: decl.target.forms)
  | .anonymous (.struct _ fields spreads) =>
    .keyword "struct" :: .symbol .leftBrace ::
      (fields.flatMap (fun f => memberForms f.doc f.forms) ++
        (spreads.flatMap (fun t => memberForms none (.symbol .ellipsis :: t.forms)) ++
          [.symbol .rightBrace]))
  | .anonymous (.enum _ variants) =>
    .keyword "enum" :: .symbol .leftBrace ::
      (variants.flatMap (fun v => memberForms v.doc v.forms) ++ [.symbol .rightBrace])
  | .dispatch _ dispatcher indices target =>
    .keyword "dispatch" :: .name dispatcher ::
      (Form.enclose .leftBracket .rightBracket (Form.names indices) ++
        .keyword "to" :: target.forms)
  | .anonymous _ | .use .. | .injection .. => []

/-- The tokens of a declaration. -/
def Declaration.forms (decl : Declaration) : List Form :=
  Form.docLine decl.doc ++ (decl.bareForms ++ [.newline])

/-- The text of a document. -/
def Document.print (doc : Document) : String :=
  String.ofList (Form.write (doc.declarations.flatMap Declaration.forms))

/-- A field that can be written. -/
structure Field.IsPrintable (f : Field TypeExpr) : Prop where
  isName_name : Lexeme.isName f.name = true
  isPrintable_type : f.type.IsPrintable
  isLine_doc : ∀ s ∈ f.doc, Form.IsLine s

/-- A variant that can be written. Its value has no more digits than are read. -/
structure Variant.IsPrintable (v : Variant) : Prop where
  isName_name : Lexeme.isName v.name = true
  length_value : ∀ n ∈ v.value, (Number.natDigits n.natAbs).length ≤ Number.maxDigits
  isLine_doc : ∀ s ∈ v.doc, Form.IsLine s

/-- An alias that can be written. Its documentation, if there is any, is not empty. -/
structure Alias.IsPrintable (decl : Alias) : Prop where
  isName_name : Lexeme.isName decl.name = true
  isName_parameters : ∀ s ∈ decl.parameters, Lexeme.isName s = true
  isPrintable_target : decl.target.IsPrintable
  isLine_doc : ∀ s ∈ decl.doc, Form.IsLine s ∧ s ≠ ""

/-- A declaration that can be written. -/
def Declaration.IsPrintable : Declaration → Prop
  | .alias decl => decl.IsPrintable
  | .anonymous (.struct _ fields spreads) =>
    (∀ f ∈ fields, f.IsPrintable) ∧ ∀ t ∈ spreads, t.IsPrintable
  | .anonymous (.enum _ variants) => ∀ v ∈ variants, v.IsPrintable
  | .dispatch _ dispatcher indices target =>
    Lexeme.isName dispatcher = true ∧ (∀ s ∈ indices, Lexeme.isName s = true) ∧
      target.IsPrintable
  | .anonymous _ | .use .. | .injection .. => False

/-- A document that can be written. -/
structure Document.IsPrintable (doc : Document) : Prop where
  declarations : ∀ decl ∈ doc.declarations, decl.IsPrintable
  docs : doc.docs = []

open Form

theorem Field.writable_forms {f : Field TypeExpr} (h : f.IsPrintable) : Writable f.forms := by
  have hoptional : Writable (if f.optional then [symbol .question] else []) := by
    split
    · exact .symbol (by decide) .nil
    · exact .nil
  exact .name h.isName_name
    (hoptional.append (.symbol (by decide) (f.type.writable_forms h.isPrintable_type)))

theorem Variant.writable_forms {v : Variant} (h : v.IsPrintable) : Writable v.forms := by
  refine .name h.isName_name ?_
  cases v.value with
  | none => exact .nil
  | some n => exact .symbol (by decide) (.integer n .nil)

theorem writable_memberForms {doc : Option String} {item : List Form}
    (hd : ∀ s ∈ doc, IsLine s) (h : Writable item) : Writable (memberForms doc item) :=
  (Writable.docLine hd).append (h.append (.symbol (by decide) (.newline .nil)))

theorem Declaration.writable_bareForms {decl : Declaration} (h : decl.IsPrintable) :
    Writable decl.bareForms := by
  cases decl with
  | «alias» decl =>
    refine .keyword (by decide) (.name h.isName_name ?_)
    refine (Writable.enclose (by decide) (by decide) (.names h.isName_parameters)).append ?_
    exact .symbol (by decide) (decl.target.writable_forms h.isPrintable_target)
  | anonymous type =>
    cases type with
    | struct pos fields spreads =>
      refine .keyword (by decide) (.symbol (by decide) ?_)
      refine (Writable.flatMap fun f hf => ?_).append ((Writable.flatMap fun t ht => ?_).append
        (.symbol (by decide) .nil))
      · exact writable_memberForms (h.1 f hf).isLine_doc (Field.writable_forms (h.1 f hf))
      · exact writable_memberForms (by simp) (.symbol (by decide) (t.writable_forms (h.2 t ht)))
    | enum pos variants =>
      refine .keyword (by decide) (.symbol (by decide) ?_)
      refine (Writable.flatMap fun v hv => ?_).append (.symbol (by decide) .nil)
      exact writable_memberForms (h v hv).isLine_doc (Variant.writable_forms (h v hv))
    | _ => exact False.elim h
  | dispatch pos dispatcher indices target =>
    refine .keyword (by decide) (.name h.1 ?_)
    refine (Writable.enclose (by decide) (by decide) (.names h.2.1)).append ?_
    exact .keyword (by decide) (target.writable_forms h.2.2)
  | use pos path name => exact False.elim h
  | injection pos path fields => exact False.elim h

theorem Declaration.isLine_doc {decl : Declaration} (h : decl.IsPrintable) :
    ∀ s ∈ decl.doc, IsLine s ∧ s ≠ "" := by
  cases decl with
  | «alias» decl => exact h.isLine_doc
  | _ => simp [Declaration.doc]

theorem Declaration.writable_forms {decl : Declaration} (h : decl.IsPrintable) :
    Writable decl.forms :=
  (Writable.docLine fun s hs => (isLine_doc h s hs).1).append
    ((writable_bareForms h).append (.newline .nil))

/-- A printed document is scanned to the tokens that were printed. -/
theorem Document.scan_print {doc : Document} (h : doc.IsPrintable) :
    ∃ ts, Token.scan doc.print = .ok ts ∧
      ts.map Token.form = doc.declarations.flatMap Declaration.forms ++ [eof] :=
  Token.scan_write (.flatMap fun decl hd => decl.writable_forms (h.declarations decl hd))

end McdocSchema
