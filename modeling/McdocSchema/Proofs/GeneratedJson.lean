import McdocSchema.Proofs.CompiledShape
import McdocSchema.Proofs.Concatenation
import McdocSchema.Proofs.JsonText

/-!
# The text of a generated schema

What is written for the schema of a text is read back as that schema, and it belongs to the grammar of
JSON just if all the bounds in the schema are finite. Both facts are about the numbers in a schema, so that
the induction over the type is made once, for every property of values that is put together from their
parts.
-/

namespace McdocSchema

open Number (Binary64)

/-- A property of values that strings and words have, and that arrays and objects take from their parts. -/
structure Json.IsCompositional (Q : Json → Prop) : Prop where
  null : Q .null
  bool : ∀ b, Q (.bool b)
  string : ∀ s, Q (.string s)
  array : ∀ items, (∀ v ∈ items, Q v) → Q (.array items)
  object : ∀ fields : Fields Json, (fields.map Prod.fst).Nodup → (∀ f ∈ fields, Q f.2) →
    Q (.object fields)

def NumberRange.bounds (range : NumberRange) : List Binary64 :=
  range.min.toList ++ range.max.toList

namespace Schema

variable {Q : Json → Prop}

/-! ## Fields for ranges -/

theorem boundField_spec {key : String} {bound : Option Binary64} {fields : Fields Json}
    (h : boundField key bound = .ok fields) : List.Sublist (fields.map Prod.fst) [key] ∧
      ∀ f ∈ fields, ∃ x ∈ bound.toList, lengthBound x = .ok f.2 := by
  cases bound with
  | none =>
    cases h
    simp
  | some x =>
    rw [boundField] at h
    cases hx : lengthBound x with
    | error fault =>
      rw [hx] at h
      cases h
    | ok n =>
      rw [hx] at h
      cases h
      simpa using hx

/-- The fields for a range of lengths have different keys, and the values of its bounds. -/
theorem lengthFields_spec {minKey maxKey : String} {range : Option NumberRange} {fields : Fields Json}
    (h : lengthFields minKey maxKey range = .ok fields) :
    List.Sublist (fields.map Prod.fst) [minKey, maxKey] ∧
      ∀ f ∈ fields, ∃ r ∈ range, ∃ x ∈ r.bounds, lengthBound x = .ok f.2 := by
  cases range with
  | none =>
    cases h
    simp
  | some r =>
    obtain ⟨low, hlow, h⟩ := bind_eq_ok_iff.1 h
    obtain ⟨high, hhigh, h⟩ := bind_eq_ok_iff.1 h
    cases h
    obtain ⟨hlowKeys, hlow⟩ := boundField_spec hlow
    obtain ⟨hhighKeys, hhigh⟩ := boundField_spec hhigh
    refine ⟨?_, fun f hf => ⟨r, rfl, ?_⟩⟩
    · rw [List.map_append]
      exact hlowKeys.append hhighKeys
    · rcases List.mem_append.1 hf with hf | hf
      · obtain ⟨x, hx, hbound⟩ := hlow f hf
        exact ⟨x, List.mem_append_left _ hx, hbound⟩
      · obtain ⟨x, hx, hbound⟩ := hhigh f hf
        exact ⟨x, List.mem_append_right _ hx, hbound⟩

/-- The fields for a range of numbers have different keys, none of them that of the type, and the bounds
as values. -/
theorem numberFields_spec {range : Option NumberRange} :
    ("type" :: (numberFields range).map Prod.fst).Nodup ∧
      ∀ f ∈ numberFields range, ∃ r ∈ range, ∃ x ∈ r.bounds, f.2 = .real x := by
  cases range with
  | none => simp [numberFields]
  | some r =>
    obtain ⟨low, high, lowExclusive, highExclusive⟩ := r
    refine ⟨?_, ?_⟩
    · cases low <;> cases high <;> cases lowExclusive <;> cases highExclusive <;>
        simp [numberFields, numberField]
    · cases low <;> cases high <;> simp [numberFields, numberField, NumberRange.bounds]

/-! ## Objects with different keys -/

theorem holds_strings (hQ : Json.IsCompositional Q) (texts : List String) : Q (.strings texts) := by
  refine hQ.array _ fun v hv => ?_
  obtain ⟨s, -, rfl⟩ := List.mem_map.1 hv
  exact hQ.string s

theorem requiredField_spec (hQ : Json.IsCompositional Q) (names : List String) :
    List.Sublist ((requiredField names).map Prod.fst) ["required"] ∧
      ∀ f ∈ requiredField names, Q f.2 := by
  rw [requiredField]
  split
  · simp
  · simpa using holds_strings hQ names

theorem nodup_ofList {α : Type} (pairs : List (String × α)) :
    ((Fields.ofList pairs).map Prod.fst).Nodup := by
  induction pairs using List.reverseRecOn with
  | nil => exact List.nodup_nil
  | append_singleton pairs pair ih =>
    rw [Fields.ofList, List.foldl_append]
    exact Fields.nodup_set ih _ _

/-- Fields that are always there, and behind them some of those with the given keys. -/
theorem holds_append (hQ : Json.IsCompositional Q) {front back : Fields Json} {keys : List String}
    (hkeys : List.Sublist (back.map Prod.fst) keys) (hnodup : (front.map Prod.fst ++ keys).Nodup)
    (hfront : ∀ f ∈ front, Q f.2) (hback : ∀ f ∈ back, Q f.2) : Q (.object (front ++ back)) := by
  refine hQ.object _ ?_ (List.forall_mem_append.2 ⟨hfront, hback⟩)
  rw [List.map_append]
  exact hnodup.sublist (hkeys.append_left _)

theorem holds_structSchema (hQ : Json.IsCompositional Q) {properties : Json} (h : Q properties)
    (names : List String) : Q (structSchema properties names) := by
  obtain ⟨hkeys, hvalues⟩ := requiredField_spec hQ names
  refine holds_append hQ hkeys (by simp) ?_ hvalues
  simpa using ⟨hQ.string "object", h, hQ.bool false⟩

theorem holds_spreadSchema (hQ : Json.IsCompositional Q) {properties : Json} (h : Q properties)
    (names : List String) {spreads : List Json} (hspreads : ∀ s ∈ spreads, Q s) :
    Q (spreadSchema properties names spreads) := by
  obtain ⟨hkeys, hvalues⟩ := requiredField_spec hQ names
  refine hQ.object _ (by simp) (List.forall_mem_singleton.2 ?_)
  refine hQ.array _ (List.forall_mem_cons.2 ⟨?_, hspreads⟩)
  refine holds_append hQ hkeys (by simp) ?_ hvalues
  simpa using ⟨hQ.string "object", h⟩

theorem holds_enumSchema (hQ : Json.IsCompositional Q) {variants : List Variant}
    (h : ∀ v ∈ variants, ∀ n ∈ v.value, Q (.int n)) : Q (enumSchema variants) := by
  refine hQ.object _ (by simp) (List.forall_mem_singleton.2 (hQ.array _ ?_))
  split
  · intro v hv
    obtain ⟨n, hn, rfl⟩ := List.mem_map.1 hv
    obtain ⟨variant, hvariant, hvalue⟩ := List.mem_filterMap.1 hn
    exact h variant hvariant n hvalue
  · intro v hv
    obtain ⟨variant, -, rfl⟩ := List.mem_map.1 hv
    exact hQ.string _

end Schema

/-! ## Schemas of types -/

namespace TypeExpr

open Schema

variable {Q : Json → Prop} {t : TypeExpr} {s : Json}

/-- The property holds of the numbers that a type brings into its schema, those of its parts left out. -/
def NumbersHold (Q : Json → Prop) : TypeExpr → Prop
  | .string _ range | .list _ _ range =>
    ∀ r ∈ range, ∀ x ∈ r.bounds, ∀ n, lengthBound x = .ok n → Q n
  | .numeric _ _ range => ∀ r ∈ range, ∀ x ∈ r.bounds, Q (.real x)
  | .enum _ variants => ∀ v ∈ variants, ∀ n ∈ v.value, Q (.int n)
  | _ => True

/-- A property that is put together from the parts of a value holds of the schema of a type if it holds of
the numbers in it. -/
theorem holds_toSchema (hQ : Json.IsCompositional Q)
    (hnumbers : ∀ u : TypeExpr, u.OccursIn t → u.NumbersHold Q) (h : t.toSchema = .ok s) : Q s := by
  induction t using induction_on_parts generalizing s with
  | step t ih =>
    have hpart : ∀ u ∈ t.parts, ∀ s, u.toSchema = .ok s → Q s :=
      fun u hu s hs => ih u hu (fun v hv => hnumbers v (hv.tail hu)) hs
    have hparts : ∀ {ts schemas}, toSchemas ts = .ok schemas → ts ⊆ t.parts → ∀ s ∈ schemas, Q s := by
      intro ts schemas hschemas hsub s hs
      obtain ⟨u, hu, hschema⟩ := mem_toSchemas hschemas s hs
      exact hpart u (hsub hu) s hschema
    have hself : t.NumbersHold Q := hnumbers t .refl
    have hsingle : ∀ {key v}, Q v → Q (.object [(key, v)]) :=
      fun hv => hQ.object _ (by simp) (List.forall_mem_singleton.2 hv)
    have hempty : Q (.object []) := hQ.object [] List.nodup_nil (by simp)
    cases t with
    | any | primitiveArray | absent | foreign =>
      cases h
      exact hempty
    | boolean =>
      cases h
      exact hsingle (hQ.string _)
    | string pos length =>
      obtain ⟨bounds, hbounds, h⟩ := bind_eq_ok_iff.1 h
      cases h
      obtain ⟨hkeys, hvalues⟩ := lengthFields_spec hbounds
      refine @holds_append _ hQ [("type", .string "string")] _ _ hkeys (by decide)
        (List.forall_mem_singleton.2 (hQ.string _)) fun f hf => ?_
      obtain ⟨r, hr, x, hx, hbound⟩ := hvalues f hf
      exact hself r hr x hx _ hbound
    | numeric pos name range =>
      cases h
      obtain ⟨hkeys, hvalues⟩ := @numberFields_spec range
      refine hQ.object _ hkeys (List.forall_mem_cons.2 ⟨hQ.string _, fun f hf => ?_⟩)
      obtain ⟨r, hr, x, hx, hbound⟩ := hvalues f hf
      rw [hbound]
      exact hself r hr x hx
    | literal pos value typeName =>
      cases h
      refine hsingle ?_
      cases value with
      | text s => exact hQ.string s
      | flag b => exact hQ.bool b
      | null => exact hQ.null
    | list pos element size =>
      obtain ⟨items, hitems, h⟩ := bind_eq_ok_iff.1 h
      obtain ⟨bounds, hbounds, h⟩ := bind_eq_ok_iff.1 h
      cases h
      obtain ⟨hkeys, hvalues⟩ := lengthFields_spec hbounds
      have hitem := hpart element List.mem_cons_self items hitems
      refine holds_append hQ hkeys (by simp) (by simpa using ⟨hQ.string "array", hitem⟩)
        fun f hf => ?_
      obtain ⟨r, hr, x, hx, hbound⟩ := hvalues f hf
      exact hself r hr x hx _ hbound
    | tuple pos elements =>
      obtain ⟨items, hitems, h⟩ := bind_eq_ok_iff.1 h
      cases h
      have hitem := hQ.array items (hparts hitems (List.Subset.refl _))
      exact hQ.object _ (by simp) (by simpa using ⟨hQ.string "array", hitem, hQ.bool false⟩)
    | union pos members =>
      obtain ⟨alternatives, halternatives, h⟩ := bind_eq_ok_iff.1 h
      cases h
      exact hsingle (hQ.array _ (hparts halternatives (List.Subset.refl _)))
    | struct pos fields spreads =>
      obtain ⟨properties, hproperties, h⟩ := bind_eq_ok_iff.1 h
      obtain ⟨others, hothers, h⟩ := bind_eq_ok_iff.1 h
      -- A name that is used again keeps its place, so that no key stands there twice.
      have hfields : Q (.object (Fields.ofList properties)) := by
        refine hQ.object _ (nodup_ofList properties) fun p hp => ?_
        obtain ⟨u, hu, hschema⟩ := mem_fieldSchemas hproperties p (mem_ofList hp)
        exact hpart u (List.mem_append_left _ hu) _ hschema
      cases spreads with
      | nil =>
        cases h
        exact holds_structSchema hQ hfields _
      | cons spread spreads =>
        cases h
        exact holds_spreadSchema hQ hfields _ (hparts hothers (List.subset_append_right _ _))
    | «enum» pos variants =>
      cases h
      exact holds_enumSchema hQ hself
    | reference pos path arguments =>
      cases h
      exact hsingle (hQ.string _)
    | indexed pos base indices => exact hpart base List.mem_cons_self s h

/-- The bounds on numbers that are written in a type, those in its parts left out. -/
def numericBounds : TypeExpr → List Binary64
  | .numeric _ _ range => range.toList.flatMap NumberRange.bounds
  | _ => []

end TypeExpr

/-! ## Readable numbers -/

theorem Json.isCompositional_isReadable : Json.IsCompositional Json.IsReadable where
  null := trivial
  bool _ := trivial
  string _ := trivial
  array _ h := Json.areReadable_iff.2 h
  object _ hnodup h := ⟨hnodup, Json.fieldsAreReadable_iff.2 h⟩

/-- A number that is cut to an integer has at most as many digits as are read. -/
theorem Number.Binary64.natAbs_truncate_lt {negative : Bool} {m : ℕ} {e : ℤ} (h : IsCanonical m e) :
    ((truncate? (.finite negative m e)).getD 0).natAbs < 10 ^ maxDigits := by
  have he : 53 + e.toNat ≤ maxDigits := by
    have hmax := h.le_maxExponent
    rw [maxExponent] at hmax
    rw [maxDigits]
    omega
  have hscaled : scaleDown m e < 10 ^ maxDigits :=
    calc scaleDown m e = m * 2 ^ e.toNat := Nat.shiftLeft_eq m _
      _ < 2 ^ 53 * 2 ^ e.toNat := Nat.mul_lt_mul_of_pos_right h.mantissa_lt (Nat.two_pow_pos _)
      _ = 2 ^ (53 + e.toNat) := (Nat.pow_add 2 53 _).symm
      _ ≤ 2 ^ maxDigits := Nat.pow_le_pow_right (by decide) he
      _ ≤ 10 ^ maxDigits := Nat.pow_le_pow_left (by decide) _
  -- Cutting divides the scaled mantissa, which is large enough to be the bound already.
  rw [truncate?, toRatio?, Option.map_some, Option.getD_some, Int.natAbs_tdiv]
  refine (Nat.div_le_self _ _).trans_lt ?_
  split
  · rwa [Int.natAbs_neg, Int.natAbs_natCast]
  · rwa [Int.natAbs_natCast]

theorem Schema.isReadable_lengthBound {x : Binary64} (hx : x.IsNumber) {n : Json}
    (h : lengthBound x = .ok n) : n.IsReadable := by
  cases x with
  | nan => cases h
  | infinity negative => cases h
  | finite negative m e =>
    cases h
    rw [Json.IsReadable, Number.natDigits, Nat.length_toDigits_le_iff (by decide) (by decide)]
    exact Binary64.natAbs_truncate_lt hx

theorem NumberRange.IsPrintable.isNumber {r : NumberRange} (h : r.IsPrintable) :
    ∀ x ∈ r.bounds, x.IsNumber := by
  intro x hx
  rcases List.mem_append.1 hx with hx | hx
  · exact Number.isBound_iff.1 (h.min_isBound x (Option.mem_toList.1 hx))
  · exact Number.isBound_iff.1 (h.max_isBound x (Option.mem_toList.1 hx))

theorem TypeExpr.IsPrintable.numbersHold {t : TypeExpr} (h : t.IsPrintable) :
    t.NumbersHold Json.IsReadable := by
  cases t with
  | string pos length =>
    intro r hr x hx n hn
    exact Schema.isReadable_lengthBound ((h r hr).isNumber x hx) hn
  | list pos element size =>
    intro r hr x hx n hn
    exact Schema.isReadable_lengthBound ((h.2 r hr).isNumber x hx) hn
  | numeric pos name range =>
    intro r hr x hx
    exact .inr ((h.2 r hr).isNumber x hx)
  | «enum» => exact h.elim
  | _ => trivial

theorem Declaration.IsPrintable.numbersHold {decl : Declaration} (h : decl.IsPrintable) {number : Nat}
    {name : String} {type u : TypeExpr} (hdef : decl.definition? number = some (name, type))
    (hu : u.OccursIn type) : u.NumbersHold Json.IsReadable := by
  cases decl with
  | «alias» named =>
    cases hdef
    exact (h.isPrintable_target.of_occursIn hu).numbersHold
  | anonymous type' =>
    obtain ⟨sort, hsort, heq⟩ := Option.map_eq_some_iff.1 hdef
    cases heq
    -- The struct or enumeration itself, or a type that is written in it.
    rcases hu.cases_parts with rfl | ⟨t, ht, hu⟩
    · cases u with
      | struct => trivial
      | «enum» pos variants =>
        intro v hv n hn
        exact (h v hv).length_value n hn
      | _ => cases hsort
    · exact ((Declaration.IsPrintable.of_mem_types h t ht).of_occursIn hu).numbersHold
  | _ => cases hdef

/-! ## Finite numbers -/

theorem Json.isCompositional_isFinite : Json.IsCompositional (fun v => v.isFinite = true) where
  null := rfl
  bool _ := rfl
  string _ := rfl
  array _ h := Json.areFinite_iff.2 h
  object _ _ h := Json.fieldsAreFinite_iff.2 h

theorem TypeExpr.numbersHold_isFinite {t : TypeExpr} (h : ∀ x ∈ t.numericBounds, x.isFinite = true) :
    t.NumbersHold (fun v => v.isFinite = true) := by
  have hlength : ∀ x n, Schema.lengthBound x = .ok n → n.isFinite = true := by
    intro x n hn
    cases x with
    | nan => cases hn
    | infinity negative => cases hn
    | finite negative m e =>
      cases hn
      rfl
  cases t with
  | string => exact fun _ _ x _ n hn => hlength x n hn
  | list => exact fun _ _ x _ n hn => hlength x n hn
  | numeric pos name range =>
    intro r hr x hx
    exact h x (List.mem_flatMap.2 ⟨r, Option.mem_toList.2 hr, hx⟩)
  | «enum» => exact fun _ _ _ _ => rfl
  | _ => trivial

/-- All the bounds on numbers that are written in a document are finite. -/
def Document.HasFiniteBounds (doc : Document) : Prop :=
  ∀ decl ∈ doc.declarations, ∀ t ∈ decl.types, ∀ u : TypeExpr, u.OccursIn t →
    ∀ x ∈ u.numericBounds, x.isFinite = true

theorem Document.HasFiniteBounds.numbersHold {doc : Document} (h : doc.HasFiniteBounds)
    {decl : Declaration} (hdecl : decl ∈ doc.declarations) {number : Nat} {name : String}
    {type u : TypeExpr} (hdef : decl.definition? number = some (name, type)) (hu : u.OccursIn type) :
    u.NumbersHold (fun v => v.isFinite = true) := by
  apply TypeExpr.numbersHold_isFinite
  cases decl with
  | «alias» named =>
    cases hdef
    exact h _ hdecl _ List.mem_cons_self u hu
  | anonymous type' =>
    obtain ⟨sort, hsort, heq⟩ := Option.map_eq_some_iff.1 hdef
    cases heq
    rcases hu.cases_parts with rfl | ⟨t, ht, hu⟩
    · cases u with
      | numeric => cases hsort
      | _ => simp [TypeExpr.numericBounds]
    · exact h _ hdecl t ht u hu
  | _ => cases hdef

/-! ## Schemas of texts -/

namespace Generator

variable {g : Generator} {text : String} {schema : Json}

theorem nodup_definitions {base found : Fields Json} {decls : List Declaration}
    (hbase : (base.map Prod.fst).Nodup) (h : (g.definitions base decls).1 = .ok found) :
    (found.map Prod.fst).Nodup := by
  induction decls generalizing g base with
  | nil =>
    cases h
    exact hbase
  | cons decl decls ih =>
    rcases g.definitions_cons_cases base decl with
      ⟨_, _, _, -, -, -, hrun⟩ | ⟨-, base', hrun, hset⟩
    · rw [hrun] at h
      cases h
    · rw [hrun] at h
      rcases hset with rfl | ⟨name, type, s, -, -, rfl⟩
      · exact ih hbase h
      · exact ih (Fields.nodup_set hbase name s) h

/-- A property that is put together from the parts of a value holds of the schema of a text if it holds of
the numbers in the definitions. -/
theorem holds_compile {Q : Json → Prop} (hQ : Json.IsCompositional Q)
    (h : (g.compile text).1 = .ok schema)
    (hnumbers : ∀ doc, Document.ofString text = .ok doc → ∀ decl ∈ doc.declarations,
      ∀ number name type, decl.definition? number = some (name, type) →
        ∀ u : TypeExpr, u.OccursIn type → u.NumbersHold Q) : Q schema := by
  cases hdoc : Document.ofString text with
  | error fault =>
    rw [compile, hdoc] at h
    cases h
  | ok doc =>
    obtain ⟨found, rfl, hfound⟩ := exists_definition hdoc h
    obtain ⟨_, -, hrun⟩ := compile_fst_ok_iff.1 h
    have hdefinitions : Q (.object found) := by
      refine hQ.object _ (@nodup_definitions g [] _ _ List.nodup_nil hrun) fun f hf => ?_
      obtain ⟨decl, hdecl, number, type, hdef, hschema⟩ := hfound f.1 f.2 hf
      exact TypeExpr.holds_toSchema hQ (hnumbers doc hdoc decl hdecl number f.1 type hdef) hschema
    exact hQ.object _ (by simp)
      (by simpa using ⟨hQ.string dialect, hQ.string "object", hdefinitions⟩)

theorem isReadable_of_compile (h : (g.compile text).1 = .ok schema) : schema.IsReadable := by
  refine holds_compile Json.isCompositional_isReadable h ?_
  intro doc hdoc decl hdecl number name type hdef u hu
  exact ((Document.isPrintable_of_ofString hdoc).declarations decl hdecl).numbersHold hdef hu

/-- **What is written for a text.** The schema is read back from what is written for it, and that is a text
of the grammar just if the numbers in the schema are finite, which they are if the bounds in the document
are. -/
theorem compile_isDocument_iff (h : (g.compile text).1 = .ok schema) :
    (Json.IsDocument schema.pretty ↔ schema.isFinite = true) ∧
      (∀ doc, Document.ofString text = .ok doc → doc.HasFiniteBounds →
        Json.IsDocument schema.pretty) ∧
      Json.parse schema.pretty = .ok schema := by
  have hiff : Json.IsDocument schema.pretty ↔ schema.isFinite = true :=
    Json.isDocument_toChars_iff .indented schema
  refine ⟨hiff, fun doc hdoc hfinite => hiff.2 ?_,
    Json.parse_toChars .indented (isReadable_of_compile h)⟩
  refine holds_compile Json.isCompositional_isFinite h ?_
  intro doc' hdoc' decl hdecl number name type hdef u hu
  rw [hdoc] at hdoc'
  cases hdoc'
  exact hfinite.numbersHold hdecl hdef hu

/-- A string with a quote, a tab, an accent and a character of two units, and a bound with an exponent. -/
theorem compile_isDocument_escapes :
    let low : Binary64 := .finite true 6755399441055744 (-52)
    let high : Binary64 := .finite false 7105427357601002 47
    let schema := rootSchema [("X", .object [("anyOf", .array [
      .object [("const", .string "\"é\t😀")],
      .object [("type", .string "number"), ("minimum", .real low), ("maximum", .real high)]])])]
    (({} : Generator).compile "type X = \"\\\"é\t😀\" | float @ -1.5..1e30").1 = .ok schema ∧
      Json.IsDocument schema.pretty ∧ Json.parse schema.pretty = .ok schema := by
  intro low high schema
  let tokens : List Token := [⟨.type, "type", ⟨1, 1⟩⟩, ⟨.identifier, "X", ⟨1, 6⟩⟩,
    ⟨.equals, "=", ⟨1, 8⟩⟩, ⟨.string, "\"é\t😀", ⟨1, 10⟩⟩, ⟨.pipe, "|", ⟨1, 18⟩⟩,
    ⟨.floatType, "float", ⟨1, 20⟩⟩, ⟨.atSign, "@", ⟨1, 26⟩⟩, ⟨.float, "-1.5", ⟨1, 28⟩⟩,
    ⟨.range, "..", ⟨1, 32⟩⟩, ⟨.float, "1e30", ⟨1, 34⟩⟩, ⟨.eof, "", ⟨1, 38⟩⟩]
  let range : NumberRange := ⟨some low, some high, false, false⟩
  let doc : Document := { declarations := [.alias ⟨⟨1, 1⟩, "X", [], .union ⟨1, 10⟩
    [.literal ⟨1, 10⟩ (.text "\"é\t😀") none, .numeric ⟨1, 20⟩ "float" (some range)], none⟩] }
  have hscan : Token.scan "type X = \"\\\"é\t😀\" | float @ -1.5..1e30" = .ok tokens := by cbv
  have hparse : Document.ofTokens tokens = .ok doc := rfl
  have h : (({} : Generator).compile "type X = \"\\\"é\t😀\" | float @ -1.5..1e30").1 = .ok schema := by
    simp only [compile, Document.ofString, hscan, hparse]
    rfl
  obtain ⟨hiff, -, hread⟩ := compile_isDocument_iff h
  exact ⟨h, hiff.2 rfl, hread⟩

/-- A bound beyond the numbers of the format is infinite, and what is written for it is no text of the
grammar. -/
theorem compile_writes_infinity :
    let schema := rootSchema
      [("X", .object [("type", .string "integer"), ("minimum", .real (.infinity false))])]
    (({} : Generator).compile "type X = int @ 1e999..").1 = .ok schema ∧
      ¬ Json.IsDocument schema.pretty := by
  intro schema
  let tokens : List Token := [⟨.type, "type", ⟨1, 1⟩⟩, ⟨.identifier, "X", ⟨1, 6⟩⟩,
    ⟨.equals, "=", ⟨1, 8⟩⟩, ⟨.int, "int", ⟨1, 10⟩⟩, ⟨.atSign, "@", ⟨1, 14⟩⟩,
    ⟨.float, "1e999", ⟨1, 16⟩⟩, ⟨.range, "..", ⟨1, 21⟩⟩, ⟨.eof, "", ⟨1, 23⟩⟩]
  let range : NumberRange := ⟨some (.infinity false), none, false, false⟩
  let doc : Document :=
    { declarations := [.alias ⟨⟨1, 1⟩, "X", [], .numeric ⟨1, 10⟩ "int" (some range), none⟩] }
  have hscan : Token.scan "type X = int @ 1e999.." = .ok tokens := by cbv
  have hparse : Document.ofTokens tokens = .ok doc := rfl
  refine ⟨?_, fun hdocument => ?_⟩
  · simp only [compile, Document.ofString, hscan, hparse]
    rfl
  · have hfinite := (Json.isDocument_toChars_iff .indented schema).1 hdocument
    cases hfinite

end Generator

end McdocSchema
