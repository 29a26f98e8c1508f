import McdocSchema.Proofs.DeclaredFields
import McdocSchema.Proofs.History

/-!
# The table of definitions

A name keeps the place of its first declaration among the definitions and the type of its last one. The
aliases of a text cannot be called like the structs and enumerations, whose names are made from numbers,
and no number is used twice. So nothing is overwritten but an alias by a later one of its name
(`Generator.AreDefinitions`).
-/

namespace McdocSchema

/-! ## Names without repetition -/

section

variable {α : Type} [BEq α] [LawfulBEq α]

theorem eraseDups_concat (xs : List α) (x : α) [Decidable (x ∈ xs)] :
    (xs ++ [x]).eraseDups = if x ∈ xs then xs.eraseDups else xs.eraseDups ++ [x] := by
  rw [List.eraseDups_append, List.removeAll, List.filter_singleton]
  by_cases h : x ∈ xs
  · simp [h]
  · simp [h, List.eraseDups_cons]

theorem filter_eraseDups (p : α → Bool) (xs : List α) :
    xs.eraseDups.filter p = (xs.filter p).eraseDups := by
  classical
  induction xs using List.reverseRecOn with
  | nil => rfl
  | append_singleton xs x ih =>
    rw [eraseDups_concat, List.filter_append, List.filter_singleton]
    by_cases hp : p x = true
    · by_cases hx : x ∈ xs
      · simp [hp, hx, ih, eraseDups_concat]
      · simp [hp, hx, ih, eraseDups_concat]
    · by_cases hx : x ∈ xs
      · simp [hp, hx, ih]
      · simp [hp, hx, ih]

theorem eraseDups_of_nodup {xs : List α} (h : xs.Nodup) : xs.eraseDups = xs := by
  classical
  induction xs using List.reverseRecOn with
  | nil => rfl
  | append_singleton xs x ih =>
    obtain ⟨hxs, -, hx⟩ := List.nodup_append'.1 h
    rw [eraseDups_concat, if_neg fun hmem => hx hmem List.mem_cons_self, ih hxs]

end

namespace Fields

variable {α : Type}

theorem map_fst_ofList (pairs : List (String × α)) :
    (ofList pairs).map Prod.fst = (pairs.map Prod.fst).eraseDups := by
  induction pairs using List.reverseRecOn with
  | nil => rfl
  | append_singleton pairs pair ih =>
    rw [ofList_concat, keys_set, ih, List.map_append, List.map_singleton, eraseDups_concat]
    simp only [List.mem_eraseDups]

theorem get?_ofList_append {front back : List (String × α)} {key : String} {value : α}
    (h : ∀ p ∈ back, p.1 ≠ key) : (ofList (front ++ (key, value) :: back)).get? key = some value := by
  have hback : List.lookup key back.reverse = none := by
    rw [List.lookup_eq_none_iff]
    intro p hp
    exact bne_iff_ne.2 (h p (List.mem_reverse.1 hp)).symm
  rw [get?_ofList, List.reverse_append, List.reverse_cons, List.append_assoc, get?,
    List.lookup_append, hback, Option.none_or, List.singleton_append, ← get?, get?_cons, if_pos rfl]

end Fields

/-! ## What declarations define -/

namespace Declaration

open Generator (anonymousName anonymousSort? isAnonymousName)

variable {decl : Declaration} {decls : List Declaration}

/-- The sort of type that a declaration without a name declares, if it becomes a definition. -/
def sort? : Declaration → Option String
  | .anonymous type => anonymousSort? type
  | _ => none

/-- Whether a declaration dispatches to a type. -/
def isDispatch : Declaration → Bool
  | .dispatch .. => true
  | _ => false

/-- The definitions that declarations make, in their order, each a name with a type. The numbers go on
behind the given one. -/
def definitionsFrom (numbered : Nat) : List Declaration → List (String × TypeExpr)
  | [] => []
  | decl :: decls => (decl.definition? (numbered + 1)).toList ++
      definitionsFrom (numbered + if decl.isNumbered then 1 else 0) decls

theorem isNumbered_eq (decl : Declaration) : decl.isNumbered = decl.sort?.isSome := by
  cases decl <;> rfl

theorem definitionsFrom_append (numbered : Nat) (front back : List Declaration) :
    definitionsFrom numbered (front ++ back) = definitionsFrom numbered front ++
      definitionsFrom (numbered + front.countP isNumbered) back := by
  induction front generalizing numbered with
  | nil => rfl
  | cons decl front ih =>
    rw [List.cons_append, definitionsFrom, definitionsFrom, ih, List.append_assoc, List.countP_cons,
      Nat.add_assoc, Nat.add_comm (ite _ _ _)]

theorem definitionsFrom_filter (numbered : Nat) (decls : List Declaration) :
    definitionsFrom numbered (decls.filter fun decl => !decl.isDispatch) =
      definitionsFrom numbered decls := by
  induction decls generalizing numbered with
  | nil => rfl
  | cons decl decls ih =>
    cases decl with
    | dispatch pos dispatcher indices target => exact ih numbered
    | _ =>
      rw [List.filter_cons_of_pos rfl, definitionsFrom, definitionsFrom, ih]

/-- A definition is that of an alias, or of a struct or an enumeration with the number that it has among
those. -/
theorem mem_definitionsFrom {numbered : Nat} {d : String × TypeExpr}
    (h : d ∈ definitionsFrom numbered decls) :
    (∃ named : Alias, .alias named ∈ decls ∧ d = (named.name, named.target)) ∨
      ∃ sort ∈ Generator.anonymousSorts, ∃ number, numbered < number ∧
        d.1 = anonymousName sort number := by
  induction decls generalizing numbered with
  | nil => cases h
  | cons decl decls ih =>
    rw [definitionsFrom, List.mem_append, Option.mem_toList] at h
    rcases h with h | h
    · cases decl with
      | «alias» named =>
        cases h
        exact .inl ⟨named, List.mem_cons_self, rfl⟩
      | anonymous type =>
        obtain ⟨sort, hsort, rfl⟩ := Option.map_eq_some_iff.1 h
        exact .inr ⟨sort, anonymousSort?_mem hsort, _, Nat.lt_succ_self numbered, rfl⟩
      | _ => cases h
    · rcases ih h with ⟨named, hmem, rfl⟩ | ⟨sort, hsort, number, hlt, hname⟩
      · exact .inl ⟨named, List.mem_cons_of_mem decl hmem, rfl⟩
      · exact .inr ⟨sort, hsort, number, by omega, hname⟩

/-! ## Names of either sort -/

theorem isAnonymousName_anonymousName {sort : String} (h : sort ∈ Generator.anonymousSorts)
    (number : Nat) : isAnonymousName (anonymousName sort number) = true :=
  Generator.isAnonymousName_iff.2 ⟨sort, h, number, rfl⟩

/-- Without those made from numbers, the names are those of the aliases. -/
theorem filter_not_isAnonymousName (numbered : Nat) (h : ∀ decl ∈ decls, decl.KeepsApart) :
    ((definitionsFrom numbered decls).map Prod.fst).filter (fun name => !isAnonymousName name) =
      (decls.filterMap alias?).map Alias.name := by
  induction decls generalizing numbered with
  | nil => rfl
  | cons decl decls ih =>
    have ih := fun n => ih n fun d hd => h d (List.mem_cons_of_mem decl hd)
    rw [definitionsFrom, List.map_append, List.filter_append, ih]
    cases decl with
    | «alias» named =>
      have hapart : isAnonymousName named.name = false := h _ List.mem_cons_self named rfl
      simp [definition?, alias?, hapart]
    | anonymous type =>
      cases hsort : anonymousSort? type with
      | none => simp [definition?, List.filterMap_cons, alias?, hsort]
      | some sort =>
        simp [definition?, List.filterMap_cons, alias?, hsort,
          isAnonymousName_anonymousName (anonymousSort?_mem hsort)]
    | _ => rfl

/-- The names made from numbers have the sorts of the declarations, and the numbers follow each other. -/
theorem filter_isAnonymousName (numbered : Nat) (h : ∀ decl ∈ decls, decl.KeepsApart) :
    ((definitionsFrom numbered decls).map Prod.fst).filter isAnonymousName =
      ((decls.filterMap sort?).zipIdx (numbered + 1)).map fun s => anonymousName s.1 s.2 := by
  induction decls generalizing numbered with
  | nil => rfl
  | cons decl decls ih =>
    have ih := fun n => ih n fun d hd => h d (List.mem_cons_of_mem decl hd)
    rw [definitionsFrom, List.map_append, List.filter_append, ih, isNumbered_eq]
    cases decl with
    | «alias» named =>
      have hapart : isAnonymousName named.name = false := h _ List.mem_cons_self named rfl
      simp [definition?, List.filterMap_cons, sort?, hapart]
    | anonymous type =>
      cases hsort : anonymousSort? type with
      | none => simp [definition?, sort?, hsort]
      | some sort =>
        simp [definition?, sort?, hsort, isAnonymousName_anonymousName (anonymousSort?_mem hsort)]
    | _ => rfl

theorem nodup_anonymousNames (numbered : Nat) (decls : List Declaration) :
    (((decls.filterMap sort?).zipIdx numbered).map fun s => anonymousName s.1 s.2).Nodup := by
  have hindices : ((decls.filterMap sort?).zipIdx numbered).Nodup := by
    apply List.Nodup.of_map Prod.snd
    rw [List.zipIdx_map_snd]
    exact List.nodup_range'
  refine hindices.map_on fun s hs s' hs' heq => ?_
  have hsorts : ∀ sort ∈ decls.filterMap sort?, sort ∈ Generator.anonymousSorts := by
    intro sort hsort
    obtain ⟨decl, -, hdecl⟩ := List.mem_filterMap.1 hsort
    cases decl with
    | anonymous type => exact anonymousSort?_mem hdecl
    | _ => cases hdecl
  obtain ⟨hsort, hnumber⟩ := Generator.anonymousName_inj
    (hsorts _ (List.fst_mem_of_mem_zipIdx hs)) (hsorts _ (List.fst_mem_of_mem_zipIdx hs')) heq
  exact Prod.ext hsort hnumber

end Declaration

/-! ## Tables -/

namespace Generator

open Declaration (definitionsFrom)

variable {g : Generator} {numbered : Nat} {base found : Fields Json} {decls : List Declaration}
  {defs : List (String × TypeExpr)} {pairs : List (String × Json)}

/-- Types with the names that they are defined by, and their schemas with the same names. -/
abbrev AreConverted : List (String × TypeExpr) → List (String × Json) → Prop :=
  List.Forall₂ fun d p => d.1 = p.1 ∧ d.2.toSchema = .ok p.2

/-- The definitions that are found are the schemas of what the declarations define, set one after the
other. -/
theorem definitions_eq_ok_iff : (g.definitions base decls).1 = .ok found ↔
    ∃ pairs, AreConverted (definitionsFrom g.numbered decls) pairs ∧
      found = pairs.foldl (fun fields pair => fields.set pair.1 pair.2) base := by
  induction decls generalizing g base with
  | nil =>
    constructor
    · intro h
      cases h
      exact ⟨[], .nil, rfl⟩
    · rintro ⟨pairs, hpairs, rfl⟩
      cases hpairs
      rfl
  | cons decl decls ih =>
    have hmeet : (g.meet decl).numbered = g.numbered + if decl.isNumbered then 1 else 0 := rfl
    rw [definitions_cons, definitionsFrom, ← hmeet]
    cases hdef : decl.definition? (g.numbered + 1) with
    | none => exact ih
    | some d =>
      obtain ⟨name, type⟩ := d
      simp only [Option.toList_some, List.singleton_append]
      cases hschema : type.toSchema with
      | error fault =>
        constructor
        · intro h
          cases h
        · rintro ⟨pairs, hpairs, -⟩
          cases hpairs with
          | cons hfirst _ => exact absurd (hschema.symm.trans hfirst.2) (by simp)
      | ok schema =>
        rw [ih]
        constructor
        · rintro ⟨pairs, hpairs, hfound⟩
          exact ⟨(name, schema) :: pairs, .cons ⟨rfl, hschema⟩ hpairs, hfound⟩
        · rintro ⟨_, hpairs, hfound⟩
          cases hpairs with
          | @cons _ pair _ pairs hfirst hpairs =>
            obtain ⟨rfl, hfirst⟩ := hfirst
            obtain rfl := Except.ok.inj (hschema.symm.trans hfirst)
            exact ⟨pairs, hpairs, hfound⟩

theorem map_fst_of_areConverted (h : AreConverted defs pairs) :
    pairs.map Prod.fst = defs.map Prod.fst := by
  induction h with
  | nil => rfl
  | cons hfirst _ ih => rw [List.map_cons, List.map_cons, ih, hfirst.1]

/-- What is defined last under a name is found under it. -/
theorem get?_of_areConverted {front back : List (String × TypeExpr)} {name : String} {type : TypeExpr}
    (h : AreConverted (front ++ (name, type) :: back) pairs) (hlast : ∀ d ∈ back, d.1 ≠ name) :
    ∃ schema, type.toSchema = .ok schema ∧ (Fields.ofList pairs).get? name = some schema := by
  have hdrop := (List.forall₂_drop_append pairs front _ h.flip).flip
  rw [← List.take_append_drop front.length pairs]
  generalize pairs.drop front.length = later at hdrop
  cases hdrop with
  | @cons _ pair _ others hpair hothers =>
    obtain ⟨rfl, hschema⟩ := hpair
    refine ⟨pair.2, hschema, Fields.get?_ofList_append fun p hp => ?_⟩
    have hname : p.1 ∈ back.map Prod.fst := by
      rw [← map_fst_of_areConverted hothers]
      exact List.mem_map_of_mem hp
    obtain ⟨d, hd, heq⟩ := List.mem_map.1 hname
    rw [← heq]
    exact hlast d hd

/-- The definitions are those of the declarations, with numbers behind the given one. -/
structure AreDefinitions (numbered : Nat) (decls : List Declaration) (found : Fields Json) : Prop where
  /-- Every name is there once, in the order of the first declarations. -/
  names : found.map Prod.fst = ((definitionsFrom numbered decls).map Prod.fst).eraseDups
  /-- The names that are not made from numbers are those of the aliases. -/
  aliasNames : (found.map Prod.fst).filter (fun name => !isAnonymousName name) =
    ((decls.filterMap Declaration.alias?).map Alias.name).eraseDups
  /-- There is a name for every struct and enumeration, made from its sort and its number. -/
  anonymousNames : (found.map Prod.fst).filter isAnonymousName =
    ((decls.filterMap Declaration.sort?).zipIdx (numbered + 1)).map fun s => anonymousName s.1 s.2
  /-- The last alias of a name is the one that is defined. -/
  aliases : ∀ (front : List Declaration) (named : Alias) (back : List Declaration),
    decls = front ++ .alias named :: back →
    (∀ other : Alias, .alias other ∈ back → other.name ≠ named.name) →
    ∃ schema, named.target.toSchema = .ok schema ∧ found.get? named.name = some schema
  /-- Every struct and enumeration is defined under its own name. -/
  anonymous : ∀ (front : List Declaration) (type : TypeExpr) (back : List Declaration) (sort : String),
    decls = front ++ .anonymous type :: back → anonymousSort? type = some sort →
    ∃ schema, type.toSchema = .ok schema ∧
      found.get? (anonymousName sort (numbered + front.countP Declaration.isNumbered + 1)) = some schema
  /-- Without what is dispatched to, the definitions are the same. -/
  dispatches : ∀ g : Generator, g.numbered = numbered →
    (g.definitions [] (decls.filter fun decl => !decl.isDispatch)).1 = .ok found
  /-- A reference to an alias leads to a definition. -/
  references : ∀ named : Alias, .alias named ∈ decls →
    ∀ (pos : Position) (arguments : List TypeExpr),
      (TypeExpr.reference pos named.name arguments).toSchema =
        .ok (.object [("$ref", .string ("#/definitions/" ++ named.name))]) ∧
      ∃ schema, found.get? named.name = some schema

theorem exists_last_alias {named : Alias} (h : .alias named ∈ decls) :
    ∃ front last back, decls = front ++ .alias last :: back ∧ last.name = named.name ∧
      ∀ other : Alias, .alias other ∈ back → other.name ≠ last.name := by
  induction decls generalizing named with
  | nil => cases h
  | cons decl decls ih =>
    by_cases hlater : ∃ other : Alias, .alias other ∈ decls ∧ other.name = named.name
    · obtain ⟨other, hother, hname⟩ := hlater
      obtain ⟨front, last, back, hsplit, hlast, hback⟩ := ih hother
      exact ⟨decl :: front, last, back, by rw [hsplit, List.cons_append], hlast.trans hname, hback⟩
    · rcases List.mem_cons.1 h with rfl | hmem
      · exact ⟨[], named, decls, rfl, rfl, fun other hother hname => hlater ⟨other, hother, hname⟩⟩
      · exact absurd ⟨named, hmem, rfl⟩ hlater

/-- Aliases are not called like structs and enumerations. -/
theorem ne_anonymousName {named : Alias} (hdecls : ∀ decl ∈ decls, decl.KeepsApart)
    (h : .alias named ∈ decls) {sort : String} (hsort : sort ∈ anonymousSorts) (number : Nat) :
    named.name ≠ anonymousName sort number := by
  intro hname
  have hapart := hdecls _ h named rfl
  rw [hname, Declaration.isAnonymousName_anonymousName hsort] at hapart
  cases hapart

theorem areDefinitions_of_definitions (hdecls : ∀ decl ∈ decls, decl.KeepsApart)
    (h : (g.definitions [] decls).1 = .ok found) : AreDefinitions g.numbered decls found := by
  obtain ⟨pairs, hpairs, hfound⟩ := definitions_eq_ok_iff.1 h
  obtain rfl : found = Fields.ofList pairs := hfound
  have hnames : (Fields.ofList pairs).map Prod.fst =
      ((definitionsFrom g.numbered decls).map Prod.fst).eraseDups := by
    rw [Fields.map_fst_ofList, map_fst_of_areConverted hpairs]
  have haliases : ∀ (front : List Declaration) (named : Alias) (back : List Declaration),
      decls = front ++ .alias named :: back →
      (∀ other : Alias, .alias other ∈ back → other.name ≠ named.name) →
      ∃ schema, named.target.toSchema = .ok schema ∧
        (Fields.ofList pairs).get? named.name = some schema := by
    rintro front named back rfl hlast
    rw [Declaration.definitionsFrom_append] at hpairs
    refine get?_of_areConverted hpairs fun d hd => ?_
    rcases Declaration.mem_definitionsFrom hd with ⟨other, hother, rfl⟩ | ⟨sort, hsort, n, -, hname⟩
    · exact hlast other hother
    · rw [hname]
      exact (ne_anonymousName hdecls (by simp) hsort n).symm
  refine ⟨hnames, ?_, ?_, haliases, ?_, ?_, ?_⟩
  · rw [hnames, filter_eraseDups, Declaration.filter_not_isAnonymousName _ hdecls]
  · rw [hnames, filter_eraseDups, Declaration.filter_isAnonymousName _ hdecls,
      eraseDups_of_nodup (Declaration.nodup_anonymousNames _ _)]
  · rintro front type back sort rfl hsort
    have hnumbered : (Declaration.anonymous type).isNumbered = true := by
      rw [Declaration.isNumbered, hsort]
      rfl
    rw [Declaration.definitionsFrom_append, definitionsFrom, hnumbered, Declaration.definition?,
      hsort] at hpairs
    refine get?_of_areConverted hpairs fun d hd => ?_
    -- Later aliases have other names, and later structs and enumerations have greater numbers.
    rcases Declaration.mem_definitionsFrom hd with
      ⟨other, hother, rfl⟩ | ⟨sort', hsort', n, hlt, hname⟩
    · exact ne_anonymousName hdecls (by simp [hother]) (Declaration.anonymousSort?_mem hsort) _
    · intro heq
      have hnumber := (anonymousName_inj hsort' (Declaration.anonymousSort?_mem hsort)
        (hname.symm.trans heq)).2
      simp only [if_true] at hlt
      omega
  · intro g' hg'
    rw [definitions_eq_ok_iff, hg', Declaration.definitionsFrom_filter]
    exact ⟨pairs, hpairs, rfl⟩
  · intro named hnamed pos arguments
    obtain ⟨front, last, back, hsplit, hname, hlast⟩ := exists_last_alias hnamed
    obtain ⟨schema, -, hget⟩ := haliases front last back hsplit hlast
    exact ⟨rfl, schema, hname ▸ hget⟩

/-- **The definitions of a text are complete and do not collide.** -/
theorem areDefinitions_of_compile {text : String} {schema : Json}
    (h : (g.compile text).1 = .ok schema) :
    ∃ doc found, Document.ofString text = .ok doc ∧ schema = rootSchema found ∧
      AreDefinitions g.numbered doc.declarations found := by
  cases hdoc : Document.ofString text with
  | error fault =>
    rw [compile, hdoc] at h
    cases h
  | ok doc =>
    obtain ⟨found, rfl, -⟩ := exists_definition hdoc h
    obtain ⟨doc', hdoc', hfound⟩ := compile_fst_ok_iff.1 h
    obtain rfl := Except.ok.inj (hdoc.symm.trans hdoc')
    exact ⟨doc, found, rfl, rfl, areDefinitions_of_definitions (keepsApart_of_ofString hdoc) hfound⟩

/-- An alias that is declared again, and between its declarations a struct, what is dispatched to and an
enumeration. -/
theorem areDefinitions_of_compile_redeclared :
    let g : Generator := { numbered := 2 }
    let text :=
      "type A = any\nstruct \x7bx: A\x7d\ndispatch d[k] to A\nenum \x7bV\x7d\ntype A = boolean\ntype B = A"
    let found : Fields Json := [("A", .object [("type", .string "boolean")]),
      ("Struct_#3", Schema.structSchema (.object [("x", Schema.reference "A")]) ["x"]),
      ("Enum_#4", .object [("enum", .array [.string "V"])]), ("B", Schema.reference "A")]
    (g.compile text).1 = .ok (rootSchema found) ∧
    ∃ doc found', Document.ofString text = .ok doc ∧ rootSchema found = rootSchema found' ∧
      AreDefinitions g.numbered doc.declarations found' := by
  intro g text found
  let doc : Document := { declarations := [.alias ⟨⟨1, 1⟩, "A", [], .any ⟨1, 10⟩, none⟩,
    .anonymous (.struct ⟨2, 1⟩ [⟨"x", .reference ⟨2, 12⟩ "A" [], false, none⟩] []),
    .dispatch ⟨3, 1⟩ "d" ["k"] (.reference ⟨3, 18⟩ "A" []),
    .anonymous (.enum ⟨4, 1⟩ [⟨"V", none, none⟩]),
    .alias ⟨⟨5, 1⟩, "A", [], .boolean ⟨5, 10⟩, none⟩,
    .alias ⟨⟨6, 1⟩, "B", [], .reference ⟨6, 10⟩ "A" [], none⟩] }
  have hfound : (g.definitions [] doc.declarations).1 = .ok found := by cbv
  have hdoc : Document.ofString text = .ok doc := by
    dsimp only [text]
    cbv
  have h : (g.compile text).1 = .ok (rootSchema found) := compile_fst_ok_iff.2 ⟨doc, hdoc, hfound⟩
  exact ⟨h, areDefinitions_of_compile h⟩

end Generator

end McdocSchema
