import McdocSchema.Proofs.NumberText
import McdocSchema.Schema.Definitions

/-!
# Names made from numbers

A declaration without a name gets one that is made from its sort and its number. `renumber k` adds
`k` to the number in such a name and leaves all other names as they are. A generator that has numbered `k`
declarations before makes the definitions that a new one would make, with `k` added to their numbers
(`definitions_renumber`).
-/

namespace McdocSchema

theorem Fields.keys_set {α : Type} (fields : Fields α) (key : String) (value : α) :
    (fields.set key value).map Prod.fst =
      if key ∈ fields.map Prod.fst then fields.map Prod.fst else fields.map Prod.fst ++ [key] := by
  induction fields with
  | nil => rfl
  | cons field fields ih =>
    by_cases h : field.1 = key
    · simp [set, h]
    · have h' : ¬ key = field.1 := fun heq => h heq.symm
      simp only [set, beq_iff_eq, h, if_false, List.map_cons, ih, List.mem_cons, h', false_or]
      split <;> rfl

namespace Generator

/-! ## Names -/

/-- The sorts of types that get a name made from a number. -/
def anonymousSorts : List String := ["Struct", "Enum"]

/-- The number that a name of the sort is made from. -/
def numberIn? (sort name : String) : Option Nat :=
  let n := Number.digitsValue (name.toList.drop (sort.length + 2))
  if anonymousName sort n == name then some n else none

/-- Whether the name is one that declarations without a name get. -/
def isAnonymousName (name : String) : Bool :=
  anonymousSorts.any fun sort => (numberIn? sort name).isSome

/-- Adds to the number that a name is made from; other names stay as they are. -/
def renumber (k : Nat) (name : String) : String :=
  (anonymousSorts.findSome? fun sort =>
    (numberIn? sort name).map fun n => anonymousName sort (n + k)).getD name

theorem toList_anonymousName (sort : String) (n : Nat) :
    (anonymousName sort n).toList = sort.toList ++ ['_', '#'] ++ Number.natDigits n := by
  show (sort ++ "_#" ++ Nat.repr n).toList = _
  rw [String.toList_append, String.toList_append, Nat.toList_repr]
  rfl

theorem numberIn?_eq_some_iff {sort name : String} {n : Nat} :
    numberIn? sort name = some n ↔ name = anonymousName sort n := by
  rw [numberIn?]
  constructor
  · intro h
    split at h
    · next heq =>
      cases h
      exact (eq_of_beq heq).symm
    · cases h
  · rintro rfl
    have hdrop : (anonymousName sort n).toList.drop (sort.length + 2) = Number.natDigits n := by
      rw [toList_anonymousName]
      exact List.drop_left' (by simp [String.length_toList])
    rw [hdrop, Number.digitsValue_natDigits, if_pos (beq_self_eq_true _)]

theorem isAnonymousName_iff {name : String} :
    isAnonymousName name = true ↔ ∃ sort ∈ anonymousSorts, ∃ n, name = anonymousName sort n := by
  simp only [isAnonymousName, List.any_eq_true, Option.isSome_iff_exists, numberIn?_eq_some_iff]

/-- Sort and number can be read off the name. -/
theorem anonymousName_inj {sort sort' : String} (h : sort ∈ anonymousSorts)
    (h' : sort' ∈ anonymousSorts) {n n' : Nat} (heq : anonymousName sort n = anonymousName sort' n') :
    sort = sort' ∧ n = n' := by
  have hsort : sort = sort' := by
    have hhead := congrArg (fun name => name.toList.head?) heq
    simp only [toList_anonymousName] at hhead
    -- The two sorts start with different letters.
    simp only [anonymousSorts, List.mem_cons, List.not_mem_nil, or_false] at h h'
    rcases h with rfl | rfl <;> rcases h' with rfl | rfl
    · rfl
    · exact absurd hhead (by simp)
    · exact absurd hhead (by simp)
    · rfl
  subst hsort
  have hn := numberIn?_eq_some_iff.2 heq
  rw [numberIn?_eq_some_iff.2 rfl, Option.some.injEq] at hn
  exact ⟨rfl, hn⟩

@[simp] theorem renumber_anonymousName {sort : String} (h : sort ∈ anonymousSorts) (k n : Nat) :
    renumber k (anonymousName sort n) = anonymousName sort (n + k) := by
  have hother : ∀ sort' ∈ anonymousSorts, sort' ≠ sort → numberIn? sort' (anonymousName sort n) = none := by
    intro sort' h' hne
    rw [Option.eq_none_iff_forall_ne_some]
    intro m hm
    exact hne (anonymousName_inj h' h (numberIn?_eq_some_iff.1 hm).symm).1
  have hown : numberIn? sort (anonymousName sort n) = some n := numberIn?_eq_some_iff.2 rfl
  have hs : sort = "Struct" ∨ sort = "Enum" := by simpa [anonymousSorts] using h
  rw [renumber, anonymousSorts, List.findSome?_cons]
  rcases hs with rfl | rfl
  · rw [hown]
    rfl
  · rw [hother "Struct" (by decide) (by decide), Option.map_none, List.findSome?_cons, hown]
    rfl

theorem renumber_of_not {k : Nat} {name : String} (h : isAnonymousName name = false) :
    renumber k name = name := by
  have hnone : (anonymousSorts.findSome? fun sort =>
      (numberIn? sort name).map fun n => anonymousName sort (n + k)) = none := by
    rw [List.findSome?_eq_none_iff]
    intro sort hsort
    rw [isAnonymousName, List.any_eq_false] at h
    simpa using h sort hsort
  rw [renumber, hnone]
  rfl

/-- Names of either sort stay of that sort. -/
theorem isAnonymousName_renumber (k : Nat) (name : String) :
    isAnonymousName (renumber k name) = isAnonymousName name := by
  cases h : isAnonymousName name with
  | false => rw [renumber_of_not h, h]
  | true =>
    obtain ⟨sort, hsort, n, rfl⟩ := isAnonymousName_iff.1 h
    rw [renumber_anonymousName hsort]
    exact isAnonymousName_iff.2 ⟨sort, hsort, n + k, rfl⟩

theorem renumber_injective (k : Nat) : Function.Injective (renumber k) := by
  intro name name' heq
  have hkind := congrArg isAnonymousName heq
  rw [isAnonymousName_renumber, isAnonymousName_renumber] at hkind
  cases h : isAnonymousName name with
  | false =>
    rwa [renumber_of_not h, renumber_of_not (hkind ▸ h)] at heq
  | true =>
    obtain ⟨sort, hsort, n, rfl⟩ := isAnonymousName_iff.1 h
    obtain ⟨sort', hsort', n', rfl⟩ := isAnonymousName_iff.1 (hkind ▸ h)
    rw [renumber_anonymousName hsort, renumber_anonymousName hsort'] at heq
    obtain ⟨rfl, hn⟩ := anonymousName_inj hsort hsort' heq
    rw [Nat.add_right_cancel hn]

/-! ## Definitions -/

/-- Definitions with the numbers in their names added to. -/
def renumberFields {α : Type} (k : Nat) (fields : Fields α) : Fields α :=
  fields.map fun field => (renumber k field.1, field.2)

@[simp] theorem renumberFields_nil {α : Type} (k : Nat) :
    renumberFields k ([] : Fields α) = [] := rfl

theorem renumberFields_set {α : Type} (k : Nat) (name : String) (value : α) (fields : Fields α) :
    renumberFields k (fields.set name value) =
      (renumberFields k fields).set (renumber k name) value := by
  induction fields with
  | nil => rfl
  | cons field fields ih =>
    by_cases h : field.1 = name
    · simp [renumberFields, Fields.set, h]
    · have hne : renumber k field.1 ≠ renumber k name := fun heq => h (renumber_injective k heq)
      simp only [renumberFields] at ih
      simp [renumberFields, Fields.set, h, hne, ih]

end Generator

/-! ## Declarations -/

namespace Declaration

def alias? : Declaration → Option Alias
  | .alias decl => some decl
  | _ => none

/-- Whether a declaration gets a number. -/
def isNumbered : Declaration → Bool
  | .anonymous type => (Generator.anonymousSort? type).isSome
  | _ => false

/-- The definition that a declaration makes, as a name and a type, if the given number is its own. -/
def definition? (number : Nat) : Declaration → Option (String × TypeExpr)
  | .alias decl => some (decl.name, decl.target)
  | .anonymous type =>
    (Generator.anonymousSort? type).map fun sort => (Generator.anonymousName sort number, type)
  | _ => none

/-- Whether a declaration defines a type that has no schema. -/
def fails (decl : Declaration) : Bool :=
  match decl.definition? 0 with
  | some (_, type) => !type.toSchema.isOk
  | none => false

/-- No alias is called like a declaration without a name. -/
def KeepsApart (decl : Declaration) : Prop :=
  ∀ named ∈ decl.alias?, Generator.isAnonymousName named.name = false

theorem anonymousSort?_mem {type : TypeExpr} {sort : String}
    (h : Generator.anonymousSort? type = some sort) : sort ∈ Generator.anonymousSorts := by
  cases type <;> cases h <;> decide

/-- The number of a declaration stands in its name only. -/
theorem definition?_add (decl : Declaration) (hdecl : decl.KeepsApart) (number k : Nat) :
    decl.definition? (number + k) =
      (decl.definition? number).map fun d => (Generator.renumber k d.1, d.2) := by
  cases decl with
  | «alias» named =>
    show some (named.name, named.target) = some (Generator.renumber k named.name, named.target)
    rw [Generator.renumber_of_not (hdecl named rfl)]
  | anonymous type =>
    rw [definition?, definition?]
    cases hsort : Generator.anonymousSort? type with
    | none => rfl
    | some sort =>
      rw [Option.map_some, Option.map_some, Option.map_some,
        Generator.renumber_anonymousName (anonymousSort?_mem hsort)]
  | _ => rfl

theorem fails_of_definition? {decl : Declaration} {number : Nat} {name : String} {type : TypeExpr}
    (h : decl.definition? number = some (name, type)) : decl.fails = !type.toSchema.isOk := by
  cases decl with
  | «alias» named =>
    cases h
    rfl
  | anonymous type' =>
    rw [definition?] at h
    rw [fails, definition?]
    cases hsort : Generator.anonymousSort? type' with
    | none =>
      rw [hsort] at h
      cases h
    | some sort =>
      rw [hsort] at h
      cases h
      rfl
  | _ => cases h

theorem fails_of_definition?_none {decl : Declaration} {number : Nat}
    (h : decl.definition? number = none) : decl.fails = false := by
  cases decl with
  | «alias» named => cases h
  | anonymous type =>
    rw [definition?, Option.map_eq_none_iff] at h
    rw [fails, definition?, h]
    rfl
  | _ => rfl

/-- The declarations that are met: all up to the first one that fails, and that one. -/
def met : List Declaration → List Declaration
  | [] => []
  | decl :: decls => if decl.fails then [decl] else decl :: met decls

end Declaration

namespace Generator

/-- The generator behind a declaration. -/
def meet (g : Generator) (decl : Declaration) : Generator where
  aliases := decl.alias?.elim g.aliases fun named => g.aliases.set named.name named
  numbered := g.numbered + if decl.isNumbered then 1 else 0

theorem define_eq (g : Generator) (decl : Declaration) :
    g.define decl = (decl.definition? (g.numbered + 1), g.meet decl) := by
  cases decl with
  | anonymous type =>
    rw [define, Declaration.definition?, meet, Declaration.isNumbered]
    cases anonymousSort? type with
    | none => rfl
    | some sort => rfl
  | _ => rfl

/-- What becomes of the first declaration, and what of the others. -/
theorem definitions_cons (g : Generator) (found : Fields Json) (decl : Declaration)
    (decls : List Declaration) :
    g.definitions found (decl :: decls) = match decl.definition? (g.numbered + 1) with
      | none => (g.meet decl).definitions found decls
      | some (name, type) => match type.toSchema with
        | .ok schema => (g.meet decl).definitions (found.set name schema) decls
        | .error fault => (.error fault, g.meet decl) := by
  rw [definitions, define_eq]
  cases decl.definition? (g.numbered + 1) with
  | none => rfl
  | some d => rfl

/-- A declaration has no schema, which ends the run, or the run goes on behind it, with its definition set
if it makes one. -/
theorem definitions_cons_cases (g : Generator) (found : Fields Json) (decl : Declaration) :
    (∃ name type fault, decl.definition? (g.numbered + 1) = some (name, type) ∧
      type.toSchema = .error fault ∧ decl.fails = true ∧
      ∀ decls, g.definitions found (decl :: decls) = (.error fault, g.meet decl)) ∨
    decl.fails = false ∧ ∃ found',
      (∀ decls, g.definitions found (decl :: decls) = (g.meet decl).definitions found' decls) ∧
      (found' = found ∨ ∃ name type schema, decl.definition? (g.numbered + 1) = some (name, type) ∧
        type.toSchema = .ok schema ∧ found' = found.set name schema) := by
  simp only [definitions_cons]
  cases hd : decl.definition? (g.numbered + 1) with
  | none => exact .inr ⟨Declaration.fails_of_definition?_none hd, found, fun _ => rfl, .inl rfl⟩
  | some d =>
    obtain ⟨name, type⟩ := d
    have hfails := Declaration.fails_of_definition? hd
    cases hs : type.toSchema with
    | error fault =>
      rw [hs] at hfails
      exact .inl ⟨name, type, fault, rfl, hs, hfails, fun _ => by simp only [hs]⟩
    | ok schema =>
      rw [hs] at hfails
      exact .inr ⟨hfails, found.set name schema, fun _ => by simp only [hs],
        .inr ⟨name, type, schema, rfl, hs, rfl⟩⟩

/-- The generator behind declarations has met them, up to the first one that fails. -/
theorem definitions_snd (g : Generator) (found : Fields Json) (decls : List Declaration) :
    (g.definitions found decls).2 = (Declaration.met decls).foldl meet g := by
  induction decls generalizing g found with
  | nil => rfl
  | cons decl decls ih =>
    rcases g.definitions_cons_cases found decl with
      ⟨name, type, fault, -, -, hfails, hrun⟩ | ⟨hfails, found', hrun, -⟩
    · rw [hrun, Declaration.met, hfails]
      rfl
    · rw [hrun, Declaration.met, hfails]
      exact ih (g.meet decl) found'

theorem foldl_meet_aliases (g : Generator) (decls : List Declaration) :
    (decls.foldl meet g).aliases =
      (decls.filterMap Declaration.alias?).foldl (fun table named => table.set named.name named)
        g.aliases := by
  induction decls generalizing g with
  | nil => rfl
  | cons decl decls ih =>
    rw [List.foldl_cons, ih, meet]
    cases hd : decl.alias? <;> simp [hd]

theorem foldl_meet_numbered (g : Generator) (decls : List Declaration) :
    (decls.foldl meet g).numbered = g.numbered + decls.countP Declaration.isNumbered := by
  induction decls generalizing g with
  | nil => rfl
  | cons decl decls ih =>
    rw [List.foldl_cons, ih, meet, List.countP_cons, Nat.add_assoc, Nat.add_comm (ite _ _ _)]

/-- Declarations that were numbered before are added to the numbers in the names of definitions, and
have no other part in them. -/
theorem definitions_renumber {g g₀ : Generator} {k : Nat} (hk : g.numbered = g₀.numbered + k)
    (found : Fields Json) {decls : List Declaration} (hdecls : ∀ decl ∈ decls, decl.KeepsApart) :
    (g.definitions (renumberFields k found) decls).1 =
      (g₀.definitions found decls).1.map (renumberFields k) := by
  induction decls generalizing g g₀ found with
  | nil => rfl
  | cons decl decls ih =>
    have hmeet : (g.meet decl).numbered = (g₀.meet decl).numbered + k := by
      simp only [meet, hk]
      omega
    have ih := fun found =>
      ih hmeet found fun d hd => hdecls d (List.mem_cons_of_mem decl hd)
    have hnumber : g.numbered + 1 = g₀.numbered + 1 + k := by omega
    rw [definitions_cons, definitions_cons, hnumber,
      decl.definition?_add (hdecls decl List.mem_cons_self)]
    cases decl.definition? (g₀.numbered + 1) with
    | none => exact ih found
    | some d =>
      obtain ⟨name, type⟩ := d
      simp only [Option.map_some]
      cases type.toSchema with
      | error fault => rfl
      | ok schema =>
        simp only [← renumberFields_set]
        exact ih (found.set name schema)

end Generator

end McdocSchema
