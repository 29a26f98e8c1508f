import McdocSchema.Proofs.Compiled
import McdocSchema.Proofs.Numbering

/-!
# What was generated before

A generator is asked for schemas again and again: for those of documents, of texts and of single
types. Of all that it was asked before, only the number of declarations that got a number has a part in
its answers, and it is added to the numbers in the names of definitions. So the schema of a file depends
neither on the files that were compiled before it nor on their order.
-/

namespace McdocSchema

namespace Generator

/-- What a generator can be asked for: the schema of a document, of a text or of a type. -/
inductive Request
  | document (doc : Document)
  | text (content : String)
  | type (expr : TypeExpr)

namespace Request

/-- The declarations that are met when the request is answered. -/
def met : Request → List Declaration
  | .document doc => Declaration.met doc.declarations
  | .text content =>
    match Document.ofString content with
    | .ok doc => Declaration.met doc.declarations
    | .error _ => []
  | .type _ => []

/-- The number of declarations that get a number when the request is answered. -/
def numbered (request : Request) : Nat :=
  request.met.countP Declaration.isNumbered

/-- The aliases that are met when the request is answered. -/
def aliases (request : Request) : List Alias :=
  request.met.filterMap Declaration.alias?

/-- In a document that is given as a tree, no alias is called like a declaration without a name. A text
cannot have such an alias. -/
def KeepsApart : Request → Prop
  | .document doc => ∀ decl ∈ doc.declarations, decl.KeepsApart
  | .text _ | .type _ => True

end Request

/-- A schema with the numbers in the names of its definitions added to. -/
def renumberSchema (k : Nat) : Json → Json
  | .object fields => .object (fields.map fun field =>
      match field with
      | ("definitions", .object found) => ("definitions", .object (renumberFields k found))
      | field => field)
  | json => json

/-- The answer to a request with the numbers in it added to. The schema of a type has none. -/
def Request.renumber (k : Nat) : Request → Json → Json
  | .document _ | .text _ => renumberSchema k
  | .type _ => id

def answer (g : Generator) : Request → Except CompileFault Json × Generator
  | .document doc => ((g.generate doc).1.mapError .length, (g.generate doc).2)
  | .text content => g.compile content
  | .type expr => (expr.toSchema.mapError .length, g)

/-- The generator behind requests, answered one after the other. -/
def behind (g : Generator) (requests : List Request) : Generator :=
  requests.foldl (fun g request => (g.answer request).2) g

/-! ## Single requests -/

theorem generate_fst (g : Generator) (doc : Document) :
    (g.generate doc).1 = (g.definitions [] doc.declarations).1.map rootSchema := by
  rw [generate]
  cases h : (g.definitions [] doc.declarations) with
  | mk result g' => cases result <;> rfl

theorem generate_snd (g : Generator) (doc : Document) :
    (g.generate doc).2 = (Declaration.met doc.declarations).foldl meet g := by
  rw [← definitions_snd g [], generate]
  cases h : (g.definitions [] doc.declarations) with
  | mk result g' => cases result <;> rfl

theorem generate_renumber (g : Generator) {doc : Document}
    (h : ∀ decl ∈ doc.declarations, decl.KeepsApart) :
    (g.generate doc).1 = (generate {} doc).1.map (renumberSchema g.numbered) := by
  have hnumbered : g.numbered = numbered {} + g.numbered := (Nat.zero_add _).symm
  have hdefinitions := definitions_renumber hnumbered [] h
  rw [renumberFields_nil] at hdefinitions
  rw [generate_fst, generate_fst, hdefinitions]
  cases (definitions {} [] doc.declarations).1 <;> rfl

/-- The names of aliases in a text are words, which have no number sign. -/
theorem keepsApart_of_ofString {text : String} {doc : Document} (h : Document.ofString text = .ok doc) :
    ∀ decl ∈ doc.declarations, decl.KeepsApart := by
  intro decl hdecl named hnamed
  have hprintable := (Document.isPrintable_of_ofString h).declarations decl hdecl
  cases decl with
  | «alias» named' =>
    cases hnamed
    rw [← Bool.not_eq_true, isAnonymousName_iff]
    rintro ⟨sort, -, n, hname⟩
    have hsign : '#' ∈ named.name.toList := by
      rw [hname, toList_anonymousName]
      simp
    exact Lexeme.ne_of_isName hprintable.isName_name (by decide) (by decide) (by decide) _ hsign rfl
  | _ => cases hnamed

theorem compile_eq (g : Generator) (text : String) :
    g.compile text = match Document.ofString text with
      | .error fault => (.error (.document fault), g)
      | .ok doc => g.answer (.document doc) := by
  rw [compile]
  cases Document.ofString text with
  | error fault => rfl
  | ok doc =>
    cases hrun : g.generate doc with
    | mk result g' =>
      simp only [answer, hrun]
      cases result <;> rfl

/-- What a generator keeps has no part in its answers but for the numbers in names. -/
theorem answer_renumber (g : Generator) {request : Request} (h : request.KeepsApart) :
    (g.answer request).1 = (answer {} request).1.map (request.renumber g.numbered) := by
  have hdocument : ∀ doc : Document, (∀ decl ∈ doc.declarations, decl.KeepsApart) →
      (g.answer (.document doc)).1 =
        (answer {} (.document doc)).1.map (renumberSchema g.numbered) := by
    intro doc hdoc
    rw [answer, answer, g.generate_renumber hdoc]
    cases (generate {} doc).1 <;> rfl
  cases request with
  | document doc => exact hdocument doc h
  | text content =>
    show (g.compile content).1 = (compile {} content).1.map (renumberSchema g.numbered)
    rw [compile_eq, compile_eq]
    cases hdoc : Document.ofString content with
    | error fault => rfl
    | ok doc => exact hdocument doc (keepsApart_of_ofString hdoc)
  | type expr =>
    rw [answer, answer]
    cases expr.toSchema <;> rfl

/-- A generator has met the declarations of a request behind it, and nothing else. -/
theorem answer_snd (g : Generator) (request : Request) :
    (g.answer request).2 = request.met.foldl meet g := by
  cases request with
  | document doc => exact g.generate_snd doc
  | text content =>
    show (g.compile content).2 = _
    rw [compile_eq, Request.met]
    cases Document.ofString content with
    | error fault => rfl
    | ok doc => exact g.generate_snd doc
  | type expr => rfl

/-! ## Sequences of requests -/

theorem numbered_behind (g : Generator) (requests : List Request) :
    (g.behind requests).numbered = g.numbered + (requests.map Request.numbered).sum := by
  induction requests generalizing g with
  | nil => rfl
  | cons request requests ih =>
    have hstep : (g.answer request).2.numbered = g.numbered + request.numbered := by
      rw [answer_snd, foldl_meet_numbered, Request.numbered]
    show ((g.answer request).2.behind requests).numbered = _
    rw [ih, hstep, List.map_cons, List.sum_cons, Nat.add_assoc]

/-- **No history leaks between requests.** Behind any requests, answered or refused, the answer to a
request is that of a new generator, with the declarations that got a number before added to the numbers
in the names of definitions. The order of the earlier requests has no part in it at all. The table of
aliases is set to those that the request has met, in the order of their declarations. -/
theorem answer_behind (before : List Request) {request : Request} (h : request.KeepsApart) :
    (((behind {} before).answer request).1 =
      (answer {} request).1.map (request.renumber (before.map Request.numbered).sum)) ∧
    (∀ before' : List Request, before'.Perm before →
      ((behind {} before').answer request).1 = ((behind {} before).answer request).1) ∧
    ((behind {} before).answer request).2.aliases =
      request.aliases.foldl (fun table named => table.set named.name named)
        (behind {} before).aliases := by
  have hanswer : ∀ before : List Request, ((behind {} before).answer request).1 =
      (answer {} request).1.map (request.renumber (before.map Request.numbered).sum) := by
    intro before
    rw [answer_renumber _ h, numbered_behind]
    exact congrArg (fun k => (answer {} request).1.map (request.renumber k)) (Nat.zero_add _)
  refine ⟨hanswer before, ?_, ?_⟩
  · intro before' hperm
    rw [hanswer before', hanswer before, (hperm.map Request.numbered).sum_eq]
  · rw [answer_snd, foldl_meet_aliases, Request.aliases]

/-- Behind a document that fails at its second struct, which counts, and a type: the enumeration that a
new generator calls `Enum_#1` is called `Enum_#3`. -/
theorem answer_behind_failed_document :
    let endless : NumberRange := { max := some (.infinity false) }
    let broken : Request := .document { declarations :=
      [.anonymous (.struct .start [] []), .alias ⟨.start, "A", [], .any .start, none⟩,
        .anonymous (.struct .start [⟨"f", .string .start (some endless), false, none⟩] []),
        .anonymous (.enum .start [])] }
    let before : List Request := [broken, .type (.string .start (some endless))]
    let request : Request := .document { declarations :=
      [.anonymous (.enum .start []), .alias ⟨.start, "A", [], .boolean .start, none⟩] }
    request.KeepsApart ∧ (before.map Request.numbered).sum = 2 ∧
      ((behind {} before).answer request).1 = (answer {} request).1.map (request.renumber 2) ∧
      (∀ before' : List Request, before'.Perm before →
        ((behind {} before').answer request).1 = ((behind {} before).answer request).1) ∧
      ((behind {} before).answer request).2.aliases =
        request.aliases.foldl (fun table named => table.set named.name named)
          (behind {} before).aliases := by
  intro endless broken before request
  have happart : request.KeepsApart := by
    intro decl hdecl named hnamed
    simp only [List.mem_cons, List.not_mem_nil, or_false] at hdecl
    rcases hdecl with rfl | rfl
    · cases hnamed
    · cases hnamed
      rfl
  exact ⟨happart, rfl, answer_behind before happart⟩

end Generator

end McdocSchema
