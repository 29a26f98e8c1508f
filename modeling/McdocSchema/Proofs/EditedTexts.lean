import McdocSchema.Proofs.Concatenation
import McdocSchema.Proofs.EditedTrees
import McdocSchema.Proofs.LengthFaults
import McdocSchema.Proofs.ScannedParts

/-!
# Edits of a text

What an edit of the tokens of a text makes of its document, and what of its schema. Of the tokens of a text
only the last one is the end of the text, and no two stand at the same place. The schema does not depend on
positions, and whether there is one depends neither on names nor on documentation.
-/

namespace McdocSchema

open Parse TokenStream

/-! ## Streams of scanned tokens -/

theorem TokenStream.Ended.ne_eof_of_mem_front {us vs : TokenStream} {t : Token}
    (h : Ended (us ++ t :: vs)) : ∀ u ∈ us, u.kind ≠ .eof := by
  obtain ⟨front, last, heq, -, hfront⟩ := h
  have hsame := congrArg List.dropLast heq
  rw [List.dropLast_append_cons, List.dropLast_concat] at hsame
  intro u hu
  refine hfront u ?_
  rw [← hsame]
  exact List.mem_append_left _ hu

theorem TokenStream.Ended.of_suffix {us ts : TokenStream} (h : Ended ts) (hus : us <:+ ts) (hne : us ≠ []) :
    Ended us := by
  obtain ⟨front, rfl⟩ := hus
  obtain ⟨t, us, rfl⟩ := List.exists_cons_of_ne_nil hne
  exact h.of_append h.ne_eof_of_mem_front

theorem TokenStream.eq_of_suffix_of_length {us vs ts : TokenStream} (hus : us <:+ ts) (hvs : vs <:+ ts)
    (h : us.length = vs.length) : us = vs :=
  (List.suffix_of_suffix_length_le hus hvs (Nat.le_of_eq h)).eq_of_length h

theorem Token.exists_cons_of_forms {t : Token} {ts ts' : List Token}
    (h : ts'.map Token.form = (t :: ts).map Token.form) :
    ∃ t' more, ts' = t' :: more ∧ t'.kind = t.kind ∧ t'.value = t.value ∧
      more.map Token.form = ts.map Token.form := by
  obtain ⟨t', more, rfl, hform, hmore⟩ := List.map_eq_cons_iff.1 h
  rw [Token.form, Token.form, Form.mk.injEq] at hform
  exact ⟨t', more, rfl, hform.1, hform.2, hmore⟩

namespace Edit

variable {e : Edit} {n : Nat} {ts ts' us vs vs' : TokenStream} {t t' : Token}

theorem tokens_of_form (h : t'.form = t.form) : e.Tokens 0 t t' := by
  rw [Token.form, Token.form, Form.mk.injEq] at h
  refine ⟨h.1, ?_, fun _ => rfl⟩
  rw [h.2]
  exact .same t.value

theorem docsEnded_cons (h : DocsEnded (t :: ts)) (hne : ts ≠ []) (hk : t.kind = .docComment) :
    ts.current.kind = .newline ∨ ts.current.kind = .eof := by
  cases ts with
  | nil => exact absurd rfl hne
  | cons u ts => exact (List.isChain_cons_cons.1 h).1 hk

theorem streams_of_forms (hend : Ended ts) (hdocs : DocsEnded ts)
    (hforms : ts'.map Token.form = ts.map Token.form)
    (ha : ∀ vs vs', vs <:+ ts → vs' <:+ ts' → vs.length = vs'.length → e.Along vs vs') :
    e.Streams 0 ts ts' := by
  induction ts generalizing ts' with
  | nil => exact absurd rfl hend.ne_nil
  | cons t ts ih =>
    cases ts' with
    | nil => cases hforms
    | cons t' ts' =>
      have hlength : (t' :: ts').length = (t :: ts).length := by
        simpa using congrArg List.length hforms
      obtain ⟨hform, hforms⟩ := List.cons.inj hforms
      have halong := ha _ _ List.suffix_rfl List.suffix_rfl hlength.symm
      by_cases hk : t.kind = .eof
      · obtain ⟨front, last, heq, -, hfront⟩ := hend
        cases front with
        | nil =>
          obtain ⟨rfl, rfl⟩ := List.cons.inj heq
          obtain rfl : ts' = [] := by simpa using hforms
          exact .last (tokens_of_form hform) hk halong
        | cons u front =>
          obtain ⟨rfl, -⟩ := List.cons.inj heq
          exact absurd hk (hfront t List.mem_cons_self)
      · have hrest := Ended.tail hend hk
        refine .cons (Nat.zero_add 0).symm (tokens_of_form hform) hk halong
          (docsEnded_cons hdocs hrest.ne_nil) ?_
        exact ih hrest (List.IsChain.tail hdocs) hforms fun vs vs' hvs hvs' =>
          ha vs vs' (hvs.trans (List.suffix_cons t ts)) (hvs'.trans (List.suffix_cons t' ts'))

theorem Streams.append (h : e.Streams n vs vs') (hus : ∀ t ∈ us, t.kind ≠ .eof)
    (hdocs : DocsEnded (us ++ vs)) (ha : ∀ ws, ws <:+ us → e.Along (ws ++ vs) (ws ++ vs')) :
    e.Streams n (us ++ vs) (us ++ vs') := by
  induction us with
  | nil => exact h
  | cons t us ih =>
    have hne : us ++ vs ≠ [] := by simp [h.ne_nil.1]
    refine .cons (Nat.zero_add n).symm (tokens_of_form rfl) (hus t List.mem_cons_self)
      (ha _ List.suffix_rfl) (docsEnded_cons hdocs hne) ?_
    exact ih (fun t ht => hus t (List.mem_cons_of_mem _ ht)) (List.IsChain.tail hdocs) fun ws hws =>
      ha ws (hws.trans (List.suffix_cons t us))

theorem length_eq_of_forms (h : vs'.map Token.form = vs.map Token.form) : vs.length = vs'.length := by
  simpa using congrArg List.length h.symm

theorem suffix_append_right {us ws : List Token} (h : ws <:+ us) (vs : List Token) :
    ws ++ vs <:+ us ++ vs := by
  obtain ⟨front, rfl⟩ := h
  exact ⟨front, by simp⟩

theorem exists_of_forms {doc : Document} (hend : Ended ts) (hdocs : DocsEnded ts)
    (hforms : ts'.map Token.form = ts.map Token.form) (hdoc : Document.ofTokens ts = .ok doc) :
    ∃ doc', Document.ofTokens ts' = .ok doc' ∧ doc'.unplaced = doc.unplaced := by
  have hstreams : (rename "" "" ts ts').Streams 0 ts ts' :=
    streams_of_forms hend hdocs hforms fun vs vs' hvs hvs' hlength => ⟨hvs, hvs', hlength⟩
  rcases hstreams.ofTokens hdoc with ⟨doc', hdoc', h⟩ | ⟨_, _, hstray, -⟩
  · exact ⟨doc', hdoc', h.unplaced_eq⟩
  · cases hstray

section Tokens

variable {doc : Document} (hend : Ended (us ++ t :: vs)) (hdocs : DocsEnded (us ++ t :: vs))
  (hforms : vs'.map Token.form = vs.map Token.form) (hdoc : Document.ofTokens (us ++ t :: vs) = .ok doc)

include hend hdocs hforms

/-- The streams with another name in the place of a name, from any token in front of it on. -/
theorem streams_of_rename {ws : TokenStream} (hws : ws <:+ us) (hk : t.kind = .identifier)
    (hk' : t'.kind = .identifier) :
    (rename t.value t'.value (us ++ t :: vs) (us ++ t' :: vs')).Streams 1 (ws ++ t :: vs)
      (ws ++ t' :: vs') := by
  have hus := hend.ne_eof_of_mem_front
  have hlength := length_eq_of_forms hforms
  let e : Edit := .rename t.value t'.value (us ++ t :: vs) (us ++ t' :: vs')
  have hbehind : e.Streams 0 vs vs' := by
    have hrest := (hend.of_append hus).tail (by rw [hk]; decide)
    refine streams_of_forms hrest (List.isChain_append.1 hdocs).2.1.tail hforms ?_
    intro ws ws' hws hws' hlen
    exact ⟨(hws.trans (List.suffix_cons t vs)).trans (List.suffix_append us _),
      (hws'.trans (List.suffix_cons t' vs')).trans (List.suffix_append us _), hlen⟩
  have halong : ∀ ws, ws <:+ us → e.Along (ws ++ t :: vs) (ws ++ t' :: vs') := fun ws hws =>
    ⟨suffix_append_right hws _, suffix_append_right hws _, by simp [hlength]⟩
  have hname : e.Streams 1 (t :: vs) (t' :: vs') :=
    .cons rfl ⟨hk'.trans hk.symm, .renamed rfl, fun hne => absurd hk hne⟩ (by rw [hk]; decide)
      (halong [] List.nil_suffix) (fun h => by cases hk.symm.trans h) hbehind
  have hdocsWs : DocsEnded (ws ++ t :: vs) := List.IsChain.suffix hdocs (suffix_append_right hws _)
  exact hname.append (fun u hu => hus u (hws.subset hu)) hdocsWs fun ws' hws' => halong ws' (hws'.trans hws)

include hdoc

theorem exists_of_rename (hk : t.kind = .identifier) (hk' : t'.kind = .identifier) :
    ∃ doc', Document.ofTokens (us ++ t' :: vs') = .ok doc' ∧
      (rename t.value t'.value (us ++ t :: vs) (us ++ t' :: vs')).Documents 1 doc doc' := by
  have hstreams := streams_of_rename hend hdocs hforms List.suffix_rfl hk hk'
  rcases hstreams.ofTokens hdoc with ⟨doc', hdoc', h⟩ | ⟨_, _, hstray, -⟩
  · exact ⟨doc', hdoc', h⟩
  · cases hstray

theorem exists_of_forbid (hk : t.kind = .identifier) (hk' : t'.kind ∈ wordKinds) :
    ∃ cause, Document.ofTokens (us ++ t' :: vs') = .error (.misplaced cause t') := by
  have hus := hend.ne_eof_of_mem_front
  have hbehind : (forbid t').Streams 0 vs vs' :=
    streams_of_forms ((hend.of_append hus).tail (by rw [hk]; decide))
      (List.isChain_append.1 hdocs).2.1.tail hforms fun _ _ _ _ _ => trivial
  have hname : (forbid t').Streams 1 (t :: vs) (t' :: vs') := .forbidden rfl hk hk' hbehind
  rcases (hname.append hus hdocs fun _ _ => trivial).ofTokens hdoc with
    ⟨doc', -, h⟩ | ⟨stray, cause, hstray, herror⟩
  · cases h.not_forbid
  · cases hstray
    exact ⟨cause, herror⟩

/-- Documentation on a line of its own in front of a name or of the word of an alias. -/
theorem exists_of_annotate {stray line : Token} (hform : t'.form = t.form)
    (hk : t.kind = .identifier ∨ t.kind = .type) (hs : stray.kind = .docComment) (hv : stray.value ≠ "")
    (hl : line.kind = .newline) :
    (∃ doc', Document.ofTokens (us ++ stray :: line :: t' :: vs') = .ok doc' ∧
      (annotate stray).Documents 1 doc doc') ∨
    ∃ cause, Document.ofTokens (us ++ stray :: line :: t' :: vs') = .error (.misplaced cause stray) := by
  have hus := hend.ne_eof_of_mem_front
  have hsame : (annotate stray).Streams 0 (t :: vs) (t' :: vs') :=
    streams_of_forms (hend.of_append hus) (List.isChain_append.1 hdocs).2.1
      (by rw [List.map_cons, List.map_cons, hform, hforms]) fun _ _ _ _ _ => trivial
  have hname : (annotate stray).Streams 1 (t :: vs) (stray :: line :: t' :: vs') :=
    .annotated rfl hk hs hv hl hsame
  rcases (hname.append hus hdocs fun _ _ => trivial).ofTokens hdoc with
    hok | ⟨stray', cause, hstray, herror⟩
  · exact .inl hok
  · cases hstray
    exact .inr ⟨cause, herror⟩

end Tokens

end Edit

/-! ## Documents -/

/-- The documentation at a spot is read in one of two ways. -/
theorem Spot.exists_isDocReader (spot : Spot) : ∃ make, Edit.IsDocReader spot.reader make := by
  obtain ⟨i, member⟩ := spot
  cases member with
  | none => exact ⟨_, Edit.isDocReader_declarationDoc⟩
  | some j => exact ⟨_, Edit.isDocReader_memberDoc⟩

theorem Spot.reader_of_ne {spot : Spot} {ts : TokenStream} (h : ts.current.kind ≠ .docComment) :
    spot.reader ts = .done none ts := by
  obtain ⟨make, hreader⟩ := spot.exists_isDocReader
  exact hreader.none_of_ne h

/-! ## Schemas -/

namespace TypeExpr

mutual

theorem unplaced_eq_relocate : (t : TypeExpr) → t.unplaced = t.relocate fun _ => .start
  | .any _ | .boolean _ | .string .. | .numeric .. | .literal .. | .primitiveArray .. | .enum ..
  | .absent | .foreign .. => rfl
  | .list _ element _ => by rw [unplaced, relocate, unplaced_eq_relocate element]
  | .tuple _ elements => by rw [unplaced, relocate, unplacedAll_eq_relocateAll elements]
  | .union _ members => by rw [unplaced, relocate, unplacedAll_eq_relocateAll members]
  | .reference _ _ arguments => by rw [unplaced, relocate, unplacedAll_eq_relocateAll arguments]
  | .indexed _ base _ => by rw [unplaced, relocate, unplaced_eq_relocate base]
  | .struct _ fields spreads => by
    rw [unplaced, relocate, unplacedFields_eq_relocateFields fields, unplacedAll_eq_relocateAll spreads]

theorem unplacedAll_eq_relocateAll :
    (ts : List TypeExpr) → unplacedAll ts = relocateAll (fun _ => .start) ts
  | [] => rfl
  | t :: ts => by rw [unplacedAll, relocateAll, unplaced_eq_relocate t, unplacedAll_eq_relocateAll ts]

theorem unplacedFields_eq_relocateFields :
    (fields : List (Field TypeExpr)) → unplacedFields fields = relocateFields (fun _ => .start) fields
  | [] => rfl
  | ⟨_, type, _, _⟩ :: fields => by
    rw [unplacedFields, relocateFields, unplaced_eq_relocate type, unplacedFields_eq_relocateFields fields]

end

end TypeExpr

theorem Field.unplaced_eq_relocate (f : Field TypeExpr) : f.unplaced = f.relocate fun _ => .start := by
  rw [unplaced, relocate, TypeExpr.unplaced_eq_relocate]

theorem Declaration.unplaced_eq_relocate (decl : Declaration) :
    decl.unplaced = decl.relocate fun _ => .start := by
  cases decl with
  | «alias» | anonymous | dispatch =>
    simp only [unplaced, relocate, Alias.relocate, TypeExpr.unplaced_eq_relocate]
  | use => rfl
  | injection => rw [unplaced, relocate, funext Field.unplaced_eq_relocate]

/-- Paths have no part in what can be converted. -/
theorem TypeExpr.fault?_repath (pos : Position) (path : String) (t : TypeExpr) :
    Schema.fault? (t.repath pos path).toSchema = Schema.fault? t.toSchema := by
  induction t using induction_on_parts with
  | step t ih =>
    have hparts : (t.repath pos path).convertedParts = t.convertedParts.map (repath pos path) := by
      cases t <;> simp [repath, convertedParts, parts, repathAll_eq, repathFields_eq, Field.repath,
        Function.comp_def]
    have hlengths : (t.repath pos path).lengths = t.lengths := by
      cases t <;> rfl
    have hfind : (t.convertedParts.map (repath pos path)).findSome? (fun u => Schema.fault? u.toSchema) =
        t.convertedParts.findSome? fun u => Schema.fault? u.toSchema := by
      rw [List.findSome?_map, ← List.head?_filterMap, ← List.head?_filterMap]
      exact congrArg List.head? (List.filterMap_congr fun u hu => ih u (convertedParts_subset t hu))
    rw [fault?_toSchema, fault?_toSchema, hparts, hlengths, hfind]

theorem TypeExpr.anonymousSort?_repath (t : TypeExpr) (pos : Position) (path : String) :
    Generator.anonymousSort? (t.repath pos path) = Generator.anonymousSort? t := by
  cases t <;> rfl

theorem map_modify_of_eq {α β : Type} {f : α → β} {g : α → α} (h : ∀ a, f (g a) = f a) (l : List α)
    (i : Nat) : (l.modify i g).map f = l.map f := by
  apply List.ext_getElem?
  intro j
  rw [List.getElem?_map, List.getElem?_modify, List.getElem?_map]
  cases l[j]? with
  | none => rfl
  | some a => by_cases hij : i = j <;> simp [hij, h]

namespace Declaration

theorem isOk_eq (x : Except LengthFault Json) : x.isOk = (Schema.fault? x).isNone := by
  cases x <;> rfl

theorem fails_repath (pos : Position) (path : String) (decl : Declaration) :
    (decl.repath pos path).fails = decl.fails := by
  cases decl with
  | «alias» named =>
    simp only [fails, repath, definition?, isOk_eq, TypeExpr.fault?_repath]
  | anonymous type =>
    simp only [fails, repath, definition?, type.anonymousSort?_repath]
    cases Generator.anonymousSort? type with
    | none => rfl
    | some sort => simp only [Option.map_some, isOk_eq, TypeExpr.fault?_repath]
  | _ => rfl

theorem fails_setLabel (label : Label) (member : Option Nat) (decl : Declaration) :
    (decl.setLabel label member).fails = decl.fails := by
  cases decl with
  | «alias» named => cases member <;> rfl
  | anonymous type =>
    cases type with
    | struct pos fields spreads =>
      cases member with
      | none => rfl
      | some j =>
        let fields' := fields.modify j fun f => { f with name := label.name, doc := label.doc }
        have htypes : fields'.map Field.type = fields.map Field.type := by
          apply map_modify_of_eq
          exact fun _ => rfl
        have hparts : ∀ fields, (TypeExpr.struct pos fields spreads).convertedParts =
            fields.map Field.type ++ spreads := fun _ => rfl
        have hfault : Schema.fault? (TypeExpr.struct pos fields' spreads).toSchema =
            Schema.fault? (TypeExpr.struct pos fields spreads).toSchema := by
          rw [TypeExpr.fault?_toSchema, TypeExpr.fault?_toSchema, hparts, hparts, htypes]
          rfl
        show (!(TypeExpr.struct pos fields' spreads).toSchema.isOk) =
          !(TypeExpr.struct pos fields spreads).toSchema.isOk
        rw [isOk_eq, isOk_eq, hfault]
    | enum => cases member <;> rfl
    | _ => cases member <;> rfl
  | _ => cases member <;> rfl

end Declaration

namespace Generator

variable {g : Generator} {doc doc' : Document}

theorem generate_of_unplaced (h : doc'.unplaced = doc.unplaced) :
    (g.generate doc').1 = (g.generate doc).1 := by
  have hdecls : ∀ doc : Document, (g.definitions [] doc.unplaced.declarations).1 =
      (g.definitions [] doc.declarations).1 := by
    intro doc
    rw [Document.unplaced, funext Declaration.unplaced_eq_relocate]
    exact definitions_relocate _ rfl [] doc.declarations
  rw [generate_fst, generate_fst, ← hdecls doc', h, hdecls doc]

theorem definitions_isOk (g : Generator) (found : Fields Json) (decls : List Declaration) :
    (g.definitions found decls).1.isOk = decls.all fun decl => !decl.fails := by
  induction decls generalizing g found with
  | nil => rfl
  | cons decl decls ih =>
    rcases g.definitions_cons_cases found decl with
      ⟨name, type, fault, -, -, hfails, hrun⟩ | ⟨hfails, found', hrun, -⟩
    · rw [hrun, List.all_cons, hfails]
      rfl
    · rw [hrun, List.all_cons, hfails]
      exact ih (g.meet decl) found'

theorem generate_isOk (g : Generator) (doc : Document) :
    (g.generate doc).1.isOk = doc.declarations.all fun decl => !decl.fails := by
  rw [generate_fst, ← definitions_isOk g []]
  cases (g.definitions [] doc.declarations).1 <;> rfl

theorem generate_repath_isOk (g : Generator) (doc : Document) (pos : Position) (path : String) :
    (g.generate (doc.repath pos path)).1.isOk = (g.generate doc).1.isOk := by
  rw [generate_isOk, generate_isOk, Document.repath, List.all_map]
  simp only [Function.comp_def, Declaration.fails_repath]

theorem generate_setLabel_isOk (g : Generator) (doc : Document) (spot : Spot) (label : Label) :
    (g.generate (doc.setLabel spot label)).1.isOk = (g.generate doc).1.isOk := by
  have hfails : (doc.setLabel spot label).declarations.map Declaration.fails =
      doc.declarations.map Declaration.fails :=
    map_modify_of_eq (Declaration.fails_setLabel label spot.member) _ _
  have hall : ∀ decls : List Declaration, (decls.all fun decl => !decl.fails) =
      (decls.map Declaration.fails).all (! ·) := by
    intro decls
    rw [List.all_map]
    rfl
  rw [generate_isOk, generate_isOk, hall, hfails, ← hall]

end Generator

end McdocSchema
