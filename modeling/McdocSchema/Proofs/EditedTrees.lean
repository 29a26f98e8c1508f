import McdocSchema.Proofs.CompiledShape
import McdocSchema.Proofs.EditedRuns
import McdocSchema.Proofs.SpotRuns
import McdocSchema.Proofs.Unplaced

/-!
# What an edit changes

The relations between the trees before and after an edit say where the edit is found by their grades. Here
they are turned into equations. Without a grade the trees are the same but for positions. With the grade
one the documents differ in one place, in a label (`Documents.unplaced_eq_setLabel`) or in the path of a
reference (`Documents.unplaced_eq_repath`).
-/

namespace McdocSchema

/-! ## References with another path -/

namespace TypeExpr

mutual

/-- The type with another path for the reference at a position. -/
def repath (pos : Position) (path : String) : TypeExpr → TypeExpr
  | .list p element size => .list p (repath pos path element) size
  | .tuple p elements => .tuple p (repathAll pos path elements)
  | .union p members => .union p (repathAll pos path members)
  | .reference p s arguments =>
    .reference p (if p = pos then path else s) (repathAll pos path arguments)
  | .indexed p base indices => .indexed p (repath pos path base) indices
  | .struct p fields spreads => .struct p (repathFields pos path fields) (repathAll pos path spreads)
  | t => t

/-- The types with another path for the reference at a position. -/
def repathAll (pos : Position) (path : String) : List TypeExpr → List TypeExpr
  | [] => []
  | t :: ts => repath pos path t :: repathAll pos path ts

/-- The fields with another path for the reference at a position. -/
def repathFields (pos : Position) (path : String) : List (Field TypeExpr) → List (Field TypeExpr)
  | [] => []
  | ⟨name, type, optional, doc⟩ :: fields =>
    ⟨name, repath pos path type, optional, doc⟩ :: repathFields pos path fields

end

variable {pos : Position} {path : String}

theorem repathAll_eq (ts : List TypeExpr) : repathAll pos path ts = ts.map (repath pos path) := by
  induction ts with
  | nil => rfl
  | cons t ts ih => rw [repathAll, ih, List.map_cons]

def isReferenceAt (pos : Position) : TypeExpr → Bool
  | .reference p _ _ => p == pos
  | _ => false

/-- The number of references at a position. -/
def referencesAt (pos : Position) (t : TypeExpr) : Nat :=
  (t.parts.attach.map fun u =>
    have := sizeOf_lt_of_mem_parts u.2
    referencesAt pos u.1).sum + (t.isReferenceAt pos).toNat
termination_by sizeOf t

theorem referencesAt_eq (t : TypeExpr) :
    t.referencesAt pos = (t.parts.map (referencesAt pos)).sum + (t.isReferenceAt pos).toNat := by
  rw [referencesAt, List.map_subtype (g := referencesAt pos) fun _ _ => rfl, List.unattach_attach]

/-- A reference that occurs in a type is counted. -/
theorem OccursIn.referencesAt_pos {t u : TypeExpr} (h : u.OccursIn t)
    (hu : u.isReferenceAt pos = true) : 0 < t.referencesAt pos := by
  induction h with
  | refl =>
    rw [referencesAt_eq, hu]
    exact Nat.succ_pos _
  | tail _ hpart ih =>
    rw [referencesAt_eq]
    have hmem := List.mem_map_of_mem (f := referencesAt pos) hpart
    have hle := List.single_le_sum (fun _ _ => Nat.zero_le _) _ hmem
    exact Nat.add_pos_left (Nat.lt_of_lt_of_le ih hle) _

end TypeExpr

/-- The field with another path for the reference at a position. -/
def Field.repath (pos : Position) (path : String) (f : Field TypeExpr) : Field TypeExpr :=
  { f with type := f.type.repath pos path }

theorem TypeExpr.repathFields_eq {pos : Position} {path : String} (fields : List (Field TypeExpr)) :
    repathFields pos path fields = fields.map (Field.repath pos path) := by
  induction fields with
  | nil => rfl
  | cons f fields ih => rw [repathFields, ih, List.map_cons, Field.repath]

/-- The declaration with another path for the reference at a position. -/
def Declaration.repath (pos : Position) (path : String) : Declaration → Declaration
  | .alias decl => .alias { decl with target := decl.target.repath pos path }
  | .anonymous type => .anonymous (type.repath pos path)
  | .dispatch p dispatcher indices target => .dispatch p dispatcher indices (target.repath pos path)
  | .use p s name => .use p s name
  | .injection p s fields => .injection p s (fields.map (Field.repath pos path))

/-- The document with another path for the reference at a position. -/
def Document.repath (doc : Document) (pos : Position) (path : String) : Document :=
  { doc with declarations := doc.declarations.map (Declaration.repath pos path) }

/-- The number of references at a position in a declaration. -/
def Declaration.referencesAt (pos : Position) (decl : Declaration) : Nat :=
  (decl.types.map (TypeExpr.referencesAt pos)).sum

namespace Edit

variable {e : Edit} {n m : Nat} {α β γ : Type} {T : Nat → α → β → Prop}

/-! ## Lists -/

/-- A count of what is changed in the entries is at most the grade of the lists; if there are no other
changes, the second list is known. -/
theorem Lists.counted (count : α → Nat) {f : α → γ} {g : β → γ} {as : List α} {bs : List β}
    (h : Lists T n as bs)
    (hT : ∀ a ∈ as, ∀ m b, T m a b → count a ≤ m ∧ (count a = m → g b = f a)) :
    (as.map count).sum ≤ n ∧ ((as.map count).sum = n → bs.map g = as.map f) := by
  induction h with
  | nil => exact ⟨Nat.le_refl 0, fun _ => rfl⟩
  | @cons n m k a b as bs hn hab _ ih =>
    obtain ⟨hle, heq⟩ := hT a List.mem_cons_self m b hab
    obtain ⟨hle', heq'⟩ := ih fun a ha => hT a (List.mem_cons_of_mem _ ha)
    simp only [List.map_cons, List.sum_cons]
    refine ⟨by omega, fun hsum => ?_⟩
    rw [heq (by omega), heq' (by omega)]

theorem Lists.map_eq {f : α → γ} {g : β → γ} {as : List α} {bs : List β} (h : Lists T 0 as bs)
    (hT : ∀ a ∈ as, ∀ b, T 0 a b → g b = f a) : bs.map g = as.map f := by
  have hcounted := h.counted (fun _ => 0) (f := f) (g := g)
    fun a ha m b hab => ⟨Nat.zero_le m, fun hm => hT a ha b (hm ▸ hab)⟩
  exact hcounted.2 (by simp)

theorem Lists.eq {T : Nat → α → α → Prop} {as bs : List α} (h : Lists T 0 as bs)
    (hT : ∀ a b, T 0 a b → b = a) : bs = as := by
  have hmap := h.map_eq (f := id) (g := id) fun a _ b hab => hT a b hab
  rwa [List.map_id, List.map_id] at hmap

theorem Lists.grade_eq_zero {as : List α} {bs : List β} (h : Lists T n as bs)
    (hT : ∀ a ∈ as, ∀ m b, T m a b → m = 0) : n = 0 := by
  induction h with
  | nil => rfl
  | cons hn hab _ ih =>
    have hm := hT _ List.mem_cons_self _ _ hab
    have hk := ih fun a ha => hT a (List.mem_cons_of_mem _ ha)
    omega

theorem Lists.exists_of_getElem? {as : List α} {bs : List β} {a : α} {b : β} {i : Nat}
    (h : Lists T n as bs) (ha : as[i]? = some a) (hb : bs[i]? = some b) : ∃ m ≤ n, T m a b := by
  induction h generalizing i with
  | nil => cases ha
  | @cons n m k x y as bs hn hxy _ ih =>
    cases i with
    | zero =>
      obtain rfl : x = a := by simpa using ha
      obtain rfl : y = b := by simpa using hb
      exact ⟨m, by omega, hxy⟩
    | succ i =>
      obtain ⟨l, hl, hab⟩ := ih ha hb
      exact ⟨l, by omega, hab⟩

theorem Lists.map_eq_modify {T : Nat → α → α → Prop} {as bs : List α} {a b : α} {i : Nat} {u : α → γ}
    {g : α → α} (h : Lists T 1 as bs) (ha : as[i]? = some a) (hb : bs[i]? = some b) (hne : ¬ T 0 a b)
    (hsame : ∀ x y, T 0 x y → u y = u x) (hset : T 1 a b → u b = u (g a)) :
    bs.map u = (as.modify i g).map u := by
  induction i generalizing as bs with
  | zero =>
    cases h with
    | @cons _ m k x y as bs hn hxy hs =>
      obtain rfl : x = a := by simpa using ha
      obtain rfl : y = b := by simpa using hb
      have hm : m ≠ 0 := by
        rintro rfl
        exact hne hxy
      obtain rfl : m = 1 := by omega
      obtain rfl : k = 0 := by omega
      rw [List.modify_zero_cons, List.map_cons, List.map_cons, hset hxy,
        hs.map_eq fun x _ y hxy => hsame x y hxy]
  | succ i ih =>
    cases h with
    | @cons _ m k x y as bs hn hxy hs =>
      rw [List.getElem?_cons_succ] at ha hb
      have hk : k ≠ 0 := by
        rintro rfl
        obtain ⟨l, hl, hab⟩ := hs.exists_of_getElem? ha hb
        obtain rfl : l = 0 := Nat.le_zero.1 hl
        exact hne hab
      obtain rfl : k = 1 := by omega
      obtain rfl : m = 0 := by omega
      rw [List.modify_succ_cons, List.map_cons, List.map_cons, hsame x y hxy, ih hs ha hb]

/-! ## Trees without changes -/

theorem Docs.eq {doc doc' : Option String} (h : e.Docs 0 doc doc') : doc' = doc := by
  cases h
  rfl

theorem Paths.eq {s s' : String} (h : e.Paths 0 s s') : s' = s := by
  obtain ⟨names, names', rfl, rfl, hnames⟩ := h
  rw [hnames.eq fun _ _ => Names.eq]

theorem Keys.eq {key key' : Index} (h : e.Keys 0 key key') : key' = key := by
  cases h with
  | key h => rw [h.eq]

theorem Types.unplaced_eq {t t' : TypeExpr} (h : e.Types 0 t t') : t'.unplaced = t.unplaced := by
  induction t using TypeExpr.induction_on_parts generalizing t' with
  | step t ih =>
    have hparts : ∀ {ts' : List TypeExpr}, Lists e.Types 0 t.parts ts' →
        ts'.map TypeExpr.unplaced = t.parts.map TypeExpr.unplaced :=
      fun h => h.map_eq fun u hu u' hu' => ih u hu hu'
    cases h with
    | any | boolean | string | numeric | literal => rfl
    | list _ h => rw [TypeExpr.unplaced, TypeExpr.unplaced, ih _ (by simp [TypeExpr.parts]) h]
    | tuple _ h | union _ h =>
      rw [TypeExpr.unplaced, TypeExpr.unplaced, TypeExpr.unplacedAll_eq, TypeExpr.unplacedAll_eq]
      exact congrArg _ (hparts h)
    | @reference _ m k _ _ _ _ _ _ hn _ hs h =>
      obtain rfl : m = 0 := by omega
      obtain rfl : k = 0 := by omega
      rw [TypeExpr.unplaced, TypeExpr.unplaced, TypeExpr.unplacedAll_eq, TypeExpr.unplacedAll_eq, hs.eq]
      exact congrArg _ (hparts h)
    | @indexed _ m k _ _ _ _ _ _ hn _ h hk =>
      obtain rfl : m = 0 := by omega
      obtain rfl : k = 0 := by omega
      rw [TypeExpr.unplaced, TypeExpr.unplaced, ih _ (by simp [TypeExpr.parts]) h,
        hk.eq fun _ _ => Keys.eq]

theorem Fields.unplaced_eq {f f' : Field TypeExpr} (h : e.Fields 0 f f') : f'.unplaced = f.unplaced := by
  cases h with
  | @field m k j _ _ _ _ _ _ hn hname ht hdoc =>
    obtain rfl : m = 0 := by omega
    obtain rfl : k = 0 := by omega
    obtain rfl : j = 0 := by omega
    rw [Field.unplaced, Field.unplaced, ht.unplaced_eq, hname.eq, hdoc.eq]

theorem Variants.eq {v v' : Variant} (h : e.Variants 0 v v') : v' = v := by
  cases h with
  | @variant m k _ _ _ _ hn hname hdoc =>
    obtain rfl : m = 0 := by omega
    obtain rfl : k = 0 := by omega
    rw [hname.eq, hdoc.eq]

theorem Declarations.unplaced_eq {decl decl' : Declaration} (h : e.Declarations 0 decl decl') :
    decl'.unplaced = decl.unplaced := by
  cases h with
  | @«alias» m k j i _ _ _ _ _ _ _ _ _ _ hn _ hname hps ht hdoc =>
    obtain ⟨rfl, rfl, rfl, rfl⟩ : m = 0 ∧ k = 0 ∧ j = 0 ∧ i = 0 := by omega
    rw [Declaration.unplaced, Declaration.unplaced, hname.eq, hps.eq fun _ _ => Names.eq, hdoc.eq,
      ht.unplaced_eq]
  | @struct m k _ _ _ _ _ _ hn _ hf hs =>
    obtain ⟨rfl, rfl⟩ : m = 0 ∧ k = 0 := by omega
    rw [Declaration.unplaced, Declaration.unplaced, TypeExpr.unplaced, TypeExpr.unplaced,
      TypeExpr.unplacedFields_eq, TypeExpr.unplacedFields_eq, TypeExpr.unplacedAll_eq,
      TypeExpr.unplacedAll_eq, hf.map_eq fun _ _ _ => Fields.unplaced_eq,
      hs.map_eq fun _ _ _ => Types.unplaced_eq]
  | enum _ hv =>
    rw [Declaration.unplaced, Declaration.unplaced, TypeExpr.unplaced, TypeExpr.unplaced,
      hv.eq fun _ _ => Variants.eq]
  | @dispatch m k j _ _ _ _ _ _ _ _ hn _ hname hk ht =>
    obtain ⟨rfl, rfl, rfl⟩ : m = 0 ∧ k = 0 ∧ j = 0 := by omega
    rw [Declaration.unplaced, Declaration.unplaced, hname.eq, hk.eq fun _ _ => Names.eq, ht.unplaced_eq]

theorem Documents.unplaced_eq {doc doc' : Document} (h : e.Documents 0 doc doc') :
    doc'.unplaced = doc.unplaced := by
  rw [Document.unplaced, Document.unplaced, h.docs,
    h.declarations.map_eq fun _ _ _ => Declarations.unplaced_eq]

/-! ## Keywords -/

section Forbid

variable {stray : Token}

theorem Names.not_forbid {s s' : String} (h : (forbid stray).Names n s s') : n = 0 := by
  cases h with
  | same => rfl
  | renamed he => cases he

theorem Docs.not_forbid {doc doc' : Option String} (h : (forbid stray).Docs n doc doc') : n = 0 := by
  cases h with
  | same => rfl
  | annotated he => cases he

theorem Types.not_forbid {t t' : TypeExpr} (h : (forbid stray).Types n t t') : n = 0 := by
  induction t using TypeExpr.induction_on_parts generalizing n t' with
  | step t ih =>
    have hparts : ∀ {k : Nat} {ts' : List TypeExpr}, Lists (forbid stray).Types k t.parts ts' → k = 0 :=
      fun h => h.grade_eq_zero fun u hu m u' hu' => ih u hu hu'
    cases h with
    | any | boolean | string | numeric | literal => rfl
    | list _ h => exact ih _ (by simp [TypeExpr.parts]) h
    | tuple _ h | union _ h => exact hparts h
    | reference hn _ hs h =>
      obtain ⟨_, _, -, -, hnames⟩ := hs
      have hm := hnames.grade_eq_zero fun _ _ _ _ => Names.not_forbid
      have hk := hparts h
      omega
    | indexed hn _ h hk =>
      have hm := ih _ (by simp [TypeExpr.parts]) h
      have hk := hk.grade_eq_zero fun _ _ _ _ hkey => by
        cases hkey with
        | key h => exact h.not_forbid
      omega

theorem Declarations.not_forbid {decl decl' : Declaration}
    (h : (forbid stray).Declarations n decl decl') : n = 0 := by
  cases h with
  | «alias» hn _ hname hps ht hdoc =>
    have hm := hname.not_forbid
    have hk := hps.grade_eq_zero fun _ _ _ _ => Names.not_forbid
    have hj := ht.not_forbid
    have hi := hdoc.not_forbid
    omega
  | struct hn _ hf hs =>
    have hm := hf.grade_eq_zero fun _ _ _ _ hfield => by
      cases hfield with
      | field hn hname ht hdoc =>
        have hm := hname.not_forbid
        have hk := ht.not_forbid
        have hj := hdoc.not_forbid
        omega
    have hk := hs.grade_eq_zero fun _ _ _ _ => Types.not_forbid
    omega
  | enum _ hv =>
    exact hv.grade_eq_zero fun _ _ _ _ hvariant => by
      cases hvariant with
      | variant hn hname hdoc =>
        have hm := hname.not_forbid
        have hk := hdoc.not_forbid
        omega
  | dispatch hn _ hname hk ht =>
    have hm := hname.not_forbid
    have hk := hk.grade_eq_zero fun _ _ _ _ => Names.not_forbid
    have hj := ht.not_forbid
    omega

/-- No document has a keyword for a name. -/
theorem Documents.not_forbid {doc doc' : Document} (h : (forbid stray).Documents n doc doc') : n = 0 :=
  h.declarations.grade_eq_zero fun _ _ _ _ => Declarations.not_forbid

end Forbid

/-! ## Labels -/

theorem Fields.unplaced_of_label_ne {f f' : Field TypeExpr} (h : e.Fields 1 f f')
    (hne : Label.mk f.name f.doc ≠ ⟨f'.name, f'.doc⟩) :
    f'.unplaced = Field.unplaced { f with name := f'.name, doc := f'.doc } := by
  cases h with
  | @field m k j _ _ _ _ _ _ hn hname ht hdoc =>
    have hk : k = 0 := by
      by_contra hk
      obtain ⟨rfl, rfl⟩ : m = 0 ∧ j = 0 := by omega
      rw [hname.eq, hdoc.eq] at hne
      exact hne rfl
    subst hk
    rw [Field.unplaced, Field.unplaced, ht.unplaced_eq]

theorem Variants.eq_of_label {v v' : Variant} (h : e.Variants n v v') :
    v' = { v with name := v'.name, doc := v'.doc } := by
  cases h
  rfl

/-- A declaration with another label is the same but for the label and positions. -/
theorem Declarations.unplaced_eq_setLabel {decl decl' : Declaration} {member : Option Nat}
    {label label' : Label} (h : e.Declarations 1 decl decl') (hl : decl.label? member = some label)
    (hl' : decl'.label? member = some label') (hne : label ≠ label') :
    decl'.unplaced = (decl.setLabel label' member).unplaced := by
  -- The label takes the whole grade, so nothing is left for the other parts to differ in.
  cases h with
  | @«alias» m k j i _ _ _ _ _ _ _ _ _ _ hn _ hname hps ht hdoc =>
    cases member with
    | some => cases hl
    | none =>
      cases hl
      cases hl'
      have hzero : k = 0 ∧ j = 0 := by
        by_contra hzero
        obtain ⟨rfl, rfl⟩ : m = 0 ∧ i = 0 := by omega
        rw [hname.eq, hdoc.eq] at hne
        exact hne rfl
      obtain ⟨rfl, rfl⟩ := hzero
      rw [Declaration.setLabel, Declaration.unplaced, Declaration.unplaced,
        hps.eq fun _ _ => Names.eq, ht.unplaced_eq]
  | @struct m k _ _ fields fields' _ _ hn _ hf hs =>
    cases member with
    | none => cases hl
    | some i =>
      obtain ⟨f, hfield, rfl⟩ := Option.map_eq_some_iff.1 hl
      obtain ⟨f', hfield', rfl⟩ := Option.map_eq_some_iff.1 hl'
      have hdiffer : ¬ e.Fields 0 f f' := by
        intro h
        have heq := h.unplaced_eq
        rw [Field.unplaced, Field.unplaced, Field.mk.injEq] at heq
        rw [heq.1, heq.2.2.2] at hne
        exact hne rfl
      have hm : m ≠ 0 := by
        rintro rfl
        obtain ⟨l, hl, hff⟩ := hf.exists_of_getElem? hfield hfield'
        obtain rfl : l = 0 := Nat.le_zero.1 hl
        exact hdiffer hff
      obtain ⟨rfl, rfl⟩ : m = 1 ∧ k = 0 := by omega
      have hfields := hf.map_eq_modify
        (g := fun f : Field TypeExpr => { f with name := f'.name, doc := f'.doc }) hfield hfield' hdiffer
        (fun _ _ => Fields.unplaced_eq) fun h => h.unplaced_of_label_ne hne
      rw [Declaration.setLabel, Declaration.unplaced, Declaration.unplaced, TypeExpr.unplaced,
        TypeExpr.unplaced, TypeExpr.unplacedFields_eq, TypeExpr.unplacedFields_eq,
        TypeExpr.unplacedAll_eq, TypeExpr.unplacedAll_eq, hs.map_eq fun _ _ _ => Types.unplaced_eq,
        hfields]
  | @enum _ _ variants variants' _ hv =>
    cases member with
    | none => cases hl
    | some i =>
      obtain ⟨v, hvariant, rfl⟩ := Option.map_eq_some_iff.1 hl
      obtain ⟨v', hvariant', rfl⟩ := Option.map_eq_some_iff.1 hl'
      have hdiffer : ¬ e.Variants 0 v v' := by
        intro h
        rw [h.eq] at hne
        exact hne rfl
      have hvariants := hv.map_eq_modify (u := id)
        (g := fun v : Variant => { v with name := v'.name, doc := v'.doc }) hvariant hvariant' hdiffer
        (fun _ _ => Variants.eq) fun h => h.eq_of_label
      rw [List.map_id, List.map_id] at hvariants
      rw [Declaration.setLabel, Declaration.unplaced, Declaration.unplaced, TypeExpr.unplaced,
        TypeExpr.unplaced, hvariants]
  | dispatch => cases member <;> cases hl

theorem label?_unplaced {member : Option Nat} (decl : Declaration) :
    decl.unplaced.label? member = decl.label? member := by
  cases decl with
  | anonymous type =>
    cases type <;> cases member <;>
      simp [Declaration.unplaced, TypeExpr.unplaced, Declaration.label?, TypeExpr.unplacedFields_eq,
        Function.comp_def, Field.unplaced]
  | _ => cases member <;> rfl

/-- **An edit of a label.** If the labels at a spot differ, then the edit is found there, and otherwise the
documents are the same but for positions. -/
theorem Documents.unplaced_eq_setLabel {doc doc' : Document} {spot : Spot} {label label' : Label}
    (h : e.Documents 1 doc doc') (hl : doc.label? spot = some label)
    (hl' : doc'.label? spot = some label') (hne : label ≠ label') :
    doc'.unplaced = (doc.setLabel spot label').unplaced := by
  obtain ⟨decl, hdecl, hl⟩ := Option.bind_eq_some_iff.1 hl
  obtain ⟨decl', hdecl', hl'⟩ := Option.bind_eq_some_iff.1 hl'
  have hdiffer : ¬ e.Declarations 0 decl decl' := by
    intro h
    have hsame := congrArg (Declaration.label? spot.member) h.unplaced_eq
    rw [label?_unplaced, label?_unplaced, hl, hl'] at hsame
    exact hne (Option.some.inj hsame).symm
  rw [Document.setLabel, Document.unplaced, Document.unplaced, h.docs,
    h.declarations.map_eq_modify hdecl hdecl' hdiffer (fun _ _ => Declarations.unplaced_eq)
      fun h => h.unplaced_eq_setLabel hl hl' hne]

/-! ## References -/

section Repath

variable {pos : Position} {old new : String}

/-- Each reference at a position whose path changes is counted by the grade. -/
theorem Types.counted {t t' : TypeExpr} (h : e.Types n t t')
    (hrefers : ∀ s p' s', e.Refers pos s p' s' → s = old ∧ s' = new) (hne : old ≠ new) :
    t.referencesAt pos ≤ n ∧
      (t.referencesAt pos = n → t'.unplaced = (t.repath pos new).unplaced) := by
  induction t using TypeExpr.induction_on_parts generalizing n t' with
  | step t ih =>
    have hparts : ∀ {k : Nat} {ts' : List TypeExpr}, Lists e.Types k t.parts ts' →
        (t.parts.map (TypeExpr.referencesAt pos)).sum ≤ k ∧
        ((t.parts.map (TypeExpr.referencesAt pos)).sum = k →
          ts'.map TypeExpr.unplaced = t.parts.map fun u => (u.repath pos new).unplaced) :=
      fun h => h.counted _ fun u hu m u' hu' => ih u hu hu'
    rw [TypeExpr.referencesAt_eq]
    cases h with
    | any | boolean | string | numeric | literal => exact ⟨Nat.le_refl 0, fun _ => rfl⟩
    | list _ h =>
      obtain ⟨hle, heq⟩ := ih _ (by simp [TypeExpr.parts]) h
      simp only [TypeExpr.parts, List.map_singleton, List.sum_singleton, TypeExpr.isReferenceAt,
        Bool.toNat_false, Nat.add_zero]
      refine ⟨hle, fun hn => ?_⟩
      rw [TypeExpr.repath, TypeExpr.unplaced, TypeExpr.unplaced, heq hn]
    | tuple _ h | union _ h =>
      obtain ⟨hle, heq⟩ := hparts h
      simp only [TypeExpr.isReferenceAt, Bool.toNat_false, Nat.add_zero]
      refine ⟨hle, fun hn => ?_⟩
      rw [TypeExpr.repath, TypeExpr.unplaced, TypeExpr.unplaced, TypeExpr.unplacedAll_eq,
        TypeExpr.unplacedAll_eq, TypeExpr.repathAll_eq, List.map_map]
      exact congrArg _ (heq hn)
    | @reference _ m k p p' path path' arguments _ hn hr hs h =>
      obtain ⟨hle, heq⟩ := hparts h
      -- A reference at the position changes its path, which takes at least one of the grade.
      have hown : (TypeExpr.isReferenceAt pos (.reference p path arguments)).toNat ≤ m ∧
          ((TypeExpr.isReferenceAt pos (.reference p path arguments)).toNat = m →
            path' = if p = pos then new else path) := by
        by_cases hp : p = pos
        · subst hp
          obtain ⟨rfl, rfl⟩ := hrefers _ _ _ hr
          have hm : m ≠ 0 := by
            rintro rfl
            exact hne hs.eq.symm
          rw [TypeExpr.isReferenceAt, beq_self_eq_true, Bool.toNat_true, if_pos rfl]
          exact ⟨by omega, fun _ => rfl⟩
        · simp only [TypeExpr.isReferenceAt, beq_eq_false_iff_ne.2 hp, Bool.toNat_false, if_neg hp]
          refine ⟨Nat.zero_le m, ?_⟩
          rintro rfl
          exact hs.eq
      refine ⟨by omega, fun hsum => ?_⟩
      rw [TypeExpr.repath, TypeExpr.unplaced, TypeExpr.unplaced, TypeExpr.unplacedAll_eq,
        TypeExpr.unplacedAll_eq, TypeExpr.repathAll_eq, List.map_map, ← hown.2 (by omega)]
      exact congrArg _ (heq (by omega))
    | @indexed _ m k _ _ _ _ _ _ hn _ h hk =>
      obtain ⟨hle, heq⟩ := ih _ (by simp [TypeExpr.parts]) h
      simp only [TypeExpr.parts, List.map_singleton, List.sum_singleton, TypeExpr.isReferenceAt,
        Bool.toNat_false, Nat.add_zero]
      refine ⟨by omega, fun hsum => ?_⟩
      obtain rfl : k = 0 := by omega
      rw [TypeExpr.repath, TypeExpr.unplaced, TypeExpr.unplaced, heq (by omega),
        hk.eq fun _ _ => Keys.eq]

theorem Fields.counted {f f' : Field TypeExpr} (h : e.Fields n f f')
    (hrefers : ∀ s p' s', e.Refers pos s p' s' → s = old ∧ s' = new) (hne : old ≠ new) :
    f.type.referencesAt pos ≤ n ∧
      (f.type.referencesAt pos = n → f'.unplaced = (f.repath pos new).unplaced) := by
  cases h with
  | @field m k j _ _ _ _ _ _ hn hname ht hdoc =>
    obtain ⟨hle, heq⟩ := ht.counted hrefers hne
    dsimp only
    refine ⟨by omega, fun hsum => ?_⟩
    obtain ⟨rfl, rfl⟩ : m = 0 ∧ j = 0 := by omega
    rw [Field.repath, Field.unplaced, Field.unplaced, heq (by omega), hname.eq, hdoc.eq]

theorem Declarations.counted {decl decl' : Declaration} (h : e.Declarations n decl decl')
    (hrefers : ∀ s p' s', e.Refers pos s p' s' → s = old ∧ s' = new) (hne : old ≠ new) :
    decl.referencesAt pos ≤ n ∧
      (decl.referencesAt pos = n → decl'.unplaced = (decl.repath pos new).unplaced) := by
  cases h with
  | @«alias» m k j i _ _ _ _ _ _ _ _ _ _ hn _ hname hps ht hdoc =>
    obtain ⟨hle, heq⟩ := ht.counted hrefers hne
    simp only [Declaration.referencesAt, Declaration.types, List.map_singleton, List.sum_singleton]
    refine ⟨by omega, fun hsum => ?_⟩
    obtain ⟨rfl, rfl, rfl⟩ : m = 0 ∧ k = 0 ∧ i = 0 := by omega
    rw [Declaration.repath, Declaration.unplaced, Declaration.unplaced, hname.eq,
      hps.eq fun _ _ => Names.eq, hdoc.eq, heq (by omega)]
  | @struct m k _ _ _ _ _ _ hn _ hf hs =>
    obtain ⟨hle, heq⟩ := hf.counted (TypeExpr.referencesAt pos ∘ Field.type) fun _ _ _ _ h =>
      h.counted hrefers hne
    obtain ⟨hle', heq'⟩ := hs.counted (TypeExpr.referencesAt pos) fun _ _ _ _ h =>
      h.counted hrefers hne
    simp only [Declaration.referencesAt, Declaration.types, TypeExpr.parts, List.map_append, List.map_map,
      List.sum_append]
    refine ⟨by omega, fun hsum => ?_⟩
    rw [Declaration.repath, TypeExpr.repath, Declaration.unplaced, Declaration.unplaced,
      TypeExpr.unplaced, TypeExpr.unplaced, TypeExpr.unplacedFields_eq, TypeExpr.unplacedFields_eq,
      TypeExpr.unplacedAll_eq, TypeExpr.unplacedAll_eq, TypeExpr.repathAll_eq, TypeExpr.repathFields_eq,
      List.map_map, List.map_map, heq (by omega), heq' (by omega)]
    rfl
  | @enum _ _ _ _ _ hv =>
    refine ⟨Nat.zero_le _, fun hsum => ?_⟩
    have hzero : n = 0 := hsum.symm
    subst hzero
    rw [hv.eq fun _ _ => Variants.eq]
    rfl
  | @dispatch m k j _ _ _ _ _ _ _ _ hn _ hname hk ht =>
    obtain ⟨hle, heq⟩ := ht.counted hrefers hne
    simp only [Declaration.referencesAt, Declaration.types, List.map_singleton, List.sum_singleton]
    refine ⟨by omega, fun hsum => ?_⟩
    obtain ⟨rfl, rfl⟩ : m = 0 ∧ k = 0 := by omega
    rw [Declaration.repath, Declaration.unplaced, Declaration.unplaced, hname.eq,
      hk.eq fun _ _ => Names.eq, heq (by omega)]

/-- **An edit of a path.** If a reference gets another path, then the edit is found there, and otherwise
the documents are the same but for positions. -/
theorem Documents.unplaced_eq_repath {doc doc' : Document} {decl : Declaration} {t : TypeExpr}
    {arguments : List TypeExpr} (h : e.Documents 1 doc doc')
    (hrefers : ∀ s p' s', e.Refers pos s p' s' → s = old ∧ s' = new) (hne : old ≠ new)
    (hdecl : decl ∈ doc.declarations) (ht : t ∈ decl.types)
    (hoccurs : (TypeExpr.reference pos old arguments).OccursIn t) :
    doc'.unplaced = (doc.repath pos new).unplaced := by
  obtain ⟨hle, heq⟩ := h.declarations.counted (Declaration.referencesAt pos) fun _ _ _ _ h =>
    h.counted hrefers hne
  have hcount : 0 < (doc.declarations.map (Declaration.referencesAt pos)).sum := by
    have hat := hoccurs.referencesAt_pos (beq_self_eq_true pos)
    have hmem := List.mem_map_of_mem (f := TypeExpr.referencesAt pos) ht
    have hle := List.single_le_sum (fun _ _ => Nat.zero_le _) _ hmem
    have hmem' := List.mem_map_of_mem (f := Declaration.referencesAt pos) hdecl
    have hle' := List.single_le_sum (fun _ _ => Nat.zero_le _) _ hmem'
    exact Nat.lt_of_lt_of_le (Nat.lt_of_lt_of_le hat hle) hle'
  have hdecls := heq (by omega)
  rw [Document.repath, Document.unplaced, Document.unplaced, h.docs, hdecls, List.map_map]
  rfl

end Repath

end Edit

end McdocSchema
