import Mathlib.Data.List.Nodup
import Mathlib.Data.List.Perm.Subperm
import Mathlib.Logic.Relation
import McdocSchema.Remote.Retrieval

/-!
# Walks through a remote collection

The walk from a folder goes down into each folder where it is listed: it notes the folder, and then its
items in their order. A walk is determined by what the host lists (`Visits.unique`), and it notes exactly
the folders that are reached and the files that they list. If no folder is listed below itself, there is
one (`shallow_of_acyclic`). Retrieving a folder is carrying out its walk, visit by visit
(`folderDown_eq_carryOut`).
-/

namespace McdocSchema.Remote

/-! ## Listings -/

/-- An item of a listing. -/
inductive Item
  | file (path : String)
  | folder (path : String)
  | other
  deriving DecidableEq

def Item.file? : Item → Option String
  | .file path => some path
  | _ => none

def Item.folder? : Item → Option String
  | .folder path => some path
  | _ => none

/-- The item that an object stands for, if it has a sort and a path. -/
def Item.ofJson? (value : Json) : Option Item :=
  match (value.field? "type").bind Json.string?, (value.field? "path").bind Json.string? with
  | some sort, some path =>
    some (if sort = "file" then .file path else if sort = "dir" then .folder path else .other)
  | _, _ => none

/-- The items that a host lists for a folder, if the listing has the form of one. A host that refuses
the listing lists nothing. -/
def Host.items? (host : Host) (branch folder : String) : Option (List Item) :=
  let response := host.answer (listingUrl folder branch)
  if response.good then response.listing.items?.bind (·.mapM Item.ofJson?) else some []

def Host.itemsAt (host : Host) (branch folder : String) : List Item :=
  (host.items? branch folder).getD []

/-- A folder lists another one. -/
def Host.Lists (host : Host) (branch folder inner : String) : Prop :=
  .folder inner ∈ host.itemsAt branch folder

/-- A folder is another one or is listed somewhere below it. -/
def Host.Reaches (host : Host) (branch : String) : String → String → Prop :=
  Relation.ReflTransGen (host.Lists branch)

/-! ## Walks -/

/-- What a walk notes: a folder, or a file that a folder lists. -/
inductive Visit
  | folder (path : String)
  | file (folder path : String)
  deriving DecidableEq

variable {host : Host} {branch : String}
variable {items : List Item}

/-- What a walk notes for items of a folder, folders being done where they are listed. -/
inductive Visits (host : Host) (branch : String) : String → List Item → List Visit → Prop
  | nil (folder : String) : Visits host branch folder [] []
  | other {folder : String} {items : List Item} {visits : List Visit}
      (rest : Visits host branch folder items visits) :
      Visits host branch folder (.other :: items) visits
  | file {folder : String} {items : List Item} {visits : List Visit} (path : String)
      (rest : Visits host branch folder items visits) :
      Visits host branch folder (.file path :: items) (.file folder path :: visits)
  | folder {folder inner : String} {items : List Item} {below visits : List Visit}
      (down : Visits host branch inner (host.itemsAt branch inner) below)
      (rest : Visits host branch folder items visits) :
      Visits host branch folder (.folder inner :: items) (.folder inner :: below ++ visits)

/-- The walk from a folder. -/
def IsWalk (host : Host) (branch start : String) (walk : List Visit) : Prop :=
  ∃ visits, Visits host branch start (host.itemsAt branch start) visits ∧
    walk = .folder start :: visits

theorem Visits.unique {folder : String} {visits visits' : List Visit}
    (h : Visits host branch folder items visits) (h' : Visits host branch folder items visits') :
    visits = visits' := by
  induction h generalizing visits' with
  | nil folder =>
    cases h'
    rfl
  | other rest ih =>
    cases h' with
    | other rest' => exact ih rest'
  | file path rest ih =>
    cases h' with
    | file _ rest' => rw [ih rest']
  | folder down rest ihdown ihrest =>
    cases h' with
    | folder down' rest' => rw [ihdown down', ihrest rest']

theorem IsWalk.unique {start : String} {walk walk' : List Visit} (h : IsWalk host branch start walk)
    (h' : IsWalk host branch start walk') : walk = walk' := by
  obtain ⟨visits, hvisits, rfl⟩ := h
  obtain ⟨visits', hvisits', rfl⟩ := h'
  rw [hvisits.unique hvisits']

/-- A folder below is reached from the first folder on the way. -/
theorem reaches_iff {start folder : String} :
    host.Reaches branch start folder ↔
      folder = start ∨ ∃ inner, host.Lists branch start inner ∧ host.Reaches branch inner folder := by
  rw [Host.Reaches, Relation.ReflTransGen.cases_head_iff, eq_comm]

theorem Visits.folder_mem_iff {folder f : String} {visits : List Visit}
    (h : Visits host branch folder items visits) :
    .folder f ∈ visits ↔ ∃ inner, .folder inner ∈ items ∧ host.Reaches branch inner f := by
  induction h with
  | nil folder => simp
  | other rest ih => simpa using ih
  | file path rest ih => simpa using ih
  | @folder folder inner items below visits down rest ihdown ihrest =>
    have hdown : .folder f ∈ (.folder inner :: below : List Visit) ↔ host.Reaches branch inner f := by
      rw [reaches_iff, List.mem_cons, ihdown, Visit.folder.injEq]
      rfl
    rw [List.mem_append, hdown, ihrest]
    simp

theorem Visits.file_mem_iff {folder f path : String} {visits : List Visit}
    (h : Visits host branch folder items visits) :
    .file f path ∈ visits ↔ (f = folder ∧ .file path ∈ items) ∨
      ∃ inner, .folder inner ∈ items ∧ host.Reaches branch inner f ∧
        .file path ∈ host.itemsAt branch f := by
  induction h with
  | nil folder => simp
  | other rest ih => simpa using ih
  | file p rest ih =>
    rw [List.mem_cons, ih, Visit.file.injEq]
    simp only [List.mem_cons, Item.file.injEq, reduceCtorEq, false_or, and_or_left, or_assoc]
  | @folder folder inner items below visits down rest ihdown ihrest =>
    have hdown : .file f path ∈ (.folder inner :: below : List Visit) ↔
        host.Reaches branch inner f ∧ .file path ∈ host.itemsAt branch f := by
      rw [List.mem_cons, ihdown, reaches_iff]
      constructor
      · rintro (h | ⟨rfl, h⟩ | ⟨i, hi, hreach, h⟩)
        · cases h
        · exact ⟨.inl rfl, h⟩
        · exact ⟨.inr ⟨i, hi, hreach⟩, h⟩
      · rintro ⟨rfl | ⟨i, hi, hreach⟩, h⟩
        · exact .inr (.inl ⟨rfl, h⟩)
        · exact .inr (.inr ⟨i, hi, hreach, h⟩)
    rw [List.mem_append, hdown, ihrest]
    constructor
    · rintro (h | ⟨rfl, h⟩ | ⟨i, hi, h⟩)
      · exact .inr ⟨inner, List.mem_cons_self, h⟩
      · exact .inl ⟨rfl, List.mem_cons_of_mem _ h⟩
      · exact .inr ⟨i, List.mem_cons_of_mem _ hi, h⟩
    · rintro (⟨rfl, h⟩ | ⟨i, hi, h⟩)
      · exact .inr (.inl ⟨rfl, (List.mem_cons.1 h).resolve_left (by simp)⟩)
      · rcases List.mem_cons.1 hi with hi | hi
        · cases hi
          exact .inl h
        · exact .inr (.inr ⟨i, hi, h⟩)

/-- A walk notes the folders that are reached. -/
theorem IsWalk.folder_mem_iff {start f : String} {walk : List Visit}
    (h : IsWalk host branch start walk) : .folder f ∈ walk ↔ host.Reaches branch start f := by
  obtain ⟨visits, hvisits, rfl⟩ := h
  rw [List.mem_cons, hvisits.folder_mem_iff, reaches_iff, Visit.folder.injEq]
  rfl

/-- A walk notes the files that the folders list which are reached. -/
theorem IsWalk.file_mem_iff {start f path : String} {walk : List Visit}
    (h : IsWalk host branch start walk) :
    .file f path ∈ walk ↔
      host.Reaches branch start f ∧ .file path ∈ host.itemsAt branch f := by
  obtain ⟨visits, hvisits, rfl⟩ := h
  rw [List.mem_cons, hvisits.file_mem_iff, reaches_iff]
  constructor
  · rintro (h | ⟨rfl, h⟩ | ⟨inner, hinner, hreach, h⟩)
    · cases h
    · exact ⟨.inl rfl, h⟩
    · exact ⟨.inr ⟨inner, hinner, hreach⟩, h⟩
  · rintro ⟨rfl | ⟨inner, hinner, hreach⟩, h⟩
    · exact .inr (.inl ⟨rfl, h⟩)
    · exact .inr (.inr ⟨inner, hinner, hreach, h⟩)

/-! ## How deep folders are nested -/

/-- Folders are nested below a folder less deep than a number. -/
def Host.Shallow (host : Host) (branch : String) : Nat → String → Prop
  | 0, _ => False
  | depth + 1, folder => ∀ inner, host.Lists branch folder inner → host.Shallow branch depth inner

/-- Where the nesting has an end, there is a walk. -/
theorem exists_visits {depth : Nat} {folder : String} (h : host.Shallow branch depth folder) :
    ∃ visits, Visits host branch folder (host.itemsAt branch folder) visits := by
  induction depth generalizing folder with
  | zero => exact h.elim
  | succ depth ih =>
    have hitems : ∀ items, items ⊆ host.itemsAt branch folder →
        ∃ visits, Visits host branch folder items visits := by
      intro items
      induction items with
      | nil => exact fun _ => ⟨[], .nil folder⟩
      | cons item items ihitems =>
        intro hsub
        obtain ⟨hitem, hrest⟩ := List.cons_subset.1 hsub
        obtain ⟨visits, hvisits⟩ := ihitems hrest
        cases item with
        | other => exact ⟨visits, .other hvisits⟩
        | file path => exact ⟨_, .file path hvisits⟩
        | folder inner =>
          obtain ⟨below, hbelow⟩ := ih (h inner hitem)
          exact ⟨_, .folder hbelow hvisits⟩
    exact hitems _ (List.Subset.refl _)

theorem listingUrl_injective (branch : String) : Function.Injective (listingUrl · branch) := by
  have hcancel : ∀ front back f g : String, front ++ f ++ back ++ branch = front ++ g ++ back ++ branch →
      f = g := by
    intro front back f g h
    simpa [← String.toList_inj] using h
  exact fun f g h => hcancel _ _ f g h

/-- Only a folder that the table of a host knows lists others. -/
theorem url_mem_of_lists {folder inner : String} (h : host.Lists branch folder inner) :
    listingUrl folder branch ∈ host.map Prod.fst := by
  have hgood : (host.answer (listingUrl folder branch)).good = true := by
    by_contra hbad
    simp [Host.Lists, Host.itemsAt, Host.items?, hbad] at h
  have hknown : (host.lookup (listingUrl folder branch)).isSome = true := by
    by_contra hnone
    simp [Host.answer, Option.not_isSome_iff_eq_none.1 hnone, Response.good] at hgood
  obtain ⟨entry, hentry, heq⟩ := List.lookup_isSome_iff.1 hknown
  exact List.mem_map.2 ⟨entry, hentry, (beq_iff_eq.1 heq).symm⟩

/-- Ancestors, each of them once, are no more than the table of a host knows. -/
theorem length_ancestors_le {ancestors : List String} (hnodup : ancestors.Nodup)
    (h : ∀ f ∈ ancestors, ∃ inner, host.Lists branch f inner) : ancestors.length ≤ host.length := by
  have hmap : (ancestors.map (listingUrl · branch)).Nodup :=
    hnodup.map (listingUrl_injective branch)
  have hsub : ancestors.map (listingUrl · branch) ⊆ host.map Prod.fst := by
    intro url hurl
    obtain ⟨f, hf, rfl⟩ := List.mem_map.1 hurl
    obtain ⟨inner, hinner⟩ := h f hf
    exact url_mem_of_lists hinner
  simpa using (hmap.subperm hsub).length_le

/-- If no folder is listed below itself, the nesting is bounded by the length of the table. -/
theorem shallow_of_acyclic {start : String}
    (h : ∀ f, host.Reaches branch start f → ¬ Relation.TransGen (host.Lists branch) f f) :
    host.Shallow branch (host.length + 2) start := by
  -- The ancestors of a folder are pairwise different, since each of them is above the next ones.
  have hdown : ∀ (depth : Nat) (f : String) (ancestors : List String), ancestors.Nodup →
      (∀ a ∈ ancestors, Relation.TransGen (host.Lists branch) a f) → host.Reaches branch start f →
      host.length < depth + ancestors.length → host.Shallow branch depth f := by
    intro depth
    induction depth with
    | zero =>
      intro f ancestors hnodup habove _ hlength
      have hlists : ∀ a ∈ ancestors, ∃ inner, host.Lists branch a inner := by
        intro a ha
        obtain ⟨inner, hinner, -⟩ := Relation.TransGen.head'_iff.1 (habove a ha)
        exact ⟨inner, hinner⟩
      have hle := length_ancestors_le hnodup hlists
      omega
    | succ depth ih =>
      intro f ancestors hnodup habove hreach hlength inner hinner
      refine ih inner (f :: ancestors) ?_ ?_ (hreach.tail hinner) ?_
      · exact List.nodup_cons.2 ⟨fun hmem => h f hreach (habove f hmem), hnodup⟩
      · rw [List.forall_mem_cons]
        exact ⟨.single hinner, fun a ha => (habove a ha).tail hinner⟩
      · rw [List.length_cons]
        omega
  exact hdown _ start [] List.nodup_nil (by simp) .refl (by simp)

/-! ## Items -/

/-- What an item asks for. -/
def Item.task : Item → Retrieval.Task
  | .file path => .file (.string path)
  | .folder path => .folder (.string path)
  | .other => .nothing

theorem itemField_eq {key : String} {value found : Json} (h : value.field? key = some found) :
    Retrieval.itemField key value = .ok found := by
  unfold Json.field? at h
  split at h
  · simp [Retrieval.itemField, h]
  · cases h

theorem eq_string_of_string? {value : Json} {text : String} (h : value.string? = some text) :
    value = .string text := by
  unfold Json.string? at h
  split at h
  · rw [Option.some_inj.1 h]
  · cases h

theorem taskOf_eq {value : Json} {item : Item} (h : Item.ofJson? value = some item) :
    Retrieval.taskOf value = .ok item.task := by
  unfold Item.ofJson? at h
  split at h
  · next sort path hsort hpath =>
    obtain ⟨value₁, hfield₁, hstring₁⟩ := Option.bind_eq_some_iff.1 hsort
    obtain ⟨value₂, hfield₂, hstring₂⟩ := Option.bind_eq_some_iff.1 hpath
    obtain rfl := eq_string_of_string? hstring₁
    obtain rfl := eq_string_of_string? hstring₂
    rw [Option.some_inj] at h
    subst h
    rw [Retrieval.taskOf, itemField_eq hfield₁, itemField_eq hfield₂]
    by_cases hfile : sort = "file"
    · subst hfile
      rfl
    · by_cases hdir : sort = "dir"
      · subst hdir
        rfl
      · rw [if_neg hfile, if_neg hdir]
        simp only [bind, Except.bind]
        split
        · next heq => exact absurd (Json.string.inj heq) hfile
        · next heq => exact absurd (Json.string.inj heq) hdir
        · rfl
  · cases h

theorem forall₂_of_mapM {α β : Type} {f : α → Option β} {xs : List α} {ys : List β}
    (h : xs.mapM f = some ys) : List.Forall₂ (fun x y => f x = some y) xs ys := by
  induction xs generalizing ys with
  | nil =>
    cases h
    exact .nil
  | cons x xs ih =>
    rw [List.mapM_cons] at h
    obtain ⟨y, hy, h⟩ := Option.bind_eq_some_iff.1 h
    obtain ⟨rest, hrest, h⟩ := Option.bind_eq_some_iff.1 h
    cases h
    exact .cons hy (ih hrest)

/-- The values of a good listing stand for the items of the folder. -/
theorem exists_listing {host : Host} {branch folder : String}
    (h : (host.items? branch folder).isSome = true)
    (hgood : (host.answer (listingUrl folder branch)).good = true) :
    ∃ values, (host.answer (listingUrl folder branch)).listing = .array values ∧
      List.Forall₂ (fun value item => Item.ofJson? value = some item) values
        (host.itemsAt branch folder) := by
  obtain ⟨items, hitems⟩ := Option.isSome_iff_exists.1 h
  have hat : host.itemsAt branch folder = items := by rw [Host.itemsAt, hitems, Option.getD_some]
  rw [hat]
  simp only [Host.items?, hgood, if_true] at hitems
  obtain ⟨values, hvalues, hmap⟩ := Option.bind_eq_some_iff.1 hitems
  refine ⟨values, ?_, forall₂_of_mapM hmap⟩
  unfold Json.items? at hvalues
  split at hvalues
  · next listing hlisting => rw [hlisting, Option.some_inj.1 hvalues]
  · cases hvalues

/-- A host that refuses a listing lists nothing. -/
theorem itemsAt_of_not_good {host : Host} {branch folder : String}
    (h : (host.answer (listingUrl folder branch)).good = false) :
    host.itemsAt branch folder = [] := by
  simp [Host.itemsAt, Host.items?, h]

/-! ## Carrying out visits -/

def Visit.request (branch : String) : Visit → Request
  | .folder path => { url := listingUrl path branch, headers := headers }
  | .file _ path => { url := fileUrl path branch, headers := headers }

/-- What is printed at a visit. -/
def Visit.report (host : Host) (branch : String) : Visit → List String
  | .folder path =>
    let response := host.answer (listingUrl path branch)
    if response.good then []
    else ["Failed to list contents of folder " ++ path ++ " " ++ Retrieval.statusText response]
  | .file _ path =>
    let response := host.answer (fileUrl path branch)
    if response.good then ["Downloaded: " ++ path]
    else ["Failed to download " ++ path ++ " " ++ Retrieval.statusText response]

/-- Goes on after a retrieval that did not end early. -/
def andThen (first : Except Fault Unit × Retrieval)
    (next : Retrieval → Except Fault Unit × Retrieval) : Except Fault Unit × Retrieval :=
  match first with
  | (.error fault, r) => (.error fault, r)
  | (.ok (), r) => next r

theorem andThen_assoc (first : Except Fault Unit × Retrieval)
    (next last : Retrieval → Except Fault Unit × Retrieval) :
    andThen (andThen first next) last = andThen first fun r => andThen (next r) last := by
  obtain ⟨result, r⟩ := first
  cases result <;> rfl

/-- Carries out a visit: a folder is asked for, a file is retrieved into the local folder of its
folder. -/
def Visit.carryOut (host : Host) (branch target : String) :
    Visit → Retrieval → Except Fault Unit × Retrieval
  | .folder path, r =>
    (.ok (),
      { r with
        requests := r.requests ++ [Visit.request branch (.folder path)]
        lines := r.lines ++ Visit.report host branch (.folder path) })
  | .file parent path, r => Retrieval.file host branch path (WrittenPath.join target parent) r

/-- Carries out visits one after the other. -/
def carryOut (host : Host) (branch target : String) :
    List Visit → Retrieval → Except Fault Unit × Retrieval
  | [], r => (.ok (), r)
  | visit :: visits, r =>
    andThen (visit.carryOut host branch target r) (carryOut host branch target visits)

theorem carryOut_append (host : Host) (branch target : String) (visits visits' : List Visit)
    (r : Retrieval) : carryOut host branch target (visits ++ visits') r =
      andThen (carryOut host branch target visits r) (carryOut host branch target visits') := by
  induction visits generalizing r with
  | nil => rfl
  | cons visit visits ih =>
    rw [List.cons_append, carryOut, carryOut, andThen_assoc]
    exact congrArg _ (funext ih)

def Item.retrieve (host : Host) (branch target folder : String)
    (inner : Json → Retrieval → Except Fault Unit × Retrieval) :
    Item → Retrieval → Except Fault Unit × Retrieval
  | .other, r => (.ok (), r)
  | .folder path, r => inner (.string path) r
  | .file path, r => Retrieval.file host branch path (WrittenPath.join target folder) r

theorem items_cons {target folder : String} {inner : Json → Retrieval → Except Fault Unit × Retrieval}
    {value : Json} {item : Item} (h : Item.ofJson? value = some item) (values : List Json)
    (r : Retrieval) :
    Retrieval.items host branch target (.string folder) inner (value :: values) r =
      andThen (item.retrieve host branch target folder inner r)
        (Retrieval.items host branch target (.string folder) inner values) := by
  rw [Retrieval.items, taskOf_eq h]
  cases item <;> rfl

/-- The items of a folder are retrieved visit by visit if the folders inside are. -/
theorem items_eq_carryOut {target folder : String}
    {inner : Json → Retrieval → Except Fault Unit × Retrieval}
    (hinner : ∀ (g : String) (below : List Visit) (r : Retrieval), host.Lists branch folder g →
      Visits host branch g (host.itemsAt branch g) below →
      inner (.string g) r = carryOut host branch target (.folder g :: below) r)
    {values : List Json} {visits : List Visit}
    (hsub : items ⊆ host.itemsAt branch folder)
    (hvalues : List.Forall₂ (fun value item => Item.ofJson? value = some item) values items)
    (hwalk : Visits host branch folder items visits) (r : Retrieval) :
    Retrieval.items host branch target (.string folder) inner values r =
      carryOut host branch target visits r := by
  induction hvalues generalizing visits r with
  | nil =>
    cases hwalk
    rfl
  | @cons value item values items hitem hvalues ih =>
    obtain ⟨hmem, hrest⟩ := List.cons_subset.1 hsub
    rw [items_cons hitem]
    cases hwalk with
    | other rest => exact ih hrest rest r
    | file path rest => exact congrArg _ (funext (ih hrest rest))
    | folder down rest =>
      rw [carryOut_append, ← hinner _ _ r hmem down]
      exact congrArg _ (funext (ih hrest rest))

/-- A folder with all that is listed below it is retrieved visit by visit. -/
theorem folderDown_eq_carryOut {target start folder : String}
    (hlisted : ∀ f, host.Reaches branch start f → (host.items? branch f).isSome = true)
    {depth : Nat} (hdepth : host.Shallow branch depth folder)
    (hreach : host.Reaches branch start folder) {below : List Visit}
    (hwalk : Visits host branch folder (host.itemsAt branch folder) below) (r : Retrieval) :
    Retrieval.folderDown host branch target depth (.string folder) r =
      carryOut host branch target (.folder folder :: below) r := by
  induction depth generalizing folder below r with
  | zero => exact hdepth.elim
  | succ depth ih =>
    rw [carryOut, Visit.carryOut]
    cases hgood : (host.answer (listingUrl folder branch)).good with
    | true =>
      obtain ⟨values, hlisting, hvalues⟩ := exists_listing (hlisted folder hreach) hgood
      have hitems : ∀ r, Retrieval.items host branch target (.string folder)
          (Retrieval.folderDown host branch target depth) values r =
          carryOut host branch target below r :=
        items_eq_carryOut
          (fun g below r hlists hbelow => ih (hdepth g hlists) (hreach.tail hlists) hbelow r)
          (List.Subset.refl _) hvalues hwalk
      simp [Retrieval.folderDown, Json.display, hgood, hlisting, Retrieval.itemsOf, Retrieval.ask,
        Visit.request, Visit.report, andThen, hitems]
    | false =>
      rw [itemsAt_of_not_good hgood] at hwalk
      cases hwalk
      simp [Retrieval.folderDown, Json.display, hgood, Retrieval.ask, Retrieval.print, Visit.request,
        Visit.report, andThen, carryOut]

/-- If the listings are ones and no folder is listed below itself, there is a walk, and retrieving a
folder is carrying it out. -/
theorem exists_walk {start : String}
    (hlisted : ∀ f, host.Reaches branch start f → (host.items? branch f).isSome = true)
    (hacyclic : ∀ f, host.Reaches branch start f → ¬ Relation.TransGen (host.Lists branch) f f) :
    ∃ walk, IsWalk host branch start walk ∧ ∀ target r,
      Retrieval.folder host start branch target r = carryOut host branch target walk r := by
  have hdepth := shallow_of_acyclic hacyclic
  obtain ⟨visits, hvisits⟩ := exists_visits hdepth
  exact ⟨_, ⟨visits, hvisits, rfl⟩, fun target r =>
    folderDown_eq_carryOut hlisted hdepth .refl hvisits r⟩

end McdocSchema.Remote
