import McdocSchema.Proofs.FolderSources
import McdocSchema.Proofs.WrittenPlaces

/-!
# Trees that grow

Every operation that changes a tree puts entries into it, one after the other: a folder where nothing stands,
or a file where no folder stands, and always into a folder that is there. `Grows` says this of a tree and of
what has become of it, with a condition on the entries. So a folder stays a folder and a file a file
(`Grows.folder`, `Grows.file`).
-/

namespace McdocSchema

namespace FileTree

/-- Paths start at a folder, and every entry stands in one. -/
structure Rooted (tree : FileTree) : Prop where
  here : tree.at? tree.here = some .folder
  parents : ∀ p, (tree.at? p).isSome = true → tree.at? p.dropLast = some .folder

theorem WellFormed.rooted {tree : FileTree} (h : tree.WellFormed) : tree.Rooted :=
  ⟨h.here, fun _ hp => h.dropLast hp⟩

/-- The tree has become the other one by entries that satisfy `Q`, put one after the other. -/
inductive Grows (Q : Place → Entry → Prop) (tree : FileTree) : FileTree → Prop
  | refl : Grows Q tree tree
  | put {tree' : FileTree} {place : Place} {entry : Entry} (h : Grows Q tree tree')
      (hparent : tree'.at? place.dropLast = some .folder) (hplace : tree'.at? place ≠ some .folder)
      (hnew : entry = .folder → tree'.at? place = none) (hQ : Q place entry) :
      Grows Q tree (tree'.put place entry)

variable {Q : Place → Entry → Prop} {tree tree' : FileTree} {place p q : Place} {names : List String}

/-- What a tree has after an entry is put where no folder stands. -/
theorem at?_put_of_ne {entry : Entry} (h : tree.at? place ≠ some .folder) (p : Place) :
    (tree.put place entry).at? p = if p = place then some entry else tree.at? p := by
  apply at?_put
  rintro rfl
  exact h rfl

theorem Grows.here (h : tree.Grows Q tree') : tree'.here = tree.here := by
  induction h with
  | refl => rfl
  | put _ _ _ _ _ ih => exact ih

theorem Grows.trans {grown : FileTree} (h : tree.Grows Q tree') (h' : tree'.Grows Q grown) :
    tree.Grows Q grown := by
  induction h' with
  | refl => exact h
  | put _ hparent hplace hnew hQ ih => exact .put ih hparent hplace hnew hQ

theorem Grows.folder (h : tree.Grows Q tree') (hp : tree.at? p = some .folder) :
    tree'.at? p = some .folder := by
  induction h with
  | refl => exact hp
  | put _ _ hplace _ _ ih =>
    rw [at?_put_of_ne hplace, if_neg, ih]
    rintro rfl
    exact hplace ih

theorem Grows.file (h : tree.Grows Q tree') {octets : List UInt8} (hp : tree.at? p = some (.file octets)) :
    ∃ octets', tree'.at? p = some (.file octets') := by
  induction h with
  | refl => exact ⟨octets, hp⟩
  | @put tree' place entry _ _ hplace hnew _ ih =>
    obtain ⟨octets', ih⟩ := ih
    rw [at?_put_of_ne hplace]
    split
    · next heq =>
      cases entry with
      | file octets => exact ⟨octets, rfl⟩
      | folder =>
        rw [heq, hnew rfl] at ih
        cases ih
    · exact ⟨octets', ih⟩

theorem Grows.rooted (h : tree.Grows Q tree') (ht : tree.Rooted) : tree'.Rooted := by
  induction h with
  | refl => exact ht
  | @put tree' place entry h hparent hplace hnew hQ ih =>
    have hgrown : tree'.Grows Q (tree'.put place entry) := .put .refl hparent hplace hnew hQ
    refine ⟨hgrown.folder ih.here, fun p hp => hgrown.folder ?_⟩
    rw [at?_put_of_ne hplace] at hp
    split at hp
    · next heq => rwa [heq]
    · exact ih.parents p hp

/-- Only places of the entries that are put are changed. -/
theorem Grows.at?_eq_or (h : tree.Grows Q tree') (p : Place) :
    tree'.at? p = tree.at? p ∨ ∃ entry, tree'.at? p = some entry ∧ Q p entry := by
  induction h with
  | refl => exact .inl rfl
  | @put tree' place entry _ _ hplace _ hQ ih =>
    rw [at?_put_of_ne hplace]
    split
    · next heq => exact .inr ⟨entry, rfl, heq ▸ hQ⟩
    · exact ih

/-- Names that could be followed still lead to the same place. -/
theorem Grows.follow (h : tree.Grows Q tree') (hn : ∀ n ∈ names, n ≠ "")
    (hq : tree.follow place names = .ok q) : tree'.follow place names = .ok q := by
  induction names generalizing place with
  | nil => exact hq
  | cons name names ih =>
    have hname := hn name List.mem_cons_self
    obtain ⟨hfolder, hrest⟩ := follow_cons_ok hname hq
    rw [follow_cons (h.folder hfolder) hname]
    exact ih (fun n hmem => hn n (List.mem_cons_of_mem _ hmem)) hrest

/-- Names lead to a place in a folder. -/
theorem Rooted.parent_of_follow (ht : tree.Rooted) (hplace : tree.at? place.dropLast = some .folder)
    (hn : ∀ n ∈ names, n ≠ "") (h : tree.follow place names = .ok q) :
    tree.at? q.dropLast = some .folder := by
  induction names generalizing place with
  | nil =>
    cases h
    exact hplace
  | cons name names ih =>
    obtain ⟨hfolder, hrest⟩ := follow_cons_ok (hn name List.mem_cons_self) h
    refine ih ?_ (fun n hmem => hn n (List.mem_cons_of_mem _ hmem)) hrest
    unfold Place.step
    split
    · exact hplace
    · split
      · exact ht.parents _ (by rw [hplace]; rfl)
      · rwa [List.dropLast_concat]

/-- A folder that is made where names lead to stands on their trail. -/
theorem Rooted.grows_folder (ht : tree.Rooted) (hplace : tree.at? place = some .folder)
    (hn : ∀ n ∈ names, n ≠ "") (hq : tree.follow place names = .ok q) (hnone : tree.at? q = none)
    (hQ : q ∈ place.trail names → Q q .folder) : tree.Grows Q (tree.put q .folder) := by
  refine .put .refl (ht.parent_of_follow (ht.parents place (by rw [hplace]; rfl)) hn hq)
    (by rw [hnone]; simp) (fun _ => hnone) (hQ ?_)
  have hmem := Place.foldl_mem_trail place names
  rw [← eq_of_follow_ok hn hq] at hmem
  refine (List.mem_cons.1 hmem).resolve_left ?_
  rintro rfl
  rw [hplace] at hnone
  cases hnone

theorem Rooted.grows_file (ht : tree.Rooted) (hplace : tree.at? place = some .folder)
    (hn : ∀ n ∈ names, n ≠ "") (hq : tree.follow place names = .ok q) (hfree : tree.at? q ≠ some .folder)
    {octets : List UInt8} (hQ : Q q (.file octets)) : tree.Grows Q (tree.put q (.file octets)) := by
  refine .put .refl (ht.parent_of_follow (ht.parents place (by rw [hplace]; rfl)) hn hq) hfree ?_ hQ
  intro heq
  cases heq

variable {path : String} {grown : FileTree}

theorem makeFolder_ok (h : tree.makeFolder path = .ok grown) :
    ∃ q, tree.locate (withoutEndSlashes path) = .ok q ∧ tree.at? q = none ∧ grown = tree.put q .folder := by
  unfold makeFolder at h
  split at h
  · cases h
  · next q hlocate =>
    split at h
    · cases h
    · next hnone =>
      cases h
      exact ⟨q, hlocate, hnone, rfl⟩

theorem write_ok {octets : List UInt8} (h : tree.write path octets = .ok grown) :
    ∃ q, tree.locate (withoutEndSlashes path) = .ok q ∧ path.endsWith "/" = false ∧
      tree.at? q ≠ some .folder ∧ grown = tree.put q (.file octets) := by
  unfold write at h
  split at h
  · cases h
  · next q hlocate =>
    split at h
    · cases h
    · next hfree =>
      cases h
      rw [Bool.or_eq_true, beq_iff_eq, not_or, Bool.not_eq_true] at hfree
      exact ⟨q, hlocate, hfree.1, hfree.2, rfl⟩

end FileTree

end McdocSchema
