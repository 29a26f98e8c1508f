import McdocSchema.Proofs.Mirror
import McdocSchema.Proofs.TreeGrowth

/-!
# What a retrieval changes

A retrieval puts entries into the local tree, whatever the host answers and however it ends. If the folders
whose files it fetches are given by paths that do not start at the top and have no two dots, then every entry
is inside the target folder, or it is a folder that leads there (`retrieval_contained`).
-/

namespace McdocSchema

namespace WrittenPath

/-- A path that does not lead out of the folder at which it starts. -/
def IsInner (path : String) : Prop := path.startsWith "/" = false ∧ ".." ∉ names path

end WrittenPath

namespace Place

variable {place q : Place} {name : String} {names : List String}

theorem begins_step (h : name ≠ "..") : place <+: place.step name := by
  unfold step
  split
  · exact List.prefix_rfl
  · rw [if_neg (by simpa using h)]
    exact List.prefix_append place [name]

/-- Without two dots there is no way out of a place. -/
theorem begins_of_mem_trail (h : ".." ∉ names) (hq : q ∈ place.trail names) : place <+: q := by
  induction names generalizing place with
  | nil => cases hq
  | cons name names ih =>
    obtain ⟨hname, hnames⟩ := not_or.1 (mt List.mem_cons.2 h)
    have hstep : place <+: place.step name := begins_step (Ne.symm hname)
    rcases List.mem_cons.1 hq with rfl | hq
    · exact hstep
    · exact hstep.trans (ih hnames hq)

end Place

namespace FileTree

open WrittenPath

variable {Q : Place → Entry → Prop} {tree : FileTree} {path : String} {q : Place}

theorem Rooted.written_base (ht : tree.Rooted) (path : String) :
    tree.at? (base tree.here path) = some .folder := by
  unfold base
  split
  · rfl
  · exact ht.here

theorem follow_of_locate (h : tree.locate (withoutEndSlashes path) = .ok q) :
    tree.follow (base tree.here path) (WrittenPath.names path) = .ok q := by
  have hne : path ≠ "" := by
    rintro rfl
    simp [withoutEndSlashes, locate] at h
  have hzero : '\x00' ∉ path.toList := by
    intro hzero
    rw [locate_zero hzero] at h
    cases h
  rwa [locate_withoutEndSlashes_written hne hzero] at h

theorem Rooted.grows_ensureWrittenFolder (ht : tree.Rooted)
    (hQ : ∀ q ∈ trail tree.here path, Q q .folder) : tree.Grows Q (tree.ensureWrittenFolder path).2 := by
  unfold ensureWrittenFolder
  split
  · next made hmake =>
    obtain ⟨q, hlocate, hnone, rfl⟩ := makeFolder_ok hmake
    exact ht.grows_folder (ht.written_base path) (fun _ => ne_empty_of_mem_names)
      (follow_of_locate hlocate) hnone (hQ q)
  · split <;> exact .refl

/-- Only folders on the trail of a path are made for it. -/
theorem Rooted.grows_ensureWrittenFrom (ht : tree.Rooted) (fuel : Nat)
    (hQ : ∀ q ∈ trail tree.here path, Q q .folder) :
    tree.Grows Q (tree.ensureWrittenFrom path fuel).2 := by
  induction fuel generalizing path with
  | zero => exact ht.grows_ensureWrittenFolder hQ
  | succ fuel ih =>
    by_cases hdirect : folder (trimmed path) = "" ∨ lastName (trimmed path) = "" ∨
        tree.has (folder (trimmed path)) = true
    · rw [ensureWrittenFrom_at_once hdirect]
      exact ht.grows_ensureWrittenFolder hQ
    · simp only [not_or, Bool.not_eq_true] at hdirect
      obtain ⟨hfolder, hname, hhas⟩ := hdirect
      have hparent : ∀ q ∈ trail tree.here (folder (trimmed path)), Q q .folder := by
        intro q hq
        rw [trail, base_of_begins (parent_begins path) hfolder] at hq
        apply hQ
        rw [trail, names_eq_parent hname, Place.trail_append]
        exact List.mem_append_left _ hq
      have hgrown := ih hparent
      cases hrun : tree.ensureWrittenFrom (folder (trimmed path)) fuel with
      | mk result tree' =>
        rw [hrun] at hgrown
        -- Whether the folders above could be made or not, the one of the path may be tried.
        have hlast : tree.Grows Q (tree'.ensureWrittenFolder path).2 := by
          refine hgrown.trans ((hgrown.rooted ht).grows_ensureWrittenFolder ?_)
          rw [hgrown.here]
          exact hQ
        cases result with
        | ok =>
          rw [ensureWrittenFrom_parent hfolder hname hhas hrun]
          split
          · exact hgrown
          · exact hlast
        | error fault =>
          rw [ensureWrittenFrom_parent_error hfolder hname hhas hrun]
          split
          · exact hgrown
          · split
            · exact hgrown
            · exact hlast

theorem follow_concat_ok {place : Place} {names : List String} {name : String}
    (hn : ∀ n ∈ names ++ [name], n ≠ "") (h : tree.follow place (names ++ [name]) = .ok q) :
    tree.at? (names.foldl Place.step place) = some .folder := by
  induction names generalizing place with
  | nil => exact (follow_cons_ok (hn name (by simp)) h).1
  | cons n names ih =>
    obtain ⟨-, hrest⟩ := follow_cons_ok (hn n (by simp)) h
    exact ih (fun m hm => hn m (List.mem_cons_of_mem n hm)) hrest

/-- A file that is written in a folder is one of its entries. -/
theorem Rooted.grows_write {folder name : String} {octets : List UInt8} {grown : FileTree}
    (ht : tree.Rooted) (hname : '/' ∉ name.toList)
    (h : tree.write (join folder name) octets = .ok grown)
    (hQ : Q (Place.resolve tree.here folder ++ [name]) (.file octets)) : tree.Grows Q grown := by
  have hstart := startsWith_of_no_slash hname
  obtain ⟨q, hlocate, hend, hfree, rfl⟩ := write_ok h
  have hne : name ≠ "" := by
    -- A path that ends with a slash is that of a folder.
    rintro rfl
    by_cases hfolder : folder = ""
    · rw [hfolder] at hlocate
      simp [join, withoutEndSlashes, locate] at hlocate
    · obtain ⟨cs, hcs, -⟩ := exists_toList_join hstart hfolder
      rw [← Bool.not_eq_true, endsWith_iff, hcs] at hend
      exact hend (List.suffix_append cs ['/'])
  have hfollow := follow_of_locate hlocate
  rw [base_join hstart, names_join hstart, names_of_no_slash hname hne] at hfollow
  have hn : ∀ n ∈ WrittenPath.names folder ++ [name], n ≠ "" := by
    intro n hmem
    rcases List.mem_append.1 hmem with hmem | hmem
    · exact ne_empty_of_mem_names hmem
    · rwa [List.mem_singleton.1 hmem]
  have hinside := follow_concat_ok hn hfollow
  have hq := eq_of_follow_ok hn hfollow
  rw [List.foldl_append, ← resolve_eq] at hq
  rw [← resolve_eq] at hinside
  have hstep : q = Place.resolve tree.here folder ++ [name] := by
    rw [hq, List.foldl_cons, List.foldl_nil] at hfree ⊢
    unfold Place.step at hfree ⊢
    split at hfree
    · exact absurd hinside hfree
    · split at hfree
      · exact absurd (ht.parents _ (by rw [hinside]; rfl)) hfree
      · next hdot hup => rw [if_neg hdot, if_neg hup]
  exact ht.grows_file (ht.written_base folder) hn hfollow hfree (by rwa [hstep])

end FileTree

namespace Remote

open FileTree WrittenPath

variable {Q : Place → Entry → Prop} {host : Host} {branch target : String} {here : Place} {r : Retrieval}

/-- For a file, folders are made on the way to its folder, and it is put into that. -/
theorem grows_file (ht : r.tree.Rooted) (hhere : r.tree.here = here) {folder path : String}
    (hfolders : ∀ q ∈ trail here folder, Q q .folder)
    (hfile : ∀ name octets, Q (Place.resolve here folder ++ [name]) (.file octets)) :
    r.tree.Grows Q (Retrieval.file host branch path folder r).2.tree := by
  subst hhere
  have hmade : r.tree.Grows Q (r.tree.ensureWritten folder).2 := ht.grows_ensureWrittenFrom _ hfolders
  unfold Retrieval.file
  split
  · next fault tree hrun => rwa [hrun] at hmade
  · next tree hrun =>
    rw [hrun] at hmade
    have ht' := hmade.rooted ht
    simp only
    split
    · split
      · exact hmade
      · next grown hwrite =>
        apply hmade.trans
        apply ht'.grows_write (slash_not_mem_lastName path) hwrite
        have hhere : tree.here = r.tree.here := hmade.here
        rw [hhere]
        exact hfile _ _
    · exact hmade

/-- What the listing of a folder asks for, with or without the form of one. -/
def Host.tasks (host : Host) (branch : String) (folder : Json) : List Retrieval.Task :=
  let response := host.answer (listingUrl folder.display branch)
  if response.good then
    match Retrieval.itemsOf response.listing with
    | .ok list => list.filterMap fun item => (Retrieval.taskOf item).toOption
    | .error _ => []
  else []

/-- The folders that a retrieval comes to. -/
inductive Host.Enters (host : Host) (branch : String) (start : Json) : Json → Prop
  | start : Enters host branch start start
  | inner {folder path : Json} (h : Enters host branch start folder)
      (hmem : .folder path ∈ host.tasks branch folder) : Enters host branch start path

/-- The entries that may be put: those inside the target, and folders that lead there. -/
def Contained (here : Place) (target : String) (place : Place) (entry : Entry) : Prop :=
  Place.resolve here target <+: place ∨ entry = .folder ∧ place ∈ trail here target

theorem contained_folder {folder : String} (h : IsInner folder) :
    (∀ q ∈ trail here (join target folder), Contained here target q .folder) ∧
      ∀ name octets, Contained here target (Place.resolve here (join target folder) ++ [name])
        (.file octets) := by
  obtain ⟨hstart, hup⟩ := h
  have hinside : ∀ q ∈ (Place.resolve here target).trail (WrittenPath.names folder),
      Place.resolve here target <+: q := fun q hq => Place.begins_of_mem_trail hup hq
  have htrail : trail here (join target folder) =
      trail here target ++ (Place.resolve here target).trail (WrittenPath.names folder) := by
    rw [trail, base_join hstart, names_join hstart, Place.trail_append, ← resolve_eq]
    rfl
  refine ⟨fun q hq => ?_, fun name octets => .inl ?_⟩
  · rw [htrail] at hq
    exact (List.mem_append.1 hq).elim (fun hq => .inr ⟨rfl, hq⟩) fun hq => .inl (hinside q hq)
  · refine List.IsPrefix.trans ?_ (List.prefix_append _ [name])
    rw [resolve_eq here (join target folder), base_join hstart, names_join hstart, List.foldl_append,
      ← resolve_eq]
    rcases List.mem_cons.1 (Place.foldl_mem_trail (Place.resolve here target) (WrittenPath.names folder))
      with hq | hq
    · exact ⟨[], by rw [List.append_nil, hq]⟩
    · exact hinside _ hq

/-- Items only put entries that may be put, if the folders inside do. -/
theorem grows_items (ht : r.tree.Rooted) (hhere : r.tree.here = here) {folder : Json} {list : List Json}
    {inner : Json → Retrieval → Except Fault Unit × Retrieval}
    (hfiles : ∀ f, folder = .string f → ∀ item ∈ list, ∀ path, Retrieval.taskOf item = .ok (.file path) →
      IsInner f)
    (hinner : ∀ item ∈ list, ∀ path, Retrieval.taskOf item = .ok (.folder path) → ∀ r : Retrieval,
      r.tree.Rooted → r.tree.here = here → r.tree.Grows (Contained here target) (inner path r).2.tree) :
    r.tree.Grows (Contained here target)
      (Retrieval.items host branch target folder inner list r).2.tree := by
  induction list generalizing r with
  | nil => exact .refl
  | cons item list ih =>
    have hnext : ∀ done : Except Fault Unit × Retrieval, r.tree.Grows (Contained here target) done.2.tree →
        r.tree.Grows (Contained here target)
          (andThen done (Retrieval.items host branch target folder inner list)).2.tree := by
      rintro ⟨result, r'⟩ hgrown
      cases result with
      | error fault => exact hgrown
      | ok =>
        apply hgrown.trans
        apply ih (hgrown.rooted ht) (hgrown.here.trans hhere)
        · exact fun f hf item hmem => hfiles f hf item (List.mem_cons_of_mem _ hmem)
        · exact fun item hmem => hinner item (List.mem_cons_of_mem _ hmem)
    rw [Retrieval.items]
    cases htask : Retrieval.taskOf item with
    | error fault => exact .refl
    | ok task =>
      cases task with
      | nothing => exact hnext (.ok (), r) .refl
      | folder path => exact hnext _ (hinner item List.mem_cons_self path htask r ht hhere)
      | file path =>
        simp only
        apply hnext
        split
        · next f path =>
          obtain ⟨hfolders, hfile⟩ := contained_folder (hfiles f rfl item List.mem_cons_self _ htask)
          exact grows_file ht hhere hfolders hfile
        · exact .refl
        · exact .refl

theorem grows_folderDown (ht : r.tree.Rooted) (hhere : r.tree.here = here) {start folder : Json}
    (hfiles : ∀ f path, host.Enters branch start (.string f) →
      .file path ∈ host.tasks branch (.string f) → IsInner f)
    (hfolder : host.Enters branch start folder) (depth : Nat) :
    r.tree.Grows (Contained here target)
      (Retrieval.folderDown host branch target depth folder r).2.tree := by
  induction depth generalizing folder r with
  | zero => exact .refl
  | succ depth ih =>
    unfold Retrieval.folderDown
    simp only
    split
    · next hgood =>
      split
      · exact .refl
      · next list hlist =>
        have htasks : ∀ item ∈ list, ∀ task, Retrieval.taskOf item = .ok task →
            task ∈ host.tasks branch folder := by
          intro item hmem task htask
          rw [Host.tasks, if_pos hgood, hlist]
          exact List.mem_filterMap.2 ⟨item, hmem, by rw [htask]; rfl⟩
        refine grows_items (r := r.ask _) ht hhere ?_ ?_
        · rintro f rfl item hmem path htask
          exact hfiles f path hfolder (htasks item hmem _ htask)
        · intro item hmem path htask r ht hhere
          exact ih ht hhere (.inner hfolder (htasks item hmem _ htask))
    · exact .refl

/-- **Retrieved entries stay where they belong.** Whatever the host answers and however the retrieval ends, it
puts entries into the tree one after the other, each inside the target folder, or a folder that leads there;
and everything else is as it was. -/
theorem retrieval_contained (host : Host) (start branch target : String) (r : Retrieval)
    (htree : r.tree.WellFormed)
    (hfiles : ∀ folder path, host.Enters branch (.string start) (.string folder) →
      .file path ∈ host.tasks branch (.string folder) → IsInner folder) :
    r.tree.Grows (Contained r.tree.here target) (Retrieval.folder host start branch target r).2.tree ∧
      ∀ p, ¬ Place.resolve r.tree.here target <+: p → p ∉ trail r.tree.here target →
        (Retrieval.folder host start branch target r).2.tree.at? p = r.tree.at? p := by
  have hgrown : r.tree.Grows (Contained r.tree.here target)
      (Retrieval.folder host start branch target r).2.tree :=
    grows_folderDown htree.rooted rfl hfiles .start _
  refine ⟨hgrown, fun p hout htrail => ?_⟩
  rcases hgrown.at?_eq_or p with heq | ⟨entry, -, hinside | ⟨-, hmem⟩⟩
  · exact heq
  · exact absurd hinside hout
  · exact absurd hmem htrail

/-- Two folders with a file each; the path of the second file leads out of its folder. -/
def nearby : Host :=
  [(listingUrl "d" "main", MirrorJob.listing [("file", "d/a"), ("dir", "d/e")]),
    (listingUrl "d/e" "main", MirrorJob.listing [("file", "../b")]), (fileUrl "../b" "main", {})]

theorem enters_nearby {folder : Json} (h : nearby.Enters "main" (.string "d") folder) :
    folder = .string "d" ∨ folder = .string "d/e" := by
  have hd : nearby.tasks "main" (.string "d") = [.file (.string "d/a"), .folder (.string "d/e")] := by rfl
  have he : nearby.tasks "main" (.string "d/e") = [.file (.string "../b")] := by rfl
  induction h with
  | start => exact .inl rfl
  | inner _ hmem ih =>
    rcases ih with rfl | rfl
    · rw [hd] at hmem
      exact .inr (by simpa using hmem)
    · rw [he] at hmem
      simp at hmem

/-- The file is put into the folder that lists it. -/
theorem retrieval_contained_nearby :
    let r : Retrieval := { tree := { entries := [(["w"], .folder)], here := ["w"] } }
    r.tree.WellFormed ∧
      (∀ folder path, nearby.Enters "main" (.string "d") (.string folder) →
        .file path ∈ nearby.tasks "main" (.string folder) → IsInner folder) ∧
      (Retrieval.folder nearby "d" "main" "t" r).2.tree.at? ["w", "b"] = none := by
  intro r
  have htree : r.tree.WellFormed := by decide
  have hfiles : ∀ folder path, nearby.Enters "main" (.string "d") (.string folder) →
      .file path ∈ nearby.tasks "main" (.string folder) → IsInner folder := by
    intro folder path h _
    rcases enters_nearby h with h | h <;> cases h <;> exact ⟨by decide +kernel, by decide +kernel⟩
  refine ⟨htree, hfiles, ?_⟩
  rw [(retrieval_contained nearby "d" "main" "t" r htree hfiles).2 ["w", "b"] (by decide +kernel)
    (by decide +kernel)]
  rfl

/-- A folder that lists one above the target, with a file. -/
def outward : MirrorJob where
  host := [(listingUrl "d" "main", MirrorJob.listing [("dir", "../x")]),
    (listingUrl "../x" "main", MirrorJob.listing [("file", "f")]), (fileUrl "f" "main", { content := [1] })]
  branch := "main"
  start := "d"
  target := "a/b"
  before := {}

/-- The folder with the target is made, and the file is put beside the target. -/
theorem retrieval_not_contained :
    IsInner outward.start ∧ ∃ r, outward.run = (.ok (), r) ∧
      r.tree.at? ["a"] = some .folder ∧ r.tree.at? ["a", "x", "f"] = some (.file [1]) ∧
        Place.resolve outward.here outward.target = ["a", "b"] := by
  have hregular : outward.isRegular ["d", "../x"] = true := by decide +kernel
  have hreg := MirrorJob.regular_of_isRegular hregular
  have hclash := MirrorJob.noClash_of_isClashFree hregular (by decide +kernel)
  have hd : outward.host.itemsAt "main" "d" = [.folder "../x"] := by rfl
  have hx : outward.host.itemsAt "main" "../x" = [.file "f"] := by rfl
  have hdown : Visits outward.host "main" "../x" (outward.host.itemsAt "main" "../x") [.file "../x" "f"] := by
    rw [hx]
    exact .file _ (.nil _)
  have hwalk : IsWalk outward.host "main" "d" [.folder "d", .folder "../x", .file "../x" "f"] := by
    refine ⟨_, ?_, rfl⟩
    rw [hd]
    exact .folder hdown (.nil _)
  have hfetch : ∀ folder path, outward.Fetches folder path → folder = "../x" ∧ path = "f" := by
    intro folder path h
    simpa using hwalk.file_mem_iff.2 h
  have hpaths : outward.Admissible := by
    intro folder path h
    obtain ⟨rfl, rfl⟩ := hfetch folder path h
    decide +kernel
  obtain ⟨r, hrun, hreached⟩ := MirrorJob.reached_carryOut hreg hclash hpaths
    (fun _ _ => hwalk.file_mem_iff.1) (MirrorJob.reached_nil outward)
  rw [← MirrorJob.run_eq_carryOut hreg hwalk] at hrun
  have hmirrors := hreached.mirrors
  refine ⟨⟨by decide +kernel, by decide +kernel⟩, r, hrun, ?_, ?_, by decide +kernel⟩
  · exact hmirrors.made "../x" "f" (by simp) ["a"] (by decide +kernel)
  · exact hmirrors.stored ["a", "x", "f"] [1] (by decide +kernel)

end Remote

end McdocSchema
