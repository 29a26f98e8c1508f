import McdocSchema.Proofs.RemoteWalk
import McdocSchema.Proofs.WrittenPlaces

/-!
# Mirrored folders

What retrieving a remote folder does, and all that it does. An invariant (`Reached`) tells what has been
asked for and printed, and what is there, when some visits of the walk are done. Every visit keeps it
(`reached_visit`), and so the walk does. What the host refuses does not disturb the rest. What the tree
refuses ends the retrieval, so it comes to its end exactly if all local paths are admitted (`run_mirrors`).
-/

namespace McdocSchema.Remote

/-! ## Folders to mirror -/

/-- A folder to mirror: the host with the branch and the folder, the local folder, and what is there
before. -/
structure MirrorJob where
  host : Host
  branch : String
  start : String
  target : String
  before : Retrieval

namespace MirrorJob

variable (job : MirrorJob)

abbrev tree : FileTree := job.before.tree

/-- The place at which paths start. -/
abbrev here : Place := job.tree.here

/-- The path of the local folder for a folder. -/
def folderPath (folder : String) : String := WrittenPath.join job.target folder

/-- The path of the local file for a file of a folder. -/
def filePath (folder path : String) : String :=
  WrittenPath.join (job.folderPath folder) (WrittenPath.lastName path)

/-- The places that lead to the local folder for a folder, its own the last. -/
def way (folder : String) : List Place := WrittenPath.trail job.here (job.folderPath folder)

/-- The place of the local file for a file of a folder. -/
def place (folder path : String) : Place := Place.resolve job.here (job.filePath folder path)

/-- The answer to the request for a file. -/
def answer (path : String) : Response := job.host.answer (fileUrl path job.branch)

/-- A file is asked for: a folder lists it that is reached. -/
def Fetches (folder path : String) : Prop :=
  job.host.Reaches job.branch job.start folder ∧ .file path ∈ job.host.itemsAt job.branch folder

/-- A file is asked for, and the host gives it. -/
def Stores (folder path : String) : Prop :=
  job.Fetches folder path ∧ (job.answer path).good = true

/-- What a visit stores at a place. -/
def content? (p : Place) : Visit → Option (List UInt8)
  | .folder _ => none
  | .file folder path =>
    if (job.answer path).good ∧ job.place folder path = p then some (job.answer path).content else none

/-- What visits leave at a place: the last one that stores something there decides. -/
def stored? (visits : List Visit) (p : Place) : Option (List UInt8) :=
  visits.reverse.findSome? (job.content? p)

/-- The tree after visits: the files that were given out, the folders that lead to the files that were
asked for, and all else as it was. -/
structure Mirrors (visits : List Visit) (tree : FileTree) : Prop where
  here : tree.here = job.here
  stored : ∀ p octets, job.stored? visits p = some octets → tree.at? p = some (.file octets)
  made : ∀ folder path, .file folder path ∈ visits →
    ∀ p ∈ job.way folder, tree.at? p = some .folder
  kept : ∀ p, job.stored? visits p = none →
    (∀ folder path, .file folder path ∈ visits → p ∉ job.way folder) → tree.at? p = job.tree.at? p

/-- The listings have the form of listings, no folder is listed below itself, and files have names. -/
structure Regular : Prop where
  listed : ∀ folder, job.host.Reaches job.branch job.start folder →
    (job.host.items? job.branch folder).isSome = true
  acyclic : ∀ folder, job.host.Reaches job.branch job.start folder →
    ¬ Relation.TransGen (job.host.Lists job.branch) folder folder
  named : ∀ folder path, job.Fetches folder path →
    WrittenPath.lastName path ∉ ["", ".", ".."]

/-- No file is in the way of a folder and no folder in that of a file, neither before nor later. -/
structure NoClash : Prop where
  here : job.tree.at? job.here = some .folder
  free : ∀ folder path, job.Fetches folder path → job.tree.FreeOfFiles (job.way folder)
  vacant : ∀ folder path, job.Stores folder path →
    job.tree.at? (job.place folder path) ≠ some .folder
  apart : ∀ folder path folder' path', job.Stores folder path → job.Fetches folder' path' →
    job.place folder path ∉ job.way folder'

/-- The local paths for a file are none that a tree refuses: the empty path, and paths with a zero
character. -/
structure Admits (folder path : String) : Prop where
  ne_empty : job.folderPath folder ≠ ""
  zero_folder : '\x00' ∉ (job.folderPath folder).toList
  zero_file : (job.answer path).good = true → '\x00' ∉ (job.filePath folder path).toList

instance (folder path : String) : Decidable (job.Admits folder path) :=
  decidable_of_iff (job.folderPath folder ≠ "" ∧ '\x00' ∉ (job.folderPath folder).toList ∧
      ((job.answer path).good = true → '\x00' ∉ (job.filePath folder path).toList))
    ⟨fun ⟨hempty, hfolder, hfile⟩ => ⟨hempty, hfolder, hfile⟩,
      fun h => ⟨h.ne_empty, h.zero_folder, h.zero_file⟩⟩

/-- All local paths are ones that a tree takes. -/
def Admissible : Prop := ∀ folder path, job.Fetches folder path → job.Admits folder path

def run : Except Fault Unit × Retrieval :=
  Retrieval.folder job.host job.start job.branch job.target job.before

variable {job}

/-! ## What is stored -/

variable {visits : List Visit}

theorem stored?_concat (visits : List Visit) (visit : Visit) (p : Place) :
    job.stored? (visits ++ [visit]) p = (job.content? p visit).or (job.stored? visits p) := by
  rw [stored?, List.reverse_append, List.reverse_singleton, List.singleton_append,
    List.findSome?_cons]
  cases job.content? p visit <;> rfl

theorem stored?_eq_none_iff {p : Place} :
    job.stored? visits p = none ↔ ∀ folder path, .file folder path ∈ visits →
      (job.answer path).good = true → job.place folder path ≠ p := by
  rw [stored?, List.findSome?_eq_none_iff]
  constructor
  · intro h folder path hmem hgood hplace
    have hnone := h _ (List.mem_reverse.2 hmem)
    simp [content?, hgood, hplace] at hnone
  · intro h visit hvisit
    cases visit with
    | folder path => rfl
    | file folder path =>
      exact if_neg fun hstored => h folder path (List.mem_reverse.1 hvisit) hstored.1 hstored.2

/-- A place at which no visit stores a file is that of a folder on the way, or it is as it was. -/
theorem Mirrors.at?_cases {tree : FileTree} (h : job.Mirrors visits tree)
    (p : Place) :
    (∃ folder path, .file folder path ∈ visits ∧ (job.answer path).good = true ∧
      job.place folder path = p) ∨
      tree.at? p = some .folder ∨ tree.at? p = job.tree.at? p := by
  by_cases hstored : job.stored? visits p = none
  · by_cases hway : ∃ folder path, .file folder path ∈ visits ∧ p ∈ job.way folder
    · obtain ⟨folder, path, hmem, hin⟩ := hway
      exact .inr (.inl (h.made folder path hmem p hin))
    · exact .inr (.inr (h.kept p hstored fun folder path hmem hin =>
        hway ⟨folder, path, hmem, hin⟩))
  · rw [stored?_eq_none_iff] at hstored
    simp only [Classical.not_forall, not_not] at hstored
    obtain ⟨folder, path, hmem, hgood, hplace⟩ := hstored
    exact .inl ⟨folder, path, hmem, hgood, hplace⟩

theorem fetches_concat {folder path : String}
    (hvisits : ∀ folder path, .file folder path ∈ visits → job.Fetches folder path)
    (hfetch : job.Fetches folder path) :
    ∀ f q, .file f q ∈ visits ++ [.file folder path] → job.Fetches f q := by
  intro f q hmem
  rcases List.mem_append.1 hmem with hmem | hmem
  · exact hvisits f q hmem
  · cases List.mem_singleton.1 hmem
    exact hfetch

section

variable {visits : List Visit} {tree : FileTree} {folder path : String} (hclash : job.NoClash)
  (hvisits : ∀ folder path, .file folder path ∈ visits → job.Fetches folder path)
  (h : job.Mirrors visits tree)

include hclash hvisits h

theorem Mirrors.stays_folder {p : Place} (hp : job.tree.at? p = some .folder) :
    tree.at? p = some .folder := by
  rcases h.at?_cases p with ⟨folder, path, hmem, hgood, rfl⟩ | hfolder | hkept
  · exact absurd hp (hclash.vacant folder path ⟨hvisits folder path hmem, hgood⟩)
  · exact hfolder
  · rw [hkept, hp]

/-- On the way of a file that is asked for stands no file. -/
theorem Mirrors.freeOfFiles (hfetch : job.Fetches folder path) :
    tree.FreeOfFiles (job.way folder) := by
  intro p hp octets
  rcases h.at?_cases p with ⟨folder', path', hmem, hgood, rfl⟩ | hfolder | hkept
  · exact absurd hp
      (hclash.apart folder' path' folder path ⟨hvisits folder' path' hmem, hgood⟩ hfetch)
  · simp [hfolder]
  · rw [hkept]
    exact hclash.free folder path hfetch p hp octets

/-- Where a file is to be stored stands no folder. -/
theorem Mirrors.vacant (hstore : job.Stores folder path) :
    tree.at? (job.place folder path) ≠ some .folder := by
  cases hstored : job.stored? visits (job.place folder path) with
  | some octets => simp [h.stored _ octets hstored]
  | none =>
    rw [h.kept _ hstored]
    · exact hclash.vacant folder path hstore
    · intro folder' path' hmem
      exact hclash.apart folder path folder' path' hstore (hvisits folder' path' hmem)

end

/-! ## Single visits -/

/-- The tree after a file was asked for. -/
def fetch (job : MirrorJob) (tree : FileTree) (folder path : String) : FileTree :=
  if (job.answer path).good then
    (tree.addFolders (job.way folder)).put (job.place folder path) (.file (job.answer path).content)
  else tree.addFolders (job.way folder)

theorem here_fetch (tree : FileTree) (folder path : String) :
    (job.fetch tree folder path).here = tree.here := by
  have hput : ∀ (t : FileTree) (p : Place) (entry : Entry), (t.put p entry).here = t.here :=
    fun _ _ _ => rfl
  unfold fetch
  split
  · rw [hput, FileTree.here_addFolders]
  · rw [FileTree.here_addFolders]

/-- What stands where after a file was asked for. -/
theorem at?_fetch (tree : FileTree) (folder path : String)
    (hne : (job.answer path).good = true → job.place folder path ≠ []) (p : Place) :
    (job.fetch tree folder path).at? p =
      if (job.answer path).good ∧ job.place folder path = p then
        some (.file (job.answer path).content)
      else (tree.addFolders (job.way folder)).at? p := by
  unfold fetch
  by_cases hgood : (job.answer path).good = true
  · rw [if_pos hgood, FileTree.at?_put (hne hgood)]
    simp [hgood, eq_comm]
  · rw [if_neg hgood, if_neg fun hand => hgood hand.1]

theorem Mirrors.folder {tree : FileTree} (h : job.Mirrors visits tree)
    (path : String) : job.Mirrors (visits ++ [.folder path]) tree := by
  have hstored : job.stored? (visits ++ [.folder path]) = job.stored? visits := by
    funext p
    rw [stored?_concat]
    rfl
  have hmem : ∀ f q, .file f q ∈ visits ++ [.folder path] ↔ .file f q ∈ visits := by simp
  refine ⟨h.here, ?_, ?_, ?_⟩
  · rw [hstored]
    exact h.stored
  · simp only [hmem]
    exact h.made
  · simp only [hmem, hstored]
    exact h.kept

theorem Mirrors.fetch {tree : FileTree} {folder path : String}
    (hclash : job.NoClash)
    (hvisits : ∀ folder path, .file folder path ∈ visits → job.Fetches folder path)
    (h : job.Mirrors visits tree) (hfetch : job.Fetches folder path) :
    job.Mirrors (visits ++ [.file folder path]) (job.fetch tree folder path) := by
  have hat := at?_fetch tree folder path fun hgood hnil =>
    hclash.vacant folder path ⟨hfetch, hgood⟩ (by rw [hnil]; rfl)
  refine ⟨(here_fetch tree folder path).trans h.here, ?_, ?_, ?_⟩
  · intro p octets hstored
    rw [stored?_concat, content?] at hstored
    rw [hat]
    split at hstored
    · next hhere =>
      rw [if_pos hhere]
      rw [Option.some_or, Option.some_inj] at hstored
      rw [hstored]
    · next hnot =>
      rw [if_neg hnot]
      exact FileTree.at?_addFolders_of_some (h.stored p octets hstored)
  · intro folder' path' hmem p hp
    have hfetch' := fetches_concat hvisits hfetch folder' path' hmem
    rw [hat, if_neg]
    · rcases List.mem_append.1 hmem with hmem | hmem
      · exact FileTree.at?_addFolders_of_some (h.made folder' path' hmem p hp)
      · cases List.mem_singleton.1 hmem
        exact FileTree.at?_addFolders_of_mem (h.freeOfFiles hclash hvisits hfetch) hp
    -- A file that is stored is on no way to another one.
    · rintro ⟨hgood, rfl⟩
      exact hclash.apart folder path folder' path' ⟨hfetch, hgood⟩ hfetch' hp
  · intro p hstored hway
    rw [stored?_concat, content?] at hstored
    rw [hat]
    split at hstored
    · rw [Option.some_or] at hstored
      cases hstored
    · next hnot =>
      have hout : p ∉ job.way folder := hway folder path (by simp)
      rw [if_neg hnot, FileTree.at?_addFolders, if_neg fun hand => hout hand.1]
      exact h.kept p hstored fun folder' path' hmem => hway folder' path' (List.mem_append_left _ hmem)

section

variable {visits : List Visit} {folder path : String} {tree : FileTree} (hreg : job.Regular)
  (hclash : job.NoClash) (hpaths : job.Admits folder path)
  (hvisits : ∀ folder path, .file folder path ∈ visits → job.Fetches folder path)

include hclash hpaths hvisits

/-- The folders on the way to a file that is asked for can be made. -/
theorem Mirrors.ensureWritten_eq (h : job.Mirrors visits tree) (hfetch : job.Fetches folder path) :
    tree.ensureWritten (job.folderPath folder) = (.ok (), tree.addFolders (job.way folder)) ∧
      ∀ p ∈ WrittenPath.base job.here (job.folderPath folder) :: job.way folder,
        (tree.addFolders (job.way folder)).at? p = some .folder := by
  have hbase : tree.at? (WrittenPath.base job.here (job.folderPath folder)) = some .folder := by
    rw [WrittenPath.base]
    split
    · rfl
    · exact h.stays_folder hclash hvisits hclash.here
  have hfree := h.freeOfFiles hclash hvisits hfetch
  constructor
  · unfold way at hfree ⊢
    rw [← h.here] at hbase hfree ⊢
    exact FileTree.ensureWritten_eq hpaths.ne_empty hpaths.zero_folder hbase hfree
  · rw [List.forall_mem_cons]
    exact ⟨FileTree.at?_addFolders_of_some hbase, fun p hp => FileTree.at?_addFolders_of_mem hfree hp⟩

include hreg

/-- Behind the folders on its way, a file that is given out can be written. -/
theorem Mirrors.write_eq (h : job.Mirrors visits tree) (hstore : job.Stores folder path)
    (octets : List UInt8) :
    (tree.addFolders (job.way folder)).write (job.filePath folder path) octets =
      .ok ((tree.addFolders (job.way folder)).put (job.place folder path) (.file octets)) := by
  have hhere : (tree.addFolders (job.way folder)).here = job.here :=
    (FileTree.here_addFolders tree _).trans h.here
  have hname : WrittenPath.lastName path ≠ "" := fun hempty =>
    hreg.named folder path hstore.1 (by simp [hempty])
  have hvacant : (tree.addFolders (job.way folder)).at? (job.place folder path) ≠ some .folder := by
    have hout := hclash.apart folder path folder path hstore hstore.1
    rw [FileTree.at?_addFolders, if_neg fun hand => hout hand.1]
    exact h.vacant hclash hvisits hstore
  unfold place at hvacant ⊢
  rw [← hhere] at hvacant ⊢
  refine FileTree.write_join hpaths.ne_empty (WrittenPath.slash_not_mem_lastName path) hname
    (hpaths.zero_file hstore.2) ?_ hvacant
  rw [hhere]
  exact (h.ensureWritten_eq hclash hpaths hvisits hstore.1).2

theorem file_eq {r : Retrieval} (h : job.Mirrors visits r.tree) (hfetch : job.Fetches folder path) :
    Retrieval.file job.host job.branch path (job.folderPath folder) r =
      (.ok (),
        { tree := job.fetch r.tree folder path
          requests := r.requests ++ [Visit.request job.branch (.file folder path)]
          lines := r.lines ++ Visit.report job.host job.branch (.file folder path) }) := by
  have hensure := (h.ensureWritten_eq hclash hpaths hvisits hfetch).1
  by_cases hgood : (job.answer path).good = true
  · have hwrite := h.write_eq hreg hclash hpaths hvisits ⟨hfetch, hgood⟩ (job.answer path).content
    rw [fetch, if_pos hgood]
    unfold filePath at hwrite
    unfold answer at hwrite hgood
    simp [Retrieval.file, hensure, hgood, hwrite, answer, Visit.report, Visit.request, Retrieval.ask,
      Retrieval.print]
  · rw [fetch, if_neg hgood]
    unfold answer at hgood
    simp [Retrieval.file, hensure, hgood, Visit.report, Visit.request, Retrieval.ask, Retrieval.print]

end

/-! ## Walks -/

/-- What is reached when visits are done. -/
structure Reached (job : MirrorJob) (visits : List Visit) (r : Retrieval) : Prop where
  fetched : ∀ folder path, .file folder path ∈ visits → job.Fetches folder path
  requests : r.requests = job.before.requests ++ visits.map (Visit.request job.branch)
  lines : r.lines = job.before.lines ++ visits.flatMap (Visit.report job.host job.branch)
  mirrors : job.Mirrors visits r.tree

variable {r : Retrieval} {visits : List Visit} {folder path : String}

theorem reached_nil (job : MirrorJob) : job.Reached [] job.before where
  fetched := by simp
  requests := by simp
  lines := by simp
  mirrors := by
    refine ⟨rfl, ?_, by simp, fun _ _ _ => rfl⟩
    intro p octets hstored
    cases hstored

/-- A folder is noted where it is asked for, and reported if the host refuses it. -/
theorem reached_folder (h : job.Reached visits r) (path : String) :
    job.Reached (visits ++ [.folder path])
      { r with
        requests := r.requests ++ [Visit.request job.branch (.folder path)]
        lines := r.lines ++ Visit.report job.host job.branch (.folder path) } where
  fetched := by simpa using h.fetched
  requests := by simp [h.requests]
  lines := by simp [h.lines]
  mirrors := h.mirrors.folder path

section

variable (hreg : job.Regular) (hclash : job.NoClash) (hpaths : job.Admissible)

include hreg hclash hpaths

theorem reached_file (h : job.Reached visits r) (hfetch : job.Fetches folder path) :
    ∃ r', Retrieval.file job.host job.branch path (job.folderPath folder) r = (.ok (), r') ∧
      job.Reached (visits ++ [.file folder path]) r' := by
  refine ⟨_, file_eq hreg hclash (hpaths folder path hfetch) h.fetched h.mirrors hfetch, ?_⟩
  refine ⟨fetches_concat h.fetched hfetch, ?_, ?_, ?_⟩
  · simp [h.requests]
  · simp [h.lines]
  · exact h.mirrors.fetch hclash h.fetched hfetch

/-- Every visit of the walk keeps the invariant. -/
theorem reached_visit {visit : Visit}
    (hvisit : ∀ folder path, visit = .file folder path → job.Fetches folder path)
    (h : job.Reached visits r) :
    ∃ r', visit.carryOut job.host job.branch job.target r = (.ok (), r') ∧
      job.Reached (visits ++ [visit]) r' := by
  cases visit with
  | folder path => exact ⟨_, rfl, reached_folder h path⟩
  | file folder path =>
    rw [Visit.carryOut]
    exact reached_file hreg hclash hpaths h (hvisit folder path rfl)

/-- Visits of the walk keep the invariant. -/
theorem reached_carryOut {done : List Visit}
    (hvisits : ∀ folder path, .file folder path ∈ visits → job.Fetches folder path)
    (h : job.Reached done r) :
    ∃ r', carryOut job.host job.branch job.target visits r = (.ok (), r') ∧
      job.Reached (done ++ visits) r' := by
  induction visits generalizing done r with
  | nil => exact ⟨r, rfl, by rwa [List.append_nil]⟩
  | cons visit visits ih =>
    obtain ⟨r₁, hvisit, hdone⟩ := reached_visit hreg hclash hpaths
      (fun folder path heq => hvisits folder path (heq ▸ List.mem_cons_self)) h
    obtain ⟨r', hrest, hreached⟩ := ih
      (fun folder path hmem => hvisits folder path (List.mem_cons_of_mem visit hmem)) hdone
    refine ⟨r', ?_, by simpa using hreached⟩
    rw [carryOut, hvisit]
    exact hrest

end

/-! ## Paths that are refused -/

/-- A file whose local paths are refused ends the retrieval. -/
theorem file_error (h : ¬ job.Admits folder path) (r : Retrieval) :
    ∃ fault r', Retrieval.file job.host job.branch path (job.folderPath folder) r =
      (.error fault, r') := by
  unfold Retrieval.file
  by_cases hempty : job.folderPath folder = ""
  · rw [hempty, FileTree.ensureWritten_empty]
    exact ⟨_, _, rfl⟩
  · cases hensure : r.tree.ensureWritten (job.folderPath folder) with
    | mk result tree =>
      cases result with
      | error fault => exact ⟨_, _, rfl⟩
      | ok _ =>
        have hfolder : '\x00' ∉ (job.folderPath folder).toList := by
          intro hzero
          obtain ⟨fault, tree', hfault, -⟩ :=
            r.tree.ensureWrittenFrom_zero (job.folderPath folder).length hzero
          rw [FileTree.ensureWritten, hfault] at hensure
          cases hensure
        obtain ⟨hgood, hfile⟩ : (job.answer path).good = true ∧
            '\x00' ∈ (job.filePath folder path).toList := by
          by_contra hnot
          exact h ⟨hempty, hfolder, fun hgood hfile => hnot ⟨hgood, hfile⟩⟩
        have hwrite := tree.write_zero (job.answer path).content hfile
        unfold filePath at hwrite
        unfold answer at hgood hwrite
        simp [hgood, hwrite]

/-- Visits that are carried out have admitted paths. -/
theorem admits_of_carryOut {r' : Retrieval}
    (h : carryOut job.host job.branch job.target visits r = (.ok (), r')) :
    ∀ folder path, .file folder path ∈ visits → job.Admits folder path := by
  induction visits generalizing r with
  | nil => simp
  | cons visit visits ih =>
    intro folder path hmem
    rw [carryOut] at h
    rcases List.mem_cons.1 hmem with rfl | hmem
    · by_contra hnot
      obtain ⟨fault, r₁, hfile⟩ := file_error hnot r
      rw [Visit.carryOut] at h
      unfold folderPath at hfile
      rw [hfile] at h
      cases h
    · cases hvisit : visit.carryOut job.host job.branch job.target r with
      | mk result r₁ =>
        rw [hvisit] at h
        cases result with
        | error fault => cases h
        | ok _ => exact ih h folder path hmem

/-! ## Checking what is presupposed -/

section

variable (job)

/-- The files that folders list, each with its folder. -/
def files (folders : List String) : List (String × String) :=
  folders.flatMap fun folder =>
    ((job.host.itemsAt job.branch folder).filterMap Item.file?).map (folder, ·)

/-- The folders stand in an order in which each of them lists later ones only. -/
def isOrdered : List String → Bool
  | [] => true
  | folder :: folders =>
    (job.host.items? job.branch folder).isSome && !folders.contains folder &&
      ((job.host.itemsAt job.branch folder).filterMap Item.folder?).all folders.contains &&
      isOrdered folders

/-- The folders are in order, the one to mirror is among them, and files have names. -/
def isRegular (folders : List String) : Bool :=
  job.isOrdered folders && folders.contains job.start &&
    (job.files folders).all fun e => !(["", ".", ".."].contains (WrittenPath.lastName e.2))

/-- Nothing clashes with a file that the folders list. -/
def isClashFree (folders : List String) : Bool :=
  job.tree.at? job.here == some .folder &&
    (job.files folders).all fun e =>
      decide (job.tree.FreeOfFiles (job.way e.1)) &&
        (!(job.answer e.2).good ||
          job.tree.at? (job.place e.1 e.2) != some .folder &&
            (job.files folders).all fun e' => !(job.way e'.1).contains (job.place e.1 e.2))

end

section

variable {folders : List String}

theorem isOrdered_cons {folder : String} (h : job.isOrdered (folder :: folders) = true) :
    (job.host.items? job.branch folder).isSome = true ∧ folder ∉ folders ∧
      (∀ inner, job.host.Lists job.branch folder inner → inner ∈ folders) ∧
      job.isOrdered folders = true := by
  simp only [isOrdered, Bool.and_eq_true, Bool.not_eq_true', List.all_eq_true, List.contains_iff_mem,
    List.mem_filterMap] at h
  obtain ⟨⟨⟨hsome, hnew⟩, hinner⟩, hrest⟩ := h
  refine ⟨hsome, by simpa using hnew, fun inner hlists => ?_, hrest⟩
  exact hinner inner ⟨_, hlists, rfl⟩

variable {f g : String} (h : job.isOrdered folders = true) (hf : f ∈ folders)

include h hf

theorem isSome_items?_of_isOrdered : (job.host.items? job.branch f).isSome = true := by
  induction folders with
  | nil => cases hf
  | cons folder folders ih =>
    obtain ⟨hsome, -, -, hrest⟩ := isOrdered_cons h
    rcases List.mem_cons.1 hf with rfl | hf
    · exact hsome
    · exact ih hrest hf

theorem mem_of_lists (hlists : job.host.Lists job.branch f g) : g ∈ folders := by
  induction folders with
  | nil => cases hf
  | cons folder folders ih =>
    obtain ⟨-, -, hinner, hrest⟩ := isOrdered_cons h
    rcases List.mem_cons.1 hf with rfl | hf
    · exact List.mem_cons_of_mem f (hinner g hlists)
    · exact List.mem_cons_of_mem folder (ih hrest hf)

theorem mem_of_reaches (hreach : job.host.Reaches job.branch f g) : g ∈ folders := by
  induction hreach with
  | refl => exact hf
  | tail _ hlists ih => exact mem_of_lists h ih hlists

/-- A folder is not listed below itself, since only later ones are. -/
theorem not_transGen_of_isOrdered : ¬ Relation.TransGen (job.host.Lists job.branch) f f := by
  induction folders with
  | nil => cases hf
  | cons folder folders ih =>
    obtain ⟨-, hnew, hinner, hrest⟩ := isOrdered_cons h
    rcases List.mem_cons.1 hf with rfl | hf
    · intro hcycle
      obtain ⟨inner, hlists, hback⟩ := Relation.TransGen.head'_iff.1 hcycle
      exact hnew (mem_of_reaches hrest (hinner inner hlists) hback)
    · exact ih hrest hf

end

section

variable {folders : List String}

theorem mem_files {folder path : String} (hstart : job.start ∈ folders)
    (h : job.isOrdered folders = true) (hfetch : job.Fetches folder path) :
    (folder, path) ∈ job.files folders := by
  refine List.mem_flatMap.2 ⟨folder, mem_of_reaches h hstart hfetch.1, ?_⟩
  exact List.mem_map.2 ⟨path, List.mem_filterMap.2 ⟨_, hfetch.2, rfl⟩, rfl⟩

theorem regular_of_isRegular (h : job.isRegular folders = true) : job.Regular := by
  simp only [isRegular, Bool.and_eq_true, List.contains_iff_mem, List.all_eq_true] at h
  obtain ⟨⟨hordered, hstart⟩, hnamed⟩ := h
  refine ⟨?_, ?_, ?_⟩
  · exact fun folder hreach =>
      isSome_items?_of_isOrdered hordered (mem_of_reaches hordered hstart hreach)
  · exact fun folder hreach =>
      not_transGen_of_isOrdered hordered (mem_of_reaches hordered hstart hreach)
  · intro folder path hfetch
    simpa using hnamed _ (mem_files hstart hordered hfetch)

theorem noClash_of_isClashFree (hregular : job.isRegular folders = true)
    (h : job.isClashFree folders = true) : job.NoClash := by
  simp only [isRegular, Bool.and_eq_true, List.contains_iff_mem] at hregular
  obtain ⟨⟨hordered, hstart⟩, -⟩ := hregular
  have hmem : ∀ folder path, job.Fetches folder path → (folder, path) ∈ job.files folders :=
    fun folder path => mem_files hstart hordered
  simp only [isClashFree, Bool.and_eq_true, Bool.or_eq_true, Bool.not_eq_true', List.all_eq_true,
    beq_iff_eq, bne_iff_ne, decide_eq_true_eq] at h
  obtain ⟨hhere, hfiles⟩ := h
  refine ⟨hhere, ?_, ?_, ?_⟩
  · exact fun folder path hfetch => (hfiles _ (hmem folder path hfetch)).1
  · intro folder path hstore
    refine ((hfiles _ (hmem folder path hstore.1)).2.resolve_left ?_).1
    simp [hstore.2]
  · intro folder path folder' path' hstore hfetch
    have hapart := ((hfiles _ (hmem folder path hstore.1)).2.resolve_left (by simp [hstore.2])).2
    simpa using hapart _ (hmem folder' path' hfetch)

end

/-! ## Whole folders -/

theorem run_eq_carryOut {walk : List Visit} (hreg : job.Regular)
    (hwalk : IsWalk job.host job.branch job.start walk) :
    job.run = carryOut job.host job.branch job.target walk job.before := by
  obtain ⟨walk', hwalk', hrun⟩ := exists_walk hreg.listed hreg.acyclic
  rw [hwalk.unique hwalk']
  exact hrun job.target job.before

/-- Where the listings are regular and nothing clashes, the retrieval of a folder follows its walk,
which notes the folders that are reached and the files that they list. If the tree refuses none of the
local paths, it makes the requests of the walk and leaves the mirrored folder, whatever the host
refuses; otherwise it ends early. -/
theorem run_mirrors (job : MirrorJob) (hreg : job.Regular) (hclash : job.NoClash) :
    ∃ walk, IsWalk job.host job.branch job.start walk ∧
      (∀ walk', IsWalk job.host job.branch job.start walk' → walk' = walk) ∧
      (∀ folder, .folder folder ∈ walk ↔ job.host.Reaches job.branch job.start folder) ∧
      (∀ folder path, .file folder path ∈ walk ↔ job.Fetches folder path) ∧
      (job.Admissible → ∃ r, job.run = (.ok (), r) ∧
        r.requests = job.before.requests ++ walk.map (Visit.request job.branch) ∧
        r.lines = job.before.lines ++ walk.flatMap (Visit.report job.host job.branch) ∧
        job.Mirrors walk r.tree) ∧
      ∀ r, job.run = (.ok (), r) → job.Admissible := by
  obtain ⟨walk, hwalk, -⟩ := exists_walk hreg.listed hreg.acyclic
  have hrun := run_eq_carryOut hreg hwalk
  have hfiles : ∀ folder path, .file folder path ∈ walk ↔ job.Fetches folder path :=
    fun folder path => hwalk.file_mem_iff
  refine ⟨walk, hwalk, fun walk' h => h.unique hwalk, fun folder => hwalk.folder_mem_iff, hfiles,
    ?_, ?_⟩
  · intro hpaths
    obtain ⟨r, hcarried, hreached⟩ := reached_carryOut hreg hclash hpaths
      (fun folder path hmem => (hfiles folder path).1 hmem) (reached_nil job)
    exact ⟨r, hrun.trans hcarried, hreached.requests, hreached.lines, hreached.mirrors⟩
  · intro r hok folder path hfetch
    exact admits_of_carryOut (hrun.symm.trans hok) folder path ((hfiles folder path).2 hfetch)

/-- A good answer that lists items by their sorts and paths. -/
def listing (items : List (String × String)) : Response where
  listing := .array (items.map fun item =>
    .object [("type", .string item.1), ("path", .string item.2)])

/-- A folder with another one in it, one that the host does not list, a file that it does not give out,
and two files of one name. -/
def nested : MirrorJob where
  host := [
    (listingUrl "java" "main", listing [("file", "java/a.mcdoc"), ("dir", "java/util"),
      ("symlink", "java/s"), ("dir", "java/gone"), ("file", "old/a.mcdoc")]),
    (listingUrl "java/util" "main", listing [("file", "java/util/b.mcdoc")]),
    (fileUrl "java/a.mcdoc" "main", { content := [1] }),
    (fileUrl "old/a.mcdoc" "main", { content := [2] })]
  branch := "main"
  start := "java"
  target := "out"
  before := { tree := { entries := [(["w"], .folder), (["w", "java"], .file [3])], here := ["w"] } }

/-- The walk through the folder. -/
def nestedWalk : List Visit :=
  [.folder "java", .file "java" "java/a.mcdoc", .folder "java/util",
    .file "java/util" "java/util/b.mcdoc", .folder "java/gone", .file "java" "old/a.mcdoc"]

theorem isWalk_nested : IsWalk nested.host nested.branch nested.start nestedWalk := by
  have hjava : nested.host.itemsAt "main" "java" = [.file "java/a.mcdoc", .folder "java/util", .other,
      .folder "java/gone", .file "old/a.mcdoc"] := by rfl
  have hutil : nested.host.itemsAt "main" "java/util" = [.file "java/util/b.mcdoc"] := by rfl
  have hgone : nested.host.itemsAt "main" "java/gone" = [] := by rfl
  have hdown : Visits nested.host "main" "java/util" (nested.host.itemsAt "main" "java/util")
      [.file "java/util" "java/util/b.mcdoc"] := by
    rw [hutil]
    exact .file _ (.nil _)
  have hnone : Visits nested.host "main" "java/gone" (nested.host.itemsAt "main" "java/gone") [] := by
    rw [hgone]
    exact .nil _
  refine ⟨_, ?_, rfl⟩
  show Visits nested.host "main" "java" (nested.host.itemsAt "main" "java") _
  rw [hjava]
  exact .file _ (.folder hdown (.other (.folder hnone (.file _ (.nil _)))))

/-- The later one of the two files is left, the folder for the missing file is there, and the one that is
not listed is not. -/
theorem run_mirrors_nested :
    nested.Regular ∧ nested.NoClash ∧
    ∃ r, nested.run = (.ok (), r) ∧
      r.requests.map Request.url = [listingUrl "java" "main", fileUrl "java/a.mcdoc" "main",
        listingUrl "java/util" "main", fileUrl "java/util/b.mcdoc" "main",
        listingUrl "java/gone" "main", fileUrl "old/a.mcdoc" "main"] ∧
      r.tree.at? ["w", "out", "java", "a.mcdoc"] = some (.file [2]) ∧
      r.tree.at? ["w", "out", "java", "util"] = some .folder ∧
      r.tree.at? ["w", "out", "java", "gone"] = none ∧
      r.tree.at? ["w", "java"] = some (.file [3]) := by
  have hregular : nested.isRegular ["java", "java/util", "java/gone"] = true := by decide +kernel
  have hfree : nested.isClashFree ["java", "java/util", "java/gone"] = true := by decide +kernel
  have hreg := regular_of_isRegular hregular
  have hclash := noClash_of_isClashFree hregular hfree
  obtain ⟨walk, -, hunique, -, hfiles, hmirror, -⟩ := run_mirrors nested hreg hclash
  obtain rfl := hunique _ isWalk_nested
  have hcases : ∀ {folder path : String}, .file folder path ∈ nestedWalk →
      (folder = "java" ∧ path = "java/a.mcdoc") ∨
        (folder = "java/util" ∧ path = "java/util/b.mcdoc") ∨
        (folder = "java" ∧ path = "old/a.mcdoc") := by
    intro folder path hmem
    simpa [nestedWalk] using hmem
  have hpaths : nested.Admissible := by
    intro folder path hfetch
    rcases hcases ((hfiles folder path).2 hfetch) with ⟨rfl, rfl⟩ | ⟨rfl, rfl⟩ | ⟨rfl, rfl⟩
    all_goals decide +kernel
  have hjava : nested.way "java" = [["w", "out"], ["w", "out", "java"]] := by decide +kernel
  have hutil : nested.way "java/util" =
      [["w", "out"], ["w", "out", "java"], ["w", "out", "java", "util"]] := by decide +kernel
  have hout : ∀ p : Place, p ∉ [["w", "out"], ["w", "out", "java"], ["w", "out", "java", "util"]] →
      ∀ folder path, .file folder path ∈ nestedWalk → p ∉ nested.way folder := by
    intro p hp folder path hmem
    rcases hcases hmem with ⟨rfl, -⟩ | ⟨rfl, -⟩ | ⟨rfl, -⟩
    · rw [hjava]
      exact fun hin => hp (List.mem_append_left [_] hin)
    · rwa [hutil]
    · rw [hjava]
      exact fun hin => hp (List.mem_append_left [_] hin)
  obtain ⟨r, hrun, hrequests, -, hmirrors⟩ := hmirror hpaths
  refine ⟨hreg, hclash, r, hrun, ?_, ?_, ?_, ?_, ?_⟩
  · rw [hrequests]
    rfl
  · exact hmirrors.stored _ _ (by decide +kernel)
  · exact hmirrors.made "java/util" "java/util/b.mcdoc" (by simp [nestedWalk]) _ (by simp [hutil])
  · rw [hmirrors.kept _ (by decide +kernel) (hout _ (by decide))]
    rfl
  · rw [hmirrors.kept _ (by decide +kernel) (hout _ (by decide))]
    rfl

/-- A file of a folder without a name, to be mirrored into one without a name. -/
def unnamed : MirrorJob where
  host := [(listingUrl "" "main", listing [("file", "a")]),
    (fileUrl "a" "main", { content := [120] })]
  branch := "main"
  start := ""
  target := ""
  before := {}

/-- A file whose name holds a zero character. -/
def zeroNamed : MirrorJob where
  host := [(listingUrl "d" "main", listing [("file", "a\x00")]),
    (fileUrl "a\x00" "main", { content := [120] })]
  branch := "main"
  start := "d"
  target := ""
  before := {}

/-- A folder that is listed and holds nothing. -/
def bare : MirrorJob where
  host := [(listingUrl "d" "main", listing [])]
  branch := "main"
  start := "d"
  target := ""
  before := {}

theorem isWalk_unnamed :
    IsWalk unnamed.host unnamed.branch unnamed.start [.folder "", .file "" "a"] := by
  have hitems : unnamed.host.itemsAt "main" "" = [.file "a"] := by rfl
  exact ⟨_, hitems ▸ .file "a" (.nil ""), rfl⟩

theorem isWalk_zeroNamed :
    IsWalk zeroNamed.host zeroNamed.branch zeroNamed.start [.folder "d", .file "d" "a\x00"] := by
  have hitems : zeroNamed.host.itemsAt "main" "d" = [.file "a\x00"] := by rfl
  exact ⟨_, hitems ▸ .file "a\x00" (.nil "d"), rfl⟩

theorem isWalk_bare : IsWalk bare.host bare.branch bare.start [.folder "d"] := by
  have hitems : bare.host.itemsAt "main" "d" = [] := by rfl
  exact ⟨_, hitems ▸ .nil "d", rfl⟩

/-- Not every folder is mirrored: the tree refuses the path without a name and the one with a zero
character, and a folder without files is not made. -/
theorem run_not_mirrors :
    (unnamed.Regular ∧ unnamed.NoClash ∧ unnamed.Stores "" "a" ∧
      unnamed.run = (.error (.file ⟨.notFound, ""⟩),
        { requests := [Visit.request "main" (.folder "")] })) ∧
    (zeroNamed.Regular ∧ zeroNamed.NoClash ∧ zeroNamed.Stores "d" "a\x00" ∧
      ∀ r, zeroNamed.run ≠ (.ok (), r)) ∧
    bare.Regular ∧ bare.NoClash ∧ (bare.host.answer (listingUrl "d" "main")).good = true ∧
      ∃ r, bare.run = (.ok (), r) ∧
        r.tree.at? (Place.resolve bare.here (bare.folderPath "d")) = none := by
  refine ⟨?_, ?_, ?_⟩
  · have hregular : unnamed.isRegular [""] = true := by decide +kernel
    have hreg := regular_of_isRegular hregular
    have hjoin : WrittenPath.join unnamed.target "" = "" := by decide +kernel
    refine ⟨hreg, noClash_of_isClashFree hregular (by decide +kernel), ?_, ?_⟩
    · exact ⟨isWalk_unnamed.file_mem_iff.1 (by simp), by decide +kernel⟩
    · rw [run_eq_carryOut hreg isWalk_unnamed]
      show carryOut unnamed.host "main" unnamed.target [.file "" "a"]
        { requests := [Visit.request "main" (.folder "")] } = _
      rw [carryOut, Visit.carryOut, Retrieval.file, hjoin, FileTree.ensureWritten_empty]
      rfl
  · have hregular : zeroNamed.isRegular ["d"] = true := by decide +kernel
    have hreg := regular_of_isRegular hregular
    refine ⟨hreg, noClash_of_isClashFree hregular (by decide +kernel), ?_, ?_⟩
    · exact ⟨isWalk_zeroNamed.file_mem_iff.1 (by simp), by decide +kernel⟩
    · intro r hok
      rw [run_eq_carryOut hreg isWalk_zeroNamed] at hok
      exact absurd (admits_of_carryOut hok "d" "a\x00" (by simp)) (by decide +kernel)
  · have hregular : bare.isRegular ["d"] = true := by decide +kernel
    have hreg := regular_of_isRegular hregular
    refine ⟨hreg, noClash_of_isClashFree hregular (by decide +kernel), by decide +kernel, ?_⟩
    exact ⟨_, run_eq_carryOut hreg isWalk_bare, by decide +kernel⟩

end MirrorJob

end McdocSchema.Remote
