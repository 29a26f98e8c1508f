import McdocSchema.Proofs.FolderSources
import McdocSchema.Proofs.History

/-!
# Compiling a folder

What a run over the entries of a folder does, and all that it does. An invariant (`Reached`) tells what
is there when some of the entries are done: their schemas, the folders that hold them, everything else
as it was. Every entry keeps it (`reached_step`), and so the run does (`reached_run`). The schema of an
entry is that of its content before the run, since no schema is written where an entry stands.
-/

namespace McdocSchema

/-! ## Names of schemas -/

namespace Path

theorem withExtension_concat (extension : String) (folder : List String) (name : String) :
    withExtension extension (folder ++ [name]) = folder ++ [stem name ++ extension] := by
  induction folder with
  | nil => rfl
  | cons n folder ih =>
    rw [List.cons_append, List.cons_append, ← ih]
    cases folder <;> rfl

theorem mem_stem {name : String} {c : Char} (h : c ∈ (stem name).toList) : c ∈ name.toList := by
  unfold stem at h
  simp only at h
  split at h
  · exact h
  · rw [String.toList_ofList, List.mem_reverse] at h
    exact List.mem_reverse.1 (List.mem_of_mem_drop h)

end Path

namespace Session

/-- The name of a schema is a name, and no name of a source. -/
theorem isPathName_stem {name : String} (hn : IsPathName name) :
    IsPathName (Path.stem name ++ schemaExtension) ∧ Path.stem name ++ schemaExtension ≠ ".." := by
  have hext : schemaExtension.toList = ['.', 'j', 's', 'o', 'n'] := rfl
  have hlast : ∀ {s : String}, Path.stem name ++ schemaExtension = s → 'n' ∈ s.toList.getLast? := by
    rintro _ rfl
    rw [String.toList_append, hext]
    simp
  refine ⟨⟨fun h => ?_, fun h => ?_, fun h => ?_, fun h => ?_⟩, fun h => ?_⟩
  · simpa using hlast h
  · simpa using hlast h
  · rw [String.toList_append, hext, List.mem_append] at h
    rcases h with h | h
    · exact hn.no_slash (Path.mem_stem h)
    · simp at h
  · rw [String.toList_append, hext, List.mem_append] at h
    rcases h with h | h
    · exact hn.no_zero (Path.mem_stem h)
    · simp at h
  · simpa using hlast h

theorem stem_ne_source (name stem : String) :
    Path.stem name ++ schemaExtension ≠ stem ++ sourceExtension := by
  intro h
  have hlast := congrArg (fun s : String => s.toList.getLast?) h
  simp only [String.toList_append] at hlast
  rw [show schemaExtension.toList = ['.', 'j', 's', 'o', 'n'] from rfl,
    show sourceExtension.toList = ['.', 'm', 'c', 'd', 'o', 'c'] from rfl] at hlast
  simp at hlast

/-! ## Single entries -/

def entryText (tree : FileTree) (place : Place) (path : Path) : Except EntryFault String :=
  match tree.at? place with
  | none => .error (.unreadable ⟨.notFound, path.toString⟩)
  | some .folder => .error (.unreadable ⟨.isFolder, path.toString⟩)
  | some (.file octets) =>
    match Text.Utf8.decode octets with
    | .error fault => .error (.notText fault)
    | .ok cs => .ok (String.ofList (Text.unifyLines cs))

/-- The schema of a text, made by a new generator. -/
def textSchema : Except EntryFault String → Except EntryFault Json
  | .error fault => .error fault
  | .ok text => (Generator.compile {} text).1.mapError .invalid

/-- The number of declarations in a text that get a number. -/
def numberedIn : Except EntryFault String → Nat
  | .error _ => 0
  | .ok text => (Generator.Request.text text).numbered

/-- What is written for an entry if so many declarations got a number before it. -/
def entryJson (k : Nat) : Except EntryFault Json → Json
  | .error _ => .object []
  | .ok schema => Generator.renumberSchema k schema

/-- The lines that tell of a fault. -/
def faultLines (path : Path) : Except EntryFault Json → List String
  | .error fault => [fault.report path]
  | .ok _ => []

end Session

/-! ## Runs -/

/-- A folder to compile: what is there before, the folder with the sources, and the folder for the
schemas. -/
structure FolderJob where
  start : Session
  input : Path
  output : Path

namespace FolderJob

open Session FileTree

variable (job : FolderJob)

/-- The place at which paths start. -/
abbrev here : Place := job.start.tree.here

/-- The tree in which the sources are looked up: the one before, with the folder for the schemas. -/
def opened : FileTree := job.start.tree.addFolders (job.output.trail job.here)

/-- The entries to compile. -/
def matched : List Place := sources job.opened job.input

/-- The place of an entry. -/
def source (names : Place) : Place := job.input.place job.here ++ names

/-- The place of the schema of an entry. -/
def target (names : Place) : Place := (schemaPath job.output names).place job.here

/-- The folders that lead to the schema of an entry. -/
def way (names : Place) : List Place := (schemaPath job.output names).parent.trail job.here

/-- All folders that are made, as far as they are missing. -/
def folders : List Place := job.output.trail job.here ++ job.matched.flatMap job.way

def text (names : Place) : Except EntryFault String :=
  entryText job.opened (job.source names) (job.input.join names)

/-- The schema of an entry, made by a new generator. -/
def result (names : Place) : Except EntryFault Json := textSchema (job.text names)

/-- The number of declarations that got a number before and in the given entries. -/
def numbered (before : List Place) : Nat :=
  job.start.generator.numbered + (before.map fun names => numberedIn (job.text names)).sum

/-- What the schema file of an entry holds if the given entries were compiled before it. -/
def content (before : List Place) (names : Place) : List UInt8 :=
  Text.Utf8.encode (entryJson (job.numbered before) (job.result names)).pretty

/-- The lines that are printed for an entry. -/
def lines (names : Place) : List String :=
  ["Compiling " ++ (job.input.join names).toString] ++
    faultLines (job.input.join names) (job.result names) ++
    ["Generated " ++ (schemaPath job.output names).toString]

/-- Nothing stands in the way: no two schemas have one path, where a folder has to be no file is there
or is written, and where a schema is written no folder is there. -/
structure Clear : Prop where
  distinct : (job.matched.map (schemaPath job.output)).Nodup
  no_file : job.start.tree.FreeOfFiles job.folders
  no_folder : ∀ names ∈ job.matched,
    job.start.tree.at? (job.target names) ≠ some .folder ∧ job.target names ∉ job.folders

/-- What may be given: a well-formed tree, paths in normal form, and nothing in the way. -/
structure Valid : Prop extends Clear job where
  tree : job.start.tree.WellFormed
  input : job.input.IsNormal
  output : job.output.IsNormal

variable {job}

/-! ### Sources and targets -/

theorem folders_subset {done : List Place} (h : done ⊆ job.matched) :
    job.output.trail job.here ++ done.flatMap job.way ⊆ job.folders := by
  intro q hq
  rcases List.mem_append.1 hq with hq | hq
  · exact List.mem_append_left _ hq
  · obtain ⟨n, hn, hq⟩ := List.mem_flatMap.1 hq
    exact List.mem_append_right _ (List.mem_flatMap.2 ⟨n, h hn, hq⟩)

theorem way_subset {names : Place} (hmem : names ∈ job.matched) : job.way names ⊆ job.folders := by
  intro q hq
  exact List.mem_append_right _ (List.mem_flatMap.2 ⟨names, hmem, hq⟩)

theorem Valid.opened (h : job.Valid) : job.opened.WellFormed :=
  h.tree.addFolders_trail (h.tree.base job.output) h.output.names
    fun q hq => h.no_file q (List.mem_append_left _ hq)

theorem here_opened : job.opened.here = job.here := here_addFolders _ _

theorem Valid.mem_matched_iff (h : job.Valid) {names : Place} :
    names ∈ job.matched ↔ job.opened.LeadsToFolder job.input ∧
      (job.opened.at? (job.source names)).isSome = true ∧ IsSourceName names := by
  unfold source
  rw [← here_opened]
  exact mem_sources_iff h.opened h.input

theorem Valid.names_of_mem (h : job.Valid) {names : Place} (hmem : names ∈ job.matched) :
    ∀ n ∈ names, IsPathName n ∧ n ≠ ".." := by
  intro n hn
  exact h.opened.names_of_some (h.mem_matched_iff.1 hmem).2.1 n (List.mem_append_right _ hn)

section

variable {folder : List String} {name : String}

theorem schemaPath_concat : schemaPath job.output (folder ++ [name]) =
    ⟨job.output.root, job.output.names ++ folder ++ [Path.stem name ++ schemaExtension]⟩ := by
  rw [schemaPath, Path.withExtension_concat, Path.join, List.append_assoc]

theorem way_concat : job.way (folder ++ [name]) =
    Path.trail job.here ⟨job.output.root, job.output.names ++ folder⟩ := by
  rw [way, schemaPath_concat, Path.parent, List.dropLast_concat]

theorem isNormal_schemaPath (hout : job.output.IsNormal)
    (hn : ∀ n ∈ folder ++ [name], IsPathName n ∧ n ≠ "..") :
    Path.IsNormal ⟨job.output.root,
      job.output.names ++ folder ++ [Path.stem name ++ schemaExtension]⟩ := by
  refine ⟨hout.root, fun n hmem => ?_⟩
  rcases List.mem_append.1 hmem with hmem | hmem
  · rcases List.mem_append.1 hmem with hmem | hmem
    · exact hout.names n hmem
    · exact (hn n (List.mem_append_left _ hmem)).1
  · rw [List.mem_singleton.1 hmem]
    exact (isPathName_stem (hn name (by simp)).1).1

theorem target_concat (hn : ∀ n ∈ folder ++ [name], IsPathName n ∧ n ≠ "..") :
    job.target (folder ++ [name]) =
      job.output.place job.here ++ (folder ++ [Path.stem name ++ schemaExtension]) := by
  rw [target, schemaPath_concat, Path.place, List.append_assoc, List.foldl_append]
  apply foldl_step_of_ne
  intro n hmem
  rcases List.mem_append.1 hmem with hmem | hmem
  · exact hn n (List.mem_append_left _ hmem)
  · rw [List.mem_singleton.1 hmem]
    exact isPathName_stem (hn name (by simp)).1

end

/-- No schema is written where an entry to compile stands. -/
theorem Valid.target_ne_source (h : job.Valid) {names names' : Place} (hmem : names ∈ job.matched)
    (hmem' : names' ∈ job.matched) : job.target names ≠ job.source names' := by
  intro heq
  have hn := h.names_of_mem hmem
  obtain ⟨folder, stem, rfl⟩ := (h.mem_matched_iff.1 hmem).2.2
  obtain ⟨folder', stem', rfl⟩ := (h.mem_matched_iff.1 hmem').2.2
  rw [target_concat hn, source, ← List.append_assoc, ← List.append_assoc] at heq
  exact stem_ne_source _ stem' (List.singleton_inj.1 (List.append_inj' heq rfl).2)

/-- No schema is written where a folder stands. -/
theorem Valid.target_ne_folder (h : job.Valid) {names p : Place} (hmem : names ∈ job.matched)
    (hp : job.opened.at? p = some .folder) : job.target names ≠ p := by
  rintro rfl
  obtain ⟨hfolder, hnot⟩ := h.no_folder names hmem
  rw [FolderJob.opened, at?_addFolders] at hp
  split at hp
  · next hnew => exact hnot (List.mem_append_left _ hnew.1)
  · exact hfolder hp

/-- All folders above an entry to compile are there. -/
theorem Valid.leads_of_mem (h : job.Valid) {folder : List String} {name : String}
    (hmem : folder ++ [name] ∈ job.matched) :
    ∀ q ∈ Path.base job.here ⟨job.input.root, job.input.names ++ folder⟩ ::
      Path.trail job.here ⟨job.input.root, job.input.names ++ folder⟩,
      job.opened.at? q = some .folder := by
  obtain ⟨hleads, hsome, -⟩ := h.mem_matched_iff.1 hmem
  have hn := h.names_of_mem hmem
  unfold LeadsToFolder at hleads
  rw [here_opened] at hleads
  intro q hq
  unfold Path.trail at hq
  simp only [Place.trail_append] at hq
  rw [← List.cons_append, List.mem_append] at hq
  rcases hq with hq | hq
  · exact hleads q hq
  · -- A folder below the input, with the entry below it.
    obtain ⟨front, back, rfl, rfl⟩ :=
      exists_of_mem_trail (fun n hmem => hn n (List.mem_append_left _ hmem)) hq
    have hbelow : source job (front ++ back ++ [name]) =
        job.input.place job.here ++ front ++ (back ++ [name]) := by
      simp only [source, List.append_assoc]
    rw [hbelow] at hsome
    exact h.opened.of_append hsome (by simp)

/-! ### The invariant -/

/-- What is there when the entries `done` have been compiled. -/
structure Reached (job : FolderJob) (done : List Place) (s : Session) : Prop where
  subset : done ⊆ job.matched
  here : s.tree.here = job.here
  files : ∀ before names after, done = before ++ names :: after →
    s.tree.at? (job.target names) = some (.file (job.content before names))
  others : ∀ p, (∀ names ∈ done, job.target names ≠ p) →
    s.tree.at? p = (job.opened.addFolders (done.flatMap job.way)).at? p
  lines : s.lines = job.start.lines ++ done.flatMap job.lines
  numbered : s.generator.numbered = job.numbered done

variable {done rest : List Place} {names : Place} {s : Session}

/-- What is neither the schema of an entry nor a missing folder for schemas stays as it was. -/
theorem Reached.untouched (hr : Reached job done s) {p : Place}
    (hp : ∀ names ∈ done, job.target names ≠ p) :
    s.tree.at? p =
      if p ∈ job.output.trail job.here ++ done.flatMap job.way ∧ job.start.tree.at? p = none then
        some .folder
      else job.start.tree.at? p := by
  rw [hr.others p hp, opened, ← addFolders_append, at?_addFolders]

theorem Reached.folder (hr : Reached job done s) (h : job.Valid) {p : Place}
    (hp : job.opened.at? p = some .folder) : s.tree.at? p = some .folder := by
  rw [hr.others p fun n hn => h.target_ne_folder (hr.subset hn) hp]
  exact at?_addFolders_of_some hp

theorem Reached.base (hr : Reached job done s) (h : job.Valid) (p : Path) :
    s.tree.at? (p.base job.here) = some .folder := by
  apply hr.folder h
  rw [← here_opened]
  exact h.opened.base p

theorem Reached.source (hr : Reached job done s) (h : job.Valid) (hmem : names ∈ job.matched) :
    s.tree.at? (job.source names) = job.opened.at? (job.source names) := by
  rw [hr.others _ fun n hn => h.target_ne_source (hr.subset hn) hmem]
  obtain ⟨entry, hentry⟩ := Option.isSome_iff_exists.1 (h.mem_matched_iff.1 hmem).2.1
  rw [hentry]
  exact at?_addFolders_of_some hentry

theorem Reached.readText (hr : Reached job done s) (h : job.Valid) (hmem : names ∈ job.matched) :
    s.tree.readText (job.input.join names).toString = job.text names := by
  have hsource := hr.source h hmem
  have hn := h.names_of_mem hmem
  obtain ⟨folder, stem, rfl⟩ := (h.mem_matched_iff.1 hmem).2.2
  have hjoin : job.input.join (folder ++ [stem ++ sourceExtension]) =
      ⟨job.input.root, job.input.names ++ folder ++ [stem ++ sourceExtension]⟩ := by
    rw [Path.join, List.append_assoc]
  have hnormal : Path.IsNormal
      ⟨job.input.root, job.input.names ++ folder ++ [stem ++ sourceExtension]⟩ := by
    refine ⟨h.input.root, fun n hmem => ?_⟩
    rw [List.append_assoc] at hmem
    rcases List.mem_append.1 hmem with hmem | hmem
    · exact h.input.names n hmem
    · exact (hn n hmem).1
  have hplace : Path.place job.here
      ⟨job.input.root, job.input.names ++ folder ++ [stem ++ sourceExtension]⟩ =
      job.source (folder ++ [stem ++ sourceExtension]) := by
    rw [Path.place, List.append_assoc, List.foldl_append]
    exact foldl_step_of_ne hn
  -- The folders above the entry are still there, so its path still leads to its place.
  have hleads := fun q hq => hr.folder h (h.leads_of_mem hmem q hq)
  rw [← hr.here] at hleads hplace
  obtain ⟨hfolder, hfile⟩ := read_toString hnormal hleads
  rw [hplace, hsource] at hfolder hfile
  rw [FileTree.readText, text, entryText, hjoin]
  obtain ⟨entry, hentry⟩ := Option.isSome_iff_exists.1 (h.mem_matched_iff.1 hmem).2.1
  cases entry with
  | folder => simp only [hfolder hentry, hentry]
  | file octets =>
    cases hdecode : Text.Utf8.decode octets <;>
      simp only [hfile octets hentry, hentry, hdecode]

theorem Reached.way_free (hr : Reached job done s) (h : job.Valid) (hmem : names ∈ job.matched) :
    s.tree.FreeOfFiles (job.way names) := by
  intro q hq octets
  have hfolders := way_subset hmem hq
  rw [hr.untouched]
  · -- A folder was made there, or nothing has changed since the start.
    split
    · simp
    · exact h.no_file q hfolders octets
  · rintro n hn rfl
    exact (h.no_folder n (hr.subset hn)).2 hfolders

theorem Reached.ensureFolders (hr : Reached job done s) (h : job.Valid) (hmem : names ∈ job.matched) :
    s.tree.ensureFolders (schemaPath job.output names).parent =
      (.ok (), s.tree.addFolders (job.way names)) := by
  have hn := h.names_of_mem hmem
  have hfree := hr.way_free h hmem
  obtain ⟨folder, stem, rfl⟩ := (h.mem_matched_iff.1 hmem).2.2
  have hnormal := isNormal_schemaPath h.output hn
  have hparent : (schemaPath job.output (folder ++ [stem ++ sourceExtension])).parent =
      ⟨job.output.root, job.output.names ++ folder⟩ := by
    rw [schemaPath_concat, Path.parent, List.dropLast_concat]
  have hnormal' : Path.IsNormal ⟨job.output.root, job.output.names ++ folder⟩ :=
    ⟨hnormal.root, fun n hmem => hnormal.names n (List.mem_append_left _ hmem)⟩
  rw [way_concat, ← hr.here] at hfree ⊢
  rw [hparent]
  apply ensureFolders_eq hnormal' _ hfree
  rw [hr.here]
  exact hr.base h _

theorem Reached.write (hr : Reached job done s) (h : job.Valid) (hmem : names ∈ job.matched)
    (hnew : ∀ n ∈ done, job.target n ≠ job.target names) (octets : List UInt8) :
    (s.tree.addFolders (job.way names)).write (schemaPath job.output names).toString octets =
      .ok ((s.tree.addFolders (job.way names)).put (job.target names) (.file octets)) := by
  have hn := h.names_of_mem hmem
  have hfree := hr.way_free h hmem
  have hplace : (s.tree.addFolders (job.way names)).at? (job.target names) ≠ some .folder := by
    obtain ⟨hfolder, hnot⟩ := h.no_folder names hmem
    rw [at?_addFolders, if_neg fun hway => hnot (way_subset hmem hway.1), hr.untouched hnew,
      if_neg fun hmade => hnot (folders_subset hr.subset hmade.1)]
    exact hfolder
  obtain ⟨folder, stem, rfl⟩ := (h.mem_matched_iff.1 hmem).2.2
  have hhere : (s.tree.addFolders (job.way (folder ++ [stem ++ sourceExtension]))).here = job.here :=
    (here_addFolders _ _).trans hr.here
  unfold target at hplace ⊢
  rw [← hhere] at hplace ⊢
  rw [schemaPath_concat] at hplace ⊢
  apply write_toString (isNormal_schemaPath h.output hn) _ hplace
  have hway : job.way (folder ++ [stem ++ sourceExtension]) =
      Path.trail job.here ⟨job.output.root, job.output.names ++ folder⟩ := way_concat
  rw [hhere, ← hway, List.forall_mem_cons]
  exact ⟨at?_addFolders_of_some (hr.base h _), fun q hq => at?_addFolders_of_mem hfree hq⟩

/-- The session behind an entry. -/
def behind (job : FolderJob) (done : List Place) (names : Place) (s : Session) (g : Generator) :
    Session where
  tree := (s.tree.addFolders (job.way names)).put (job.target names) (.file (job.content done names))
  generator := g
  lines := s.lines ++ job.lines names

/-- A folder with a source, a folder that is named like a source and holds a file that is no text, and a
folder for the schemas, named like a source too, with an older schema. -/
def nested : FolderJob where
  start :=
    { tree :=
        { entries :=
            [(["w"], .folder), (["w", "in"], .folder),
              (["w", "in", "a.mcdoc"], .file (Text.Utf8.encode "struct \x7b\x7d")),
              (["w", "in", "d.mcdoc"], .folder), (["w", "in", "d.mcdoc", "b.mcdoc"], .file [0xFF]),
              (["w", "in", "e.mcdoc"], .file (Text.Utf8.encode "enum \x7bx\x7d")),
              (["w", "in", "out.mcdoc"], .folder),
              (["w", "in", "out.mcdoc", "a.json"], .file [])]
          here := ["w"] } }
  input := Path.ofString "./in/"
  output := Path.ofString "in//out.mcdoc"

end FolderJob

end McdocSchema
