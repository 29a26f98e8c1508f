import McdocSchema.FileTree.Written
import McdocSchema.Proofs.Locating

/-!
# Where written paths lead

The text of a written path is kept as it is, with empty names, dots and slashes at its end. Its names
are what stands between the slashes, the empty ones left out. Taking a written path apart at its last slash
takes its names apart (`names_eq_folder_lastName`), and so making its folders from the first missing one on
adds exactly those folders of its trail that are missing (`ensureWritten_eq`).
-/

namespace McdocSchema

namespace WrittenPath

/-! ## The names of a written path -/

/-- The names of a written path: what stands between its slashes, empty names left out. -/
def names (path : String) : List String :=
  (Place.parts path).filter fun name => !name.isEmpty

/-- The place at which a written path starts. -/
def base (here : Place) (path : String) : Place := if path.startsWith "/" then [] else here

/-- The places that a written path leads to name by name, its own place the last. -/
def trail (here : Place) (path : String) : List Place := (base here path).trail (names path)

variable {path name : String} {here : Place}

theorem ne_empty_of_mem_names {name : String} (h : name ∈ names path) : name ≠ "" := by
  simpa using (List.mem_filter.1 h).2

/-- Empty names lead nowhere else. -/
theorem resolve_eq (here : Place) (path : String) :
    Place.resolve here path = (names path).foldl Place.step (base here path) := by
  have hskip : ∀ (parts : List String) (place : Place), parts.foldl Place.step place =
      (parts.filter fun name => !name.isEmpty).foldl Place.step place := by
    intro parts
    induction parts with
    | nil => intro place; rfl
    | cons part parts ih =>
      intro place
      by_cases hpart : part = ""
      · rw [List.filter_cons_of_neg (by simp [hpart]), List.foldl_cons, ih]
        simp [Place.step, hpart]
      · rw [List.filter_cons_of_pos (by simpa using hpart), List.foldl_cons, List.foldl_cons, ih]
  exact hskip _ _

theorem resolve_mem (here : Place) (path : String) :
    Place.resolve here path ∈ base here path :: trail here path := by
  rw [resolve_eq]
  exact Place.foldl_mem_trail _ _

/-- A slash parts the names. -/
theorem names_slash (cs ds : List Char) :
    names (String.ofList (cs ++ '/' :: ds)) = names (String.ofList cs) ++ names (String.ofList ds) := by
  simp only [names, Place.parts, String.toList_ofList]
  rw [List.splitOn_append_cons_self, List.map_append, List.filter_append]

theorem names_nil : names (String.ofList []) = [] := rfl

theorem names_of_slashes {slashes : List Char} (h : ∀ c ∈ slashes, c = '/') :
    names (String.ofList slashes) = [] := by
  induction slashes with
  | nil => rfl
  | cons c slashes ih =>
    rw [h c List.mem_cons_self, ← List.nil_append ('/' :: slashes), names_slash,
      ih fun d hd => h d (List.mem_cons_of_mem c hd)]
    rfl

/-- Slashes at the end make no names. -/
theorem names_append_slashes (cs : List Char) {slashes : List Char} (h : ∀ c ∈ slashes, c = '/') :
    names (String.ofList (cs ++ slashes)) = names (String.ofList cs) := by
  cases slashes with
  | nil => rw [List.append_nil]
  | cons c slashes =>
    rw [h c List.mem_cons_self, names_slash,
      names_of_slashes fun d hd => h d (List.mem_cons_of_mem c hd), List.append_nil]

/-- A text without slashes is a name. -/
theorem names_of_no_slash (h : '/' ∉ name.toList) (hne : name ≠ "") : names name = [name] := by
  simp [names, Place.parts, List.splitOn_eq_singleton h, hne]

/-! ## Taking a written path apart -/

/-- The characters of a written path up to its last slash. -/
def front (path : String) : List Char := (path.toList.reverse.dropWhile (· != '/')).reverse

theorem front_append_lastName (path : String) :
    front path ++ (lastName path).toList = path.toList := by
  rw [front, lastName, String.toList_ofList, ← List.reverse_append, List.takeWhile_append_dropWhile,
    List.reverse_reverse]

theorem slash_not_mem_lastName (path : String) : '/' ∉ (lastName path).toList := by
  rw [lastName, String.toList_ofList, List.mem_reverse]
  intro h
  simpa using List.all_eq_true.1 (List.all_takeWhile) _ h

theorem front_eq_nil_or (path : String) : front path = [] ∨ ∃ cs, front path = cs ++ ['/'] := by
  unfold front
  cases h : path.toList.reverse.dropWhile (· != '/') with
  | nil => exact .inl rfl
  | cons c cs =>
    have hc := List.head?_dropWhile_not (· != '/') path.toList.reverse
    rw [h] at hc
    simp only [List.head?_cons, bne_eq_false_iff_eq] at hc
    exact .inr ⟨cs.reverse, by rw [List.reverse_cons, hc]⟩

/-- Only slashes are left away behind the folder of a written path. -/
theorem exists_front_eq (path : String) :
    ∃ slashes, (∀ c ∈ slashes, c = '/') ∧ front path = (folder path).toList ++ slashes := by
  unfold front folder
  simp only [String.toList_ofList]
  generalize path.toList.reverse.dropWhile (· != '/') = back
  split
  · exact ⟨[], by simp, by simp⟩
  · refine ⟨(back.takeWhile (· == '/')).reverse, ?_, ?_⟩
    · intro c hc
      simpa using List.all_eq_true.1 List.all_takeWhile _ (List.mem_reverse.1 hc)
    · rw [← List.reverse_append, List.takeWhile_append_dropWhile]

theorem names_front (path : String) : names (String.ofList (front path)) = names (folder path) := by
  obtain ⟨slashes, hslashes, hfront⟩ := exists_front_eq path
  rw [hfront, names_append_slashes _ hslashes, String.ofList_toList]

/-- The last slash of a written path parts its names. -/
theorem names_eq_folder_lastName (path : String) :
    names path = names (folder path) ++ names (lastName path) := by
  have hpath : names path = names (String.ofList (front path ++ (lastName path).toList)) := by
    rw [front_append_lastName, String.ofList_toList]
  rw [hpath, ← names_front]
  rcases front_eq_nil_or path with h | ⟨cs, h⟩
  · rw [h, List.nil_append, names_nil, List.nil_append, String.ofList_toList]
  · rw [h, List.append_assoc, List.singleton_append, names_slash, names_slash, names_nil,
      List.append_nil, String.ofList_toList]

theorem names_folder_of_lastName (h : lastName (folder path) = "") : names (folder path) = [] := by
  unfold folder at h ⊢
  simp only at h ⊢
  generalize path.toList.reverse.dropWhile (· != '/') = back at h ⊢
  cases htrimmed : back.dropWhile (· == '/') with
  | nil =>
    have hback : back.takeWhile (· == '/') = back := by
      simpa [htrimmed] using List.takeWhile_append_dropWhile (p := (· == '/')) (l := back)
    have hall : ∀ c ∈ back, c = '/' := by
      rw [← hback]
      intro c hc
      simpa using List.all_eq_true.1 List.all_takeWhile _ hc
    exact names_of_slashes fun c hc => hall c (List.mem_reverse.1 hc)
  | cons c cs =>
    have hc := List.head?_dropWhile_not (· == '/') back
    rw [htrimmed] at hc h
    simp_all [lastName]

theorem folder_begins (path : String) : (folder path).toList <+: path.toList := by
  obtain ⟨slashes, -, hfront⟩ := exists_front_eq path
  rw [← front_append_lastName path, hfront, List.append_assoc]
  exact List.prefix_append _ _

theorem mem_folder_or_lastName {c : Char} (hc : c ≠ '/') (h : c ∈ path.toList) :
    c ∈ (folder path).toList ∨ c ∈ (lastName path).toList := by
  obtain ⟨slashes, hslashes, hfront⟩ := exists_front_eq path
  rw [← front_append_lastName path, hfront, List.mem_append, List.mem_append] at h
  exact h.imp_left fun hfront => hfront.resolve_right fun hslash => hc (hslashes c hslash)

theorem length_folder_lt (h : lastName path ≠ "") : (folder path).length < path.length := by
  obtain ⟨slashes, -, hfront⟩ := exists_front_eq path
  have hlast : 0 < (lastName path).toList.length := by
    rw [List.length_pos_iff]
    simpa using h
  have hlength := congrArg List.length (front_append_lastName path)
  rw [hfront, List.length_append, List.length_append] at hlength
  simp only [String.length_toList] at hlength hlast
  omega

/-- A written path and a part that it begins with start at one place. -/
theorem base_of_begins {part : String} (h : part.toList <+: path.toList) (hne : part ≠ "") :
    base here part = base here path := by
  obtain ⟨c, cs, hpart⟩ := List.exists_cons_of_ne_nil (mt String.toList_eq_nil_iff.1 hne)
  obtain ⟨ds, hpath⟩ := h
  rw [hpart, List.cons_append] at hpath
  have hstart : part.startsWith "/" = path.startsWith "/" := by
    rw [Bool.eq_iff_iff, String.startsWith_string_iff, String.startsWith_string_iff, hpart, ← hpath]
    show ['/'] <+: c :: cs ↔ ['/'] <+: c :: (cs ++ ds)
    simp
  rw [base, base, hstart]

theorem startsWith_of_names (h : names path = []) (hne : path ≠ "") :
    path.startsWith "/" = true := by
  obtain ⟨c, cs, hpath⟩ := List.exists_cons_of_ne_nil (mt String.toList_eq_nil_iff.1 hne)
  rw [String.startsWith_string_iff, hpath]
  show ['/'] <+: c :: cs
  by_cases hc : c = '/'
  · simp [hc]
  · obtain ⟨part, parts, hparts⟩ := List.exists_cons_of_ne_nil (List.splitOn_ne_nil '/' cs)
    have hmem : String.ofList (c :: part) ∈ names path := by
      simp [names, Place.parts, hpath, List.splitOn_cons_eq_if_modifyHead, hparts, hc]
    rw [h] at hmem
    cases hmem

theorem base_of_names (h : names path = []) (hne : path ≠ "") : base here path = [] := by
  rw [base, startsWith_of_names h hne, if_pos rfl]

/-- A written path without the slashes at its end, for which making its folder looks first. -/
def trimmed (path : String) : String := if (lastName path).isEmpty then folder path else path

theorem names_trimmed (path : String) : names (trimmed path) = names path := by
  unfold trimmed
  split
  · next h =>
    rw [names_eq_folder_lastName path, String.isEmpty_iff.1 h]
    exact (List.append_nil _).symm
  · rfl

theorem trimmed_begins (path : String) : (trimmed path).toList <+: path.toList := by
  unfold trimmed
  split
  · exact folder_begins path
  · exact List.prefix_refl _

theorem mem_trimmed {c : Char} (hc : c ≠ '/') (h : c ∈ path.toList) : c ∈ (trimmed path).toList := by
  unfold trimmed
  split
  · next hlast =>
    refine (mem_folder_or_lastName hc h).resolve_right fun hin => ?_
    rw [String.isEmpty_iff.1 hlast] at hin
    cases hin
  · exact h

theorem names_of_lastName_trimmed (h : lastName (trimmed path) = "") : names path = [] := by
  rw [← names_trimmed]
  unfold trimmed at h ⊢
  split
  · next hlast =>
    rw [if_pos hlast] at h
    exact names_folder_of_lastName h
  · next hlast =>
    rw [if_neg hlast] at h
    exact absurd (String.isEmpty_iff.2 h) hlast

/-- The names of a path are those of its parent and its last name. -/
theorem names_eq_parent (h : lastName (trimmed path) ≠ "") :
    names path = names (folder (trimmed path)) ++ [lastName (trimmed path)] := by
  rw [← names_trimmed, names_eq_folder_lastName (trimmed path),
    names_of_no_slash (slash_not_mem_lastName _) h]

theorem parent_begins (path : String) : (folder (trimmed path)).toList <+: path.toList :=
  (folder_begins (trimmed path)).trans (trimmed_begins path)

theorem length_parent_lt (h : lastName (trimmed path) ≠ "") :
    (folder (trimmed path)).length < path.length := by
  have hcut := length_folder_lt h
  have htrimmed := (trimmed_begins path).length_le
  simp only [String.length_toList] at htrimmed
  omega

/-! ## Entries below a folder -/

theorem startsWith_of_no_slash (h : '/' ∉ name.toList) : name.startsWith "/" = false := by
  rw [← Bool.not_eq_true, String.startsWith_string_iff]
  exact fun hstart => h (hstart.subset List.mem_cons_self)

section

variable {folder : String} (hstart : name.startsWith "/" = false)

include hstart

/-- The path of an entry below a folder is that of the folder, a slash and the name, where a slash at
the end of the folder serves. -/
theorem exists_toList_join (hfolder : folder ≠ "") :
    ∃ cs, (join folder name).toList = cs ++ '/' :: name.toList ∧
      names (String.ofList cs) = names folder ∧ folder.toList <+: (join folder name).toList := by
  have hempty : folder.isEmpty = false := by simpa using hfolder
  unfold join
  rw [hstart, hempty, Bool.false_or]
  simp only [Bool.false_eq_true, if_false]
  split
  · next hend =>
    obtain ⟨cs, hcs⟩ := endsWith_iff.1 hend
    have hcs : cs ++ ['/'] = folder.toList := hcs
    refine ⟨cs, ?_, ?_, ?_⟩
    · rw [String.toList_append, ← hcs, List.append_assoc]
      rfl
    · rw [← String.ofList_toList (s := folder), ← hcs, names_slash, names_nil, List.append_nil]
    · exact String.toList_append ▸ List.prefix_append _ _
  · refine ⟨folder.toList, ?_, by rw [String.ofList_toList], ?_⟩
    · rw [String.toList_append, String.toList_append, List.append_assoc]
      rfl
    · rw [String.toList_append, String.toList_append, List.append_assoc]
      exact List.prefix_append _ _

theorem join_empty : join "" name = name := by
  simp [join, hstart]

theorem names_join (folder : String) : names (join folder name) = names folder ++ names name := by
  by_cases hfolder : folder = ""
  · rw [hfolder, join_empty hstart]
    rfl
  · obtain ⟨cs, hcs, hnames, -⟩ := exists_toList_join hstart hfolder
    rw [← String.ofList_toList (s := join folder name), hcs, names_slash, hnames, String.ofList_toList]

theorem base_join (here : Place) (folder : String) : base here (join folder name) = base here folder := by
  by_cases hfolder : folder = ""
  · rw [hfolder, join_empty hstart, base, if_neg (by simp [hstart])]
    rfl
  · obtain ⟨cs, -, -, hbegins⟩ := exists_toList_join hstart hfolder
    exact (base_of_begins hbegins hfolder).symm

end

theorem endsWith_join {folder : String} (hfolder : folder ≠ "") (hname : '/' ∉ name.toList)
    (hne : name ≠ "") : (join folder name).endsWith "/" = false := by
  obtain ⟨cs, hcs, -, -⟩ := exists_toList_join (startsWith_of_no_slash hname) hfolder
  have hname' : name.toList ≠ [] := mt String.toList_eq_nil_iff.1 hne
  rw [← Bool.not_eq_true, endsWith_iff, hcs]
  intro hend
  have hlast : ['/'] <:+ name.toList :=
    List.suffix_of_suffix_length_le hend ((List.suffix_cons _ _).trans (List.suffix_append _ _))
      (List.length_pos_iff.2 hname')
  exact hname (hlast.subset List.mem_cons_self)

/-! ## Slashes at the end -/

open FileTree (withoutEndSlashes)

/-- What is cut from the end of a written path are slashes, and what is left ends in none unless the
path has no names. -/
theorem withoutEndSlashes_spec (path : String) :
    (∃ slashes, (∀ c ∈ slashes, c = '/') ∧
      (withoutEndSlashes path).toList ++ slashes = path.toList) ∧
      (names path ≠ [] → (withoutEndSlashes path).endsWith "/" = false) ∧
      (path ≠ "" → withoutEndSlashes path ≠ "") := by
  have hpath : (path.toList.reverse.dropWhile (· == '/')).reverse ++
      (path.toList.reverse.takeWhile (· == '/')).reverse = path.toList := by
    rw [← List.reverse_append, List.takeWhile_append_dropWhile, List.reverse_reverse]
  have hslashes : ∀ c ∈ (path.toList.reverse.takeWhile (· == '/')).reverse, c = '/' := by
    intro c hc
    simpa using List.all_eq_true.1 List.all_takeWhile _ (List.mem_reverse.1 hc)
  have hhead := List.head?_dropWhile_not (· == '/') path.toList.reverse
  unfold withoutEndSlashes
  simp only
  cases hkept : path.toList.reverse.dropWhile (· == '/') with
  | nil =>
    -- Nothing but slashes: the first of them is kept.
    rw [hkept] at hpath
    have hempty : ([] : List Char).reverse.isEmpty = true := rfl
    have hall : ∀ c ∈ path.toList, c = '/' := by
      rw [← hpath]
      exact hslashes
    have hnone : names path = [] := by
      rw [← String.ofList_toList (s := path)]
      exact names_of_slashes hall
    rw [if_pos hempty, String.toList_ofList]
    refine ⟨⟨path.toList.drop 1, ?_, List.take_append_drop 1 _⟩, fun hne => absurd hnone hne, ?_⟩
    · exact fun c hc => hall c (List.mem_of_mem_drop hc)
    · intro hne hnil
      exact hne (by simpa using hnil)
  | cons c cs =>
    rw [hkept] at hpath hhead
    have hc : c ≠ '/' := by simpa using hhead
    rw [if_neg (by simp), String.toList_ofList]
    refine ⟨⟨_, hslashes, hpath⟩, fun _ => ?_, fun _ => by simp⟩
    rw [← Bool.not_eq_true, endsWith_iff, String.toList_ofList, String.toList_ofList,
      List.reverse_cons]
    rintro ⟨ds, hds⟩
    exact hc (List.singleton_inj.1 (List.append_inj' hds rfl).2).symm

theorem names_withoutEndSlashes (path : String) : names (withoutEndSlashes path) = names path := by
  obtain ⟨⟨slashes, hslashes, hpath⟩, -⟩ := withoutEndSlashes_spec path
  have hsame : names path = names (String.ofList ((withoutEndSlashes path).toList ++ slashes)) := by
    rw [hpath, String.ofList_toList]
  rw [hsame, names_append_slashes _ hslashes, String.ofList_toList]

end WrittenPath

namespace FileTree

open WrittenPath

variable {tree : FileTree} {place q : Place} {names rest : List String} {path : String}

/-! ## Following written paths -/

theorem eq_of_follow_ok (hn : ∀ n ∈ names, n ≠ "") (h : tree.follow place names = .ok q) :
    q = names.foldl Place.step place := by
  induction names generalizing place with
  | nil =>
    cases h
    rfl
  | cons name names ih =>
    obtain ⟨-, hnext⟩ := follow_cons_ok (hn name List.mem_cons_self) h
    exact ih (fun n hmem => hn n (List.mem_cons_of_mem name hmem)) hnext

theorem follow_append_of_ok (hn : ∀ n ∈ names, n ≠ "") (h : tree.follow place names = .ok q) :
    tree.follow place (names ++ rest) = tree.follow q rest := by
  induction names generalizing place with
  | nil =>
    cases h
    rfl
  | cons name names ih =>
    have hname := hn name List.mem_cons_self
    obtain ⟨hplace, hnext⟩ := follow_cons_ok hname h
    rw [List.cons_append, follow_cons hplace hname]
    exact ih (fun n hmem => hn n (List.mem_cons_of_mem name hmem)) hnext

/-- A slash at the end of a path asks for a folder. -/
theorem locate_written (hne : path ≠ "") (hzero : '\x00' ∉ path.toList) :
    tree.locate path = tree.follow (base tree.here path)
      (WrittenPath.names path ++ if path.endsWith "/" then ["."] else []) := by
  have hcontains : path.contains '\x00' = false := by
    rw [String.contains_char_eq, decide_eq_false_iff_not]
    exact hzero
  have hempty : path.isEmpty = false := by
    rw [← Bool.not_eq_true, String.isEmpty_iff]
    exact hne
  have hnames : namesOf path =
      WrittenPath.names path ++ if path.endsWith "/" then ["."] else [] := by
    unfold namesOf
    split
    · rfl
    · exact (List.append_nil _).symm
  rw [locate, hcontains, hempty, hnames]
  rfl

/-- Without the slashes at its end, a path leads to where its names lead. -/
theorem locate_withoutEndSlashes_written (hne : path ≠ "") (hzero : '\x00' ∉ path.toList) :
    tree.locate (withoutEndSlashes path) =
      tree.follow (base tree.here path) (WrittenPath.names path) := by
  obtain ⟨⟨slashes, -, hpath⟩, hend, hsome⟩ := withoutEndSlashes_spec path
  have hbegins : (withoutEndSlashes path).toList <+: path.toList := ⟨slashes, hpath⟩
  rw [locate_written (hsome hne) fun h => hzero (hbegins.subset h), names_withoutEndSlashes,
    base_of_begins hbegins (hsome hne)]
  by_cases h : WrittenPath.names path = []
  · -- The path is made of slashes and leads to the top, with or without a dot.
    rw [h, base_of_names h hne]
    split
    · exact follow_dot rfl
    · rfl
  · rw [hend h]
    exact congrArg _ (List.append_nil _)

theorem ensureWrittenFolder_eq (hne : path ≠ "") (hzero : '\x00' ∉ path.toList)
    (h : tree.follow (base tree.here path) (WrittenPath.names path) = .ok q)
    (hfree : ∀ octets, tree.at? q ≠ some (.file octets)) :
    tree.ensureWrittenFolder path = (.ok (), tree.addFolder q) := by
  rw [ensureWrittenFolder, makeFolder, locate_withoutEndSlashes_written hne hzero, h, addFolder]
  cases hat : tree.at? q with
  | none => simp [hat]
  | some entry =>
    cases entry with
    | file octets => exact absurd hat (hfree octets)
    | folder =>
      have hlocate : tree.locate path = .ok q := by
        rw [locate_written hne hzero, follow_append_of_ok (fun n hn => ne_empty_of_mem_names hn) h]
        split
        · exact follow_dot hat
        · rfl
      simp [hat, hasFolder, find?, hlocate]

theorem write_eq {octets : List UInt8} (hne : path ≠ "") (hzero : '\x00' ∉ path.toList)
    (hend : path.endsWith "/" = false)
    (h : tree.follow (base tree.here path) (WrittenPath.names path) = .ok q)
    (hplace : tree.at? q ≠ some .folder) :
    tree.write path octets = .ok (tree.put q (.file octets)) := by
  rw [write, locate_withoutEndSlashes_written hne hzero, h, hend]
  simp [hplace]

/-- Where no file is in the way, a path that leads to something passes folders only. -/
theorem folders_of_has (hne : path ≠ "") (hzero : '\x00' ∉ path.toList)
    (hbase : tree.at? (base tree.here path) = some .folder)
    (hfree : tree.FreeOfFiles (trail tree.here path)) (h : tree.has path = true) :
    ∀ r ∈ base tree.here path :: trail tree.here path, tree.at? r = some .folder := by
  obtain ⟨q, hlocate, hsome⟩ : ∃ q, tree.locate path = .ok q ∧ (tree.at? q).isSome = true := by
    unfold has find? at h
    cases hlocate : tree.locate path with
    | error cause => simp [hlocate] at h
    | ok q => exact ⟨q, rfl, by simpa [hlocate] using h⟩
  rw [locate_written hne hzero] at hlocate
  generalize hrest : (if path.endsWith "/" then ["."] else []) = rest at hlocate
  have hdots : ∀ n ∈ rest, n = "." := by
    rw [← hrest]
    split <;> simp
  have hnames : ∀ n ∈ WrittenPath.names path ++ rest, n ≠ "" := by
    intro n hn
    rcases List.mem_append.1 hn with hn | hn
    · exact ne_empty_of_mem_names hn
    · simp [hdots n hn]
  -- The point that an end slash stands for stays where it is.
  have hq : q = Place.resolve tree.here path := by
    have hstay : ∀ place : Place, rest.foldl Place.step place = place := by
      rw [← hrest]
      intro place
      split <;> rfl
    rw [eq_of_follow_ok hnames hlocate, List.foldl_append, hstay, resolve_eq]
  have hfolder : tree.at? q = some .folder := by
    rcases List.mem_cons.1 (hq ▸ resolve_mem tree.here path) with hmem | hmem
    · rw [hmem, hbase]
    · refine (freeOfFiles_iff.1 hfree q hmem).resolve_left fun hnone => ?_
      rw [hnone] at hsome
      cases hsome
  intro r hr
  refine follow_folder hnames hlocate hfolder r ?_
  rw [Place.trail_append]
  exact List.mem_append_left _ hr

/-! ## Making the folders of a written path -/

section

variable {front : List String} {name : String}

theorem trail_of_names (here : Place) (hnames : WrittenPath.names path = front ++ [name]) :
    trail here path = (base here path).trail front ++ [Place.resolve here path] := by
  rw [trail, resolve_eq, hnames, Place.trail_append, List.foldl_append]
  rfl

theorem follow_names {here : Place} (hnames : WrittenPath.names path = front ++ [name])
    (h : ∀ r ∈ base here path :: (base here path).trail front, tree.at? r = some .folder) :
    tree.follow (base here path) (WrittenPath.names path) = .ok (Place.resolve here path) := by
  rw [resolve_eq, hnames]
  refine follow_concat ?_ h
  rw [← hnames]
  exact fun n hn => ne_empty_of_mem_names hn

/-- In the tree with the folders on the way, the last folder can be made. -/
theorem ensureWrittenFolder_addFolders (hne : path ≠ "") (hzero : '\x00' ∉ path.toList)
    (hbase : tree.at? (base tree.here path) = some .folder)
    (hnames : WrittenPath.names path = front ++ [name])
    (hfree : tree.FreeOfFiles (trail tree.here path)) :
    (tree.addFolders ((base tree.here path).trail front)).ensureWrittenFolder path =
      (.ok (), tree.addFolders (trail tree.here path)) := by
  have hhere := here_addFolders tree ((base tree.here path).trail front)
  rw [trail_of_names tree.here hnames] at hfree ⊢
  have hfolders : ∀ r ∈ base tree.here path :: (base tree.here path).trail front,
      (tree.addFolders ((base tree.here path).trail front)).at? r = some .folder := by
    rw [List.forall_mem_cons]
    refine ⟨at?_addFolders_of_some hbase, fun r hr => at?_addFolders_of_mem ?_ hr⟩
    exact fun q hq => hfree q (List.mem_append_left _ hq)
  rw [addFolders_append, ensureWrittenFolder_eq (q := Place.resolve tree.here path) hne hzero]
  · rfl
  · rw [hhere]
    exact follow_names hnames hfolders
  · intro octets
    rw [at?_addFolders]
    split
    · simp
    · exact hfree _ (List.mem_append_right _ List.mem_cons_self) octets

end

theorem addFolders_dot {parent : String} (hsame : base tree.here parent = base tree.here path)
    (hnames : WrittenPath.names path = WrittenPath.names parent ++ ["."])
    (hbase : tree.at? (base tree.here parent) = some .folder)
    (hfree : tree.FreeOfFiles (trail tree.here parent)) :
    tree.addFolders (trail tree.here path) = tree.addFolders (trail tree.here parent) := by
  have hstay : Place.resolve tree.here path = Place.resolve tree.here parent := by
    rw [resolve_eq, resolve_eq, hnames, List.foldl_append, hsame]
    simp [Place.step]
  have hmade : (tree.addFolders (trail tree.here parent)).at? (Place.resolve tree.here path) =
      some .folder := by
    rw [hstay]
    rcases List.mem_cons.1 (resolve_mem tree.here parent) with h | h
    · rw [h]
      exact at?_addFolders_of_some hbase
    · exact at?_addFolders_of_mem hfree h
  rw [trail_of_names tree.here hnames, ← hsame, addFolders_append]
  exact addFolders_of_folders (List.forall_mem_singleton.2 hmade)

/-- A folder whose parent is there, or that has none, is made at once. -/
theorem ensureWrittenFrom_at_once {fuel : Nat} (h : folder (trimmed path) = "" ∨
    lastName (trimmed path) = "" ∨ tree.has (folder (trimmed path)) = true) :
    tree.ensureWrittenFrom path (fuel + 1) = tree.ensureWrittenFolder path := by
  rw [ensureWrittenFrom]
  refine if_neg ?_
  change ¬ (!(folder (trimmed path)).isEmpty && !(lastName (trimmed path)).isEmpty &&
    !tree.has (folder (trimmed path))) = true
  rcases h with h | h | h <;> simp [h]

section

variable {fuel : Nat} {tree' : FileTree} (hfolder : folder (trimmed path) ≠ "")
  (hname : lastName (trimmed path) ≠ "") (hhas : tree.has (folder (trimmed path)) = false)

include hfolder hname hhas

/-- Otherwise the folders of the parent are made before. -/
theorem ensureWrittenFrom_parent
    (hparent : tree.ensureWrittenFrom (folder (trimmed path)) fuel = (.ok (), tree')) :
    tree.ensureWrittenFrom path (fuel + 1) =
      if lastName (trimmed path) = "." then (.ok (), tree') else tree'.ensureWrittenFolder path := by
  have htrimmed : (if (lastName path).isEmpty then folder path else path) = trimmed path := rfl
  rw [ensureWrittenFrom]
  simp only [htrimmed]
  rw [if_pos (by simp [hfolder, hname, hhas]), hparent]
  simp only [beq_iff_eq]

/-- A parent that cannot be made ends it, unless a file stands there. -/
theorem ensureWrittenFrom_parent_error {fault : FileFault}
    (hparent : tree.ensureWrittenFrom (folder (trimmed path)) fuel = (.error fault, tree')) :
    tree.ensureWrittenFrom path (fuel + 1) =
      if fault.cause ≠ .exists then (.error fault, tree')
      else if lastName (trimmed path) = "." then (.ok (), tree') else tree'.ensureWrittenFolder path := by
  have htrimmed : (if (lastName path).isEmpty then folder path else path) = trimmed path := rfl
  rw [ensureWrittenFrom]
  simp only [htrimmed]
  rw [if_pos (by simp [hfolder, hname, hhas]), hparent]
  simp only [beq_iff_eq, bne_iff_ne]

end

/-- A path made of slashes leads to the top, which is there. -/
theorem ensureWrittenFolder_top (hne : path ≠ "") (hzero : '\x00' ∉ path.toList)
    (hnames : WrittenPath.names path = []) : tree.ensureWrittenFolder path = (.ok (), tree) := by
  have hfollow : tree.follow (base tree.here path) (WrittenPath.names path) = .ok [] := by
    rw [hnames, base_of_names hnames hne]
    rfl
  rw [ensureWrittenFolder_eq hne hzero hfollow fun octets h => by cases h]
  rfl

/-- The folders of a path are made from the first one on that is missing. -/
theorem ensureWrittenFrom_eq {fuel : Nat} (hfuel : path.length ≤ fuel) (hne : path ≠ "")
    (hzero : '\x00' ∉ path.toList) (hbase : tree.at? (base tree.here path) = some .folder)
    (hfree : tree.FreeOfFiles (trail tree.here path)) :
    tree.ensureWrittenFrom path fuel = (.ok (), tree.addFolders (trail tree.here path)) := by
  induction fuel generalizing path with
  | zero =>
    rw [Nat.le_zero, String.length_eq_zero_iff] at hfuel
    exact absurd hfuel hne
  | succ fuel ih =>
    by_cases hname : lastName (trimmed path) = ""
    · have hnames := names_of_lastName_trimmed hname
      rw [ensureWrittenFrom_at_once (.inr (.inl hname)), trail, hnames,
        ensureWrittenFolder_top hne hzero hnames]
      rfl
    have hnames := names_eq_parent hname
    have hlast := ensureWrittenFolder_addFolders hne hzero hbase hnames hfree
    by_cases hfolder : folder (trimmed path) = ""
    · -- One name alone has no folders on the way.
      rw [hfolder] at hlast
      rw [ensureWrittenFrom_at_once (.inl hfolder)]
      exact hlast
    -- The parent starts where the path does, and its trail is the path's but for the last place.
    have hsame : base tree.here (folder (trimmed path)) = base tree.here path :=
      base_of_begins (parent_begins path) hfolder
    have hzero' : '\x00' ∉ (folder (trimmed path)).toList :=
      fun h => hzero ((parent_begins path).subset h)
    have hbase' : tree.at? (base tree.here (folder (trimmed path))) = some .folder := by
      rw [hsame, hbase]
    have hfree' : tree.FreeOfFiles (trail tree.here (folder (trimmed path))) := by
      intro q hq
      refine hfree q ?_
      rw [trail_of_names tree.here hnames, ← hsame]
      exact List.mem_append_left _ hq
    rw [← hsame] at hlast
    change (tree.addFolders (trail tree.here (folder (trimmed path)))).ensureWrittenFolder path =
      _ at hlast
    cases hhas : tree.has (folder (trimmed path)) with
    | true =>
      have hfolders := folders_of_has hfolder hzero' hbase' hfree' hhas
      rw [addFolders_of_folders (List.forall_mem_cons.1 hfolders).2] at hlast
      rw [ensureWrittenFrom_at_once (.inr (.inr hhas))]
      exact hlast
    | false =>
      have hshorter := length_parent_lt hname
      have hparent := ih (by omega) hfolder hzero' hbase' hfree'
      rw [ensureWrittenFrom_parent hfolder hname hhas hparent]
      split
      · next hdot =>
        rw [hdot] at hnames
        rw [addFolders_dot hsame hnames hbase' hfree']
      · exact hlast

/-- Making the folders of a written path adds those of its trail that are missing. -/
theorem ensureWritten_eq (hne : path ≠ "") (hzero : '\x00' ∉ path.toList)
    (hbase : tree.at? (base tree.here path) = some .folder)
    (hfree : tree.FreeOfFiles (trail tree.here path)) :
    tree.ensureWritten path = (.ok (), tree.addFolders (trail tree.here path)) :=
  ensureWrittenFrom_eq (Nat.le_refl _) hne hzero hbase hfree

/-! ## Paths that are refused -/

theorem locate_zero (h : '\x00' ∈ path.toList) :
    tree.locate (withoutEndSlashes path) = .error .zeroInPath := by
  obtain ⟨⟨slashes, hslashes, hpath⟩, -⟩ := withoutEndSlashes_spec path
  have hkept : '\x00' ∈ (withoutEndSlashes path).toList := by
    rw [← hpath, List.mem_append] at h
    exact h.resolve_right fun hzero => absurd (hslashes _ hzero) (by decide)
  rw [locate, String.contains_char_eq, decide_eq_true hkept]
  rfl

theorem ensureWrittenFolder_zero (h : '\x00' ∈ path.toList) :
    tree.ensureWrittenFolder path = (.error ⟨.zeroInPath, path⟩, tree) := by
  simp [ensureWrittenFolder, makeFolder, locate_zero h]

theorem write_zero (tree : FileTree) (octets : List UInt8) (h : '\x00' ∈ path.toList) :
    tree.write path octets = .error ⟨.zeroInPath, path⟩ := by
  rw [write, locate_zero h]

theorem ensureWritten_empty : tree.ensureWritten "" = (.error ⟨.notFound, ""⟩, tree) := by
  have hlocate : tree.locate "" = .error .notFound := by simp [locate]
  have htrimmed : withoutEndSlashes "" = "" := by simp [withoutEndSlashes]
  show tree.ensureWrittenFolder "" = _
  simp [ensureWrittenFolder, makeFolder, htrimmed, hlocate, hasFolder, find?]

/-- The folder of a path with a zero character is not made. -/
theorem ensureWrittenFrom_zero (tree : FileTree) (fuel : Nat) (h : '\x00' ∈ path.toList) :
    ∃ fault tree', tree.ensureWrittenFrom path fuel = (.error fault, tree') ∧
      fault.cause ≠ .exists := by
  induction fuel generalizing path with
  | zero => exact ⟨_, _, ensureWrittenFolder_zero h, by simp⟩
  | succ fuel ih =>
    by_cases honce : folder (trimmed path) = "" ∨ lastName (trimmed path) = "" ∨
        tree.has (folder (trimmed path)) = true
    · rw [ensureWrittenFrom_at_once honce]
      exact ⟨_, _, ensureWrittenFolder_zero h, by simp⟩
    · obtain ⟨hfolder, hname, hhas⟩ := by simpa only [not_or, Bool.not_eq_true] using honce
      by_cases hzero : '\x00' ∈ (folder (trimmed path)).toList
      · obtain ⟨fault, tree', hparent, hcause⟩ := ih hzero
        rw [ensureWrittenFrom_parent_error hfolder hname hhas hparent, if_pos hcause]
        exact ⟨fault, tree', rfl, hcause⟩
      · -- The zero is in the last name, and so it comes to making the folder itself.
        have hdot : lastName (trimmed path) ≠ "." := by
          intro hdot
          have hlast := (mem_folder_or_lastName (by decide) (mem_trimmed (by decide) h)).resolve_left hzero
          rw [hdot] at hlast
          simp at hlast
        cases hparent : tree.ensureWrittenFrom (folder (trimmed path)) fuel with
        | mk result tree' =>
          cases result with
          | ok _ =>
            rw [ensureWrittenFrom_parent hfolder hname hhas hparent, if_neg hdot]
            exact ⟨_, _, ensureWrittenFolder_zero h, by simp⟩
          | error fault =>
            rw [ensureWrittenFrom_parent_error hfolder hname hhas hparent]
            by_cases hcause : fault.cause = .exists
            · rw [if_neg (by simpa using hcause), if_neg hdot]
              exact ⟨_, _, ensureWrittenFolder_zero h, by simp⟩
            · rw [if_pos hcause]
              exact ⟨fault, tree', rfl, hcause⟩

/-- A file is written below a folder that is there, under its name. -/
theorem write_join {folder name : String} {octets : List UInt8} (hfolder : folder ≠ "")
    (hname : '/' ∉ name.toList) (hne : name ≠ "") (hzero : '\x00' ∉ (join folder name).toList)
    (h : ∀ r ∈ base tree.here folder :: trail tree.here folder, tree.at? r = some .folder)
    (hplace : tree.at? (Place.resolve tree.here (join folder name)) ≠ some .folder) :
    tree.write (join folder name) octets =
      .ok (tree.put (Place.resolve tree.here (join folder name)) (.file octets)) := by
  have hend := endsWith_join hfolder hname hne
  have hstart := startsWith_of_no_slash hname
  have hnames := names_join hstart folder
  rw [names_of_no_slash hname hne] at hnames
  have hsome : join folder name ≠ "" := by
    intro hempty
    rw [hempty] at hnames
    exact absurd hnames.symm (by simp [WrittenPath.names, Place.parts])
  refine write_eq hsome hzero hend (follow_names hnames ?_) hplace
  rw [base_join hstart]
  exact h

end FileTree

end McdocSchema
