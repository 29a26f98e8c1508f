import McdocSchema.FileTree.Path

/-!
# Where paths lead

A path in normal form names a place. On the way it passes the places of its `trail`, each of which has to be
that of a folder but for the last one. If no file is in the way, making the folders of a path adds exactly
those folders of its trail that are missing (`ensureFolders_eq`), and writing and reading go to the place
of the path.
-/

namespace McdocSchema

/-! ## Texts of paths -/

theorem endsWith_iff {s t : String} : s.endsWith t = true ↔ t.toList <:+ s.toList := by
  rw [String.endsWith_eq_endsWith_toSlice, String.Slice.endsWith_string_iff, String.copy_toSlice]

/-- A name that can stand in a path. -/
structure IsPathName (name : String) : Prop where
  ne_empty : name ≠ ""
  ne_dot : name ≠ "."
  no_slash : '/' ∉ name.toList
  no_zero : '\x00' ∉ name.toList

instance : DecidablePred IsPathName := fun name =>
  decidable_of_iff (name ≠ "" ∧ name ≠ "." ∧ '/' ∉ name.toList ∧ '\x00' ∉ name.toList)
    ⟨fun ⟨hempty, hdot, hslash, hzero⟩ => ⟨hempty, hdot, hslash, hzero⟩,
      fun h => ⟨h.ne_empty, h.ne_dot, h.no_slash, h.no_zero⟩⟩

namespace Place

theorem parts_intercalate {names : List String} (h : ∀ name ∈ names, '/' ∉ name.toList)
    (hne : names ≠ []) : parts ("/".intercalate names) = names := by
  have hsplit : (['/'].intercalate (names.map String.toList)).splitOn '/' = names.map String.toList :=
    List.splitOn_intercalate '/' (by simpa using h) (by simpa using hne)
  have hsame : String.ofList ∘ String.toList = id := by
    funext s
    exact String.ofList_toList
  rw [parts, String.toList_intercalate]
  show ((['/'].intercalate (names.map String.toList)).splitOn '/').map String.ofList = names
  rw [hsplit, List.map_map, hsame, List.map_id]

theorem parts_of_suffix {path : String} (h : ['/'] <:+ path.toList) :
    ∃ front, parts path = front ++ [""] := by
  obtain ⟨cs, hcs⟩ := h
  refine ⟨(cs.splitOn '/').map String.ofList, ?_⟩
  rw [parts, ← hcs, List.splitOn_append_cons_self, List.map_append]
  rfl

theorem parts_of_prefix {path : String} (h : ['/'] <+: path.toList) :
    ∃ back, parts path = "" :: back := by
  obtain ⟨cs, hcs⟩ := h
  refine ⟨(cs.splitOn '/').map String.ofList, ?_⟩
  have hsplit : ('/' :: cs).splitOn '/' = [] :: cs.splitOn '/' :=
    List.splitOn_append_cons_self_of_not_mem List.not_mem_nil cs
  rw [parts, ← hcs, List.singleton_append, hsplit]
  rfl

end Place

theorem mem_intercalate {sep : String} {names : List String} {c : Char}
    (h : c ∈ (sep.intercalate names).toList) :
    c ∈ sep.toList ∨ ∃ name ∈ names, c ∈ name.toList := by
  induction names with
  | nil => simp at h
  | cons name names ih =>
    cases names with
    | nil => exact .inr ⟨name, List.mem_cons_self, by simpa using h⟩
    | cons name' names =>
      rw [String.intercalate_cons_cons, String.toList_append, String.toList_append, List.mem_append,
        List.mem_append] at h
      rcases h with (h | h) | h
      · exact .inr ⟨name, List.mem_cons_self, h⟩
      · exact .inl h
      · exact (ih h).imp_right fun ⟨n, hn, hc⟩ => ⟨n, List.mem_cons_of_mem name hn, hc⟩

namespace Path

/-- A path in normal form. -/
structure IsNormal (p : Path) : Prop where
  root : p.root = "" ∨ p.root = "/" ∨ p.root = "//"
  names : ∀ name ∈ p.names, IsPathName name

theorem IsNormal.ne_empty {p : Path} (h : p.IsNormal) : ∀ name ∈ p.names, name ≠ "" :=
  fun name hname => (h.names name hname).ne_empty

/-- What stands in front of the slashes of a root. -/
def rootParts (root : String) : List String := root.toList.map fun _ => ""

variable {p : Path}

theorem toString_eq (hp : p.IsNormal) (hne : p.names ≠ []) :
    p.toString = "/".intercalate (rootParts p.root ++ p.names) := by
  have htext : p.toString = p.root ++ "/".intercalate p.names := by simp [toString, hne]
  obtain ⟨name, names, hnames⟩ := List.exists_cons_of_ne_nil hne
  rw [htext, hnames]
  rcases hp.root with hroot | hroot | hroot <;> rw [hroot]
  · rfl
  · show "/" ++ _ = "/".intercalate ("" :: name :: names)
    rw [String.intercalate_cons_cons]
    rfl
  · show "//" ++ _ = "/".intercalate ("" :: "" :: name :: names)
    rw [String.intercalate_cons_cons, String.intercalate_cons_cons, ← String.append_assoc]
    rfl

theorem parts_toString (hp : p.IsNormal) (hne : p.names ≠ []) :
    Place.parts p.toString = rootParts p.root ++ p.names := by
  rw [toString_eq hp hne]
  apply Place.parts_intercalate
  · intro name hname
    rcases List.mem_append.1 hname with hroot | hname
    · obtain ⟨_, _, rfl⟩ := List.mem_map.1 hroot
      simp
    · exact (hp.names name hname).no_slash
  · simp [hne]

theorem not_suffix_toString (hp : p.IsNormal) (hne : p.names ≠ []) :
    ¬ ['/'] <:+ p.toString.toList := by
  intro h
  obtain ⟨front, hfront⟩ := Place.parts_of_suffix h
  rw [parts_toString hp hne, ← List.dropLast_concat_getLast hne, ← List.append_assoc] at hfront
  have hlast := (List.append_inj' hfront rfl).2
  rw [List.singleton_inj] at hlast
  exact (hp.names _ (List.getLast_mem hne)).ne_empty hlast

theorem prefix_toString_iff (hp : p.IsNormal) :
    ['/'] <+: p.toString.toList ↔ p.root ≠ "" := by
  constructor
  · intro h hroot
    by_cases hne : p.names = []
    · simp [toString, hroot, hne] at h
    · obtain ⟨back, hback⟩ := Place.parts_of_prefix h
      rw [parts_toString hp hne, hroot] at hback
      have hhead : "" ∈ p.names := by
        show "" ∈ rootParts "" ++ p.names
        rw [hback]
        exact List.mem_cons_self
      exact (hp.names "" hhead).ne_empty rfl
  · intro hroot
    have htext : p.toString = p.root ++ "/".intercalate p.names := by simp [toString, hroot]
    rw [htext, String.toList_append]
    rcases hp.root with h | h | h
    · exact absurd h hroot
    · rw [h]
      exact List.prefix_append ['/'] _
    · rw [h]
      exact List.prefix_append ['/'] ('/' :: _)

theorem zero_not_mem_toString (hp : p.IsNormal) : '\x00' ∉ p.toString.toList := by
  intro h
  by_cases hne : p.names = []
  · rcases hp.root with hroot | hroot | hroot <;> simp [toString, hne, hroot] at h
  · rw [toString_eq hp hne] at h
    rcases mem_intercalate h with h | ⟨name, hname, h⟩
    · simp at h
    · rcases List.mem_append.1 hname with hroot | hname
      · obtain ⟨_, _, rfl⟩ := List.mem_map.1 hroot
        simp at h
      · exact (hp.names name hname).no_zero h

theorem namesOf_toString (hp : p.IsNormal) (hne : p.names ≠ []) :
    FileTree.namesOf p.toString = p.names := by
  have hend : p.toString.endsWith "/" = false := by
    rw [← Bool.not_eq_true, endsWith_iff]
    exact not_suffix_toString hp hne
  have hroot : (rootParts p.root).filter (fun name => !name.isEmpty) = [] := by
    simp [rootParts]
  have hnames : p.names.filter (fun name => !name.isEmpty) = p.names := by
    rw [List.filter_eq_self]
    intro name hname
    simpa using (hp.names name hname).ne_empty
  rw [FileTree.namesOf, hend, parts_toString hp hne, List.filter_append, hroot, hnames]
  rfl

theorem namesOf_toString_nil (hp : p.IsNormal) (hne : p.names = []) :
    FileTree.namesOf p.toString = ["."] := by
  obtain ⟨root, names⟩ := p
  cases hne
  have hsuffix : ∀ text : String, text.endsWith "/" = decide ("/".toList <:+ text.toList) := by
    intro text
    rw [Bool.eq_iff_iff, endsWith_iff, decide_eq_true_iff]
  rw [FileTree.namesOf, hsuffix]
  rcases hp.root with h | h | h <;> cases h <;> rfl

theorem toString_ne_empty (hp : p.IsNormal) : p.toString ≠ "" := by
  intro h
  by_cases hne : p.names = []
  · have hnames := namesOf_toString_nil hp hne
    rw [h] at hnames
    cases hnames
  · have hnames := namesOf_toString hp hne
    rw [h] at hnames
    exact hne hnames.symm

theorem withoutEndSlashes_toString (hp : p.IsNormal) (hne : p.names ≠ []) :
    FileTree.withoutEndSlashes p.toString = p.toString := by
  have hkept : p.toString.toList.reverse.dropWhile (· == '/') = p.toString.toList.reverse := by
    cases hcs : p.toString.toList.reverse with
    | nil => rfl
    | cons c cs =>
      by_cases hc : c = '/'
      · have hend : p.toString.toList = cs.reverse ++ ['/'] := by
          rw [← List.reverse_reverse p.toString.toList, hcs, List.reverse_cons, hc]
        exact absurd ⟨cs.reverse, hend.symm⟩ (not_suffix_toString hp hne)
      · exact List.dropWhile_cons_of_neg (by simpa using hc)
  rw [FileTree.withoutEndSlashes, hkept, List.reverse_reverse]
  cases htext : p.toString.toList with
  | nil =>
    rw [← String.ofList_toList (s := p.toString), htext]
    rfl
  | cons c cs =>
    rw [← htext, String.ofList_toList]
    simp [htext]

/-! ## Places -/

/-- The place at which the path starts. -/
def base (here : Place) (p : Path) : Place := if p.root.isEmpty then here else []

/-- The place that the path leads to. -/
def place (here : Place) (p : Path) : Place := p.names.foldl Place.step (p.base here)

end Path

/-- The places that names lead to one after the other. -/
def Place.trail (place : Place) : List String → List Place
  | [] => []
  | name :: names => place.step name :: Place.trail (place.step name) names

/-- The places that a path leads to name by name, its own place the last. -/
def Path.trail (here : Place) (p : Path) : List Place := (p.base here).trail p.names

theorem Place.trail_append (place : Place) (names names' : List String) :
    place.trail (names ++ names') =
      place.trail names ++ Place.trail (names.foldl Place.step place) names' := by
  induction names generalizing place with
  | nil => rfl
  | cons name names ih => rw [List.cons_append, trail, trail, ih, List.cons_append, List.foldl_cons]

theorem Place.foldl_mem_trail (place : Place) (names : List String) :
    names.foldl Place.step place ∈ place :: place.trail names := by
  induction names generalizing place with
  | nil => exact List.mem_cons_self
  | cons name names ih => exact List.mem_cons_of_mem place (ih (place.step name))

namespace FileTree

variable {tree : FileTree} {place : Place} {name : String} {names rest : List String}

theorem follow_cons (h : tree.at? place = some .folder) (hn : name ≠ "") :
    tree.follow place (name :: names) = tree.follow (place.step name) names := by
  by_cases hdot : name = "."
  · simp [follow, Place.step, h, hdot]
  · by_cases hup : name = ".."
    · simp [follow, Place.step, h, hup]
    · simp [follow, Place.step, h, hup, hdot, hn]

/-- Only a folder is left for another place. -/
theorem follow_cons_ok (hn : name ≠ "") {q : Place} (h : tree.follow place (name :: names) = .ok q) :
    tree.at? place = some .folder ∧ tree.follow (place.step name) names = .ok q := by
  cases hplace : tree.at? place with
  | none => simp [follow, hplace] at h
  | some entry =>
    cases entry with
    | file octets => simp [follow, hplace] at h
    | folder => exact ⟨rfl, follow_cons hplace hn ▸ h⟩

theorem follow_append (hn : ∀ name ∈ names, name ≠ "")
    (h : ∀ p ∈ place :: place.trail names, tree.at? p = some .folder) :
    tree.follow place (names ++ rest) = tree.follow (names.foldl Place.step place) rest := by
  induction names generalizing place with
  | nil => rfl
  | cons name names ih =>
    rw [List.cons_append, follow_cons (h place List.mem_cons_self) (hn name List.mem_cons_self)]
    exact ih (fun n hmem => hn n (List.mem_cons_of_mem name hmem))
      fun p hmem => h p (List.mem_cons_of_mem place hmem)

theorem follow_concat (hn : ∀ n ∈ names ++ [name], n ≠ "")
    (h : ∀ p ∈ place :: place.trail names, tree.at? p = some .folder) :
    tree.follow place (names ++ [name]) = .ok ((names ++ [name]).foldl Place.step place) := by
  have hlast := h _ (Place.foldl_mem_trail place names)
  rw [follow_append (fun n hmem => hn n (List.mem_append_left _ hmem)) h,
    follow_cons hlast (hn name (by simp)), List.foldl_append]
  rfl

/-- Where a folder is missing and no file is in the way, a path leads to nothing. -/
theorem follow_missing (hn : ∀ n ∈ names ++ [name], n ≠ "")
    (hfree : ∀ p ∈ place :: place.trail names, ∀ octets, tree.at? p ≠ some (.file octets))
    (h : ∃ p ∈ place :: place.trail names, tree.at? p = none) :
    tree.follow place (names ++ [name]) = .error .notFound := by
  induction names generalizing place with
  | nil =>
    obtain ⟨p, hp, hnone⟩ := h
    rw [List.mem_singleton.1 hp] at hnone
    rw [List.nil_append, follow, hnone]
  | cons n names ih =>
    cases hplace : tree.at? place with
    | none => rw [List.cons_append, follow, hplace]
    | some entry =>
      cases entry with
      | file octets => exact absurd hplace (hfree place List.mem_cons_self octets)
      | folder =>
        rw [List.cons_append, follow_cons hplace (hn n (by simp))]
        apply ih
        · intro m hm
          exact hn m (List.mem_cons_of_mem n hm)
        · intro p hp
          exact hfree p (List.mem_cons_of_mem place hp)
        · obtain ⟨p, hp, hnone⟩ := h
          rcases List.mem_cons.1 hp with rfl | hp
          · rw [hplace] at hnone
            cases hnone
          · exact ⟨p, hp, hnone⟩

/-- A path that leads to a folder passes folders only. -/
theorem follow_folder (hn : ∀ n ∈ names, n ≠ "") {q : Place}
    (h : tree.follow place names = .ok q) (hq : tree.at? q = some .folder) :
    ∀ r ∈ place :: place.trail names, tree.at? r = some .folder := by
  induction names generalizing place with
  | nil =>
    cases h
    simpa [Place.trail] using hq
  | cons name names ih =>
    obtain ⟨hplace, hnext⟩ := follow_cons_ok (hn name List.mem_cons_self) h
    rw [List.forall_mem_cons]
    exact ⟨hplace, ih (fun n hmem => hn n (List.mem_cons_of_mem name hmem)) hnext⟩

theorem follow_dot (h : tree.at? place = some .folder) : tree.follow place ["."] = .ok place := by
  simp [follow, h]

/-- The place that a path leads to is found by its names. -/
theorem locate_toString {p : Path} (hp : p.IsNormal)
    (hbase : tree.at? (p.base tree.here) = some .folder) :
    tree.locate p.toString = tree.follow (p.base tree.here) p.names := by
  have hzero : p.toString.contains '\x00' = false := by
    rw [String.contains_char_eq, decide_eq_false_iff_not]
    exact Path.zero_not_mem_toString hp
  have hempty : p.toString.isEmpty = false := by
    rw [← Bool.not_eq_true, String.isEmpty_iff]
    exact Path.toString_ne_empty hp
  have hstart : (if p.toString.startsWith "/" then [] else tree.here) = p.base tree.here := by
    have hiff : p.toString.startsWith "/" = true ↔ p.root ≠ "" :=
      String.startsWith_string_iff.trans (Path.prefix_toString_iff hp)
    by_cases hroot : p.root = ""
    · rw [if_neg (fun h => hiff.1 h hroot), Path.base, hroot]
      rfl
    · rw [if_pos (hiff.2 hroot), Path.base, if_neg (by simpa using hroot)]
  rw [locate, hzero, hempty, hstart]
  show tree.follow (p.base tree.here) (namesOf p.toString) = _
  by_cases hne : p.names = []
  · rw [Path.namesOf_toString_nil hp hne, follow_dot hbase, hne]
    rfl
  · rw [Path.namesOf_toString hp hne]

/-- Slashes at the end, which only a path without names has, make no difference. -/
theorem locate_withoutEndSlashes {p : Path} (hp : p.IsNormal)
    (hbase : tree.at? (p.base tree.here) = some .folder) :
    tree.locate (withoutEndSlashes p.toString) = tree.follow (p.base tree.here) p.names := by
  by_cases hne : p.names = []
  · obtain ⟨root, names⟩ := p
    cases hne
    rcases hp.root with h | h | h <;> cases h
    · exact locate_toString hp hbase
    · exact locate_toString hp hbase
    · have hp' : Path.IsNormal ⟨"/", []⟩ := ⟨.inr (.inl rfl), hp.names⟩
      exact locate_toString hp' hbase
  · rw [Path.withoutEndSlashes_toString hp hne]
    exact locate_toString hp hbase

/-! ## Adding folders -/

variable {places : List Place}

/-- The tree with a folder at a place where nothing stood. -/
def addFolder (tree : FileTree) (place : Place) : FileTree :=
  if (tree.at? place).isSome then tree else tree.put place .folder

/-- The tree with folders at places where nothing stood. -/
def addFolders (tree : FileTree) (places : List Place) : FileTree :=
  places.foldl addFolder tree

theorem at?_put {entry : Entry} (h : place ≠ []) (p : Place) :
    (tree.put place entry).at? p = if p = place then some entry else tree.at? p := by
  have hlookup : ∀ entries : List (Place × Entry), p ≠ place →
      (entries.filter fun e => e.1 != place).lookup p = entries.lookup p := by
    intro entries hne
    induction entries with
    | nil => rfl
    | cons e entries ih =>
      obtain ⟨q, found⟩ := e
      by_cases hq : q = place
      · have hp : (p == q) = false := by simpa [hq] using hne
        rw [List.filter_cons_of_neg (by simpa using hq), ih, List.lookup_cons, hp]
      · rw [List.filter_cons_of_pos (by simpa using hq), List.lookup_cons, List.lookup_cons, ih]
  cases p with
  | nil =>
    rw [if_neg (Ne.symm h)]
    rfl
  | cons name names =>
    show ((place, entry) :: tree.entries.filter fun e => e.1 != place).lookup (name :: names) = _
    by_cases hp : name :: names = place
    · simp [hp]
    · have hne : (name :: names == place) = false := by simpa using hp
      rw [if_neg hp, List.lookup_cons, hne]
      exact hlookup tree.entries hp

theorem at?_addFolder (tree : FileTree) (place p : Place) :
    (tree.addFolder place).at? p =
      if p = place ∧ tree.at? p = none then some .folder else tree.at? p := by
  unfold addFolder
  cases h : tree.at? place with
  | some entry =>
    have hsome : ¬ (p = place ∧ tree.at? p = none) := by
      rintro ⟨rfl, hnone⟩
      rw [h] at hnone
      cases hnone
    rw [if_neg hsome]
    rfl
  | none =>
    have hne : place ≠ [] := by
      rintro rfl
      cases h
    rw [if_neg (by simp), at?_put hne]
    by_cases hp : p = place
    · rw [if_pos hp, if_pos ⟨hp, hp ▸ h⟩]
    · rw [if_neg hp, if_neg fun hand => hp hand.1]

theorem at?_addFolders (tree : FileTree) (places : List Place) (p : Place) :
    (tree.addFolders places).at? p =
      if p ∈ places ∧ tree.at? p = none then some .folder else tree.at? p := by
  induction places generalizing tree with
  | nil => simp [addFolders]
  | cons place places ih =>
    show ((tree.addFolder place).addFolders places).at? p = _
    rw [ih, at?_addFolder]
    by_cases hnone : tree.at? p = none
    · by_cases hp : p = place
      · subst hp
        simp [hnone]
      · simp [hp, hnone]
    · simp [hnone]

theorem at?_addFolders_of_some {entry : Entry} {p : Place}
    (h : tree.at? p = some entry) : (tree.addFolders places).at? p = some entry := by
  simp [at?_addFolders, h]

theorem addFolders_append (tree : FileTree) (places places' : List Place) :
    tree.addFolders (places ++ places') = (tree.addFolders places).addFolders places' :=
  List.foldl_append

theorem here_addFolders (tree : FileTree) (places : List Place) :
    (tree.addFolders places).here = tree.here := by
  induction places generalizing tree with
  | nil => rfl
  | cons place places ih =>
    have hfirst : (tree.addFolder place).here = tree.here := by
      unfold addFolder
      split <;> rfl
    exact (ih (tree.addFolder place)).trans hfirst

theorem addFolders_of_folders
    (h : ∀ p ∈ places, tree.at? p = some .folder) : tree.addFolders places = tree := by
  induction places with
  | nil => rfl
  | cons place places ih =>
    have hfirst : tree.addFolder place = tree := by
      rw [addFolder, h place List.mem_cons_self]
      rfl
    show (tree.addFolder place).addFolders places = tree
    rw [hfirst]
    exact ih fun p hp => h p (List.mem_cons_of_mem place hp)

/-- No file stands at the places. -/
def FreeOfFiles (tree : FileTree) (places : List Place) : Prop :=
  ∀ p ∈ places, ∀ octets, tree.at? p ≠ some (.file octets)

theorem freeOfFiles_iff :
    tree.FreeOfFiles places ↔ ∀ p ∈ places, tree.at? p = none ∨ tree.at? p = some .folder := by
  refine forall₂_congr fun p _ => ?_
  cases tree.at? p with
  | none => simp
  | some entry => cases entry <;> simp

instance (places : List Place) : Decidable (tree.FreeOfFiles places) :=
  decidable_of_iff' _ freeOfFiles_iff

theorem exists_missing (hfree : tree.FreeOfFiles places)
    (h : ¬ ∀ p ∈ places, tree.at? p = some .folder) : ∃ p ∈ places, tree.at? p = none := by
  simp only [Classical.not_forall] at h
  obtain ⟨p, hp, hne⟩ := h
  exact ⟨p, hp, (freeOfFiles_iff.1 hfree p hp).resolve_right hne⟩

/-- Where no file is in the way, every place that is added is a folder. -/
theorem at?_addFolders_of_mem (hfree : tree.FreeOfFiles places) {p : Place}
    (hp : p ∈ places) : (tree.addFolders places).at? p = some .folder := by
  rw [at?_addFolders]
  cases h : tree.at? p with
  | none => simp [hp]
  | some entry =>
    cases entry with
    | folder => simp
    | file octets => exact absurd h (hfree p hp octets)

/-! ## Making folders, writing and reading -/

section

variable {root : String}

theorem trail_concat (here : Place) (root : String) (names : List String) (name : String) :
    Path.trail here ⟨root, names ++ [name]⟩ =
      Path.trail here ⟨root, names⟩ ++ [Path.place here ⟨root, names ++ [name]⟩] := by
  show Place.trail _ (names ++ [name]) = _
  rw [Place.trail_append, Path.place, List.foldl_append]
  rfl

/-- A path whose folders are there leads to its place. -/
theorem locate_concat (hp : Path.IsNormal ⟨root, names ++ [name]⟩)
    (h : ∀ q ∈ Path.base tree.here ⟨root, names⟩ :: Path.trail tree.here ⟨root, names⟩,
      tree.at? q = some .folder) :
    tree.locate (Path.toString ⟨root, names ++ [name]⟩) =
        .ok (Path.place tree.here ⟨root, names ++ [name]⟩) ∧
      tree.locate (withoutEndSlashes (Path.toString ⟨root, names ++ [name]⟩)) =
        .ok (Path.place tree.here ⟨root, names ++ [name]⟩) := by
  have hbase := h _ List.mem_cons_self
  rw [locate_toString hp hbase, locate_withoutEndSlashes hp hbase]
  exact ⟨follow_concat hp.ne_empty h, follow_concat hp.ne_empty h⟩

theorem ensureFolder_concat (hp : Path.IsNormal ⟨root, names ++ [name]⟩)
    (h : ∀ q ∈ Path.base tree.here ⟨root, names⟩ :: Path.trail tree.here ⟨root, names⟩,
      tree.at? q = some .folder)
    (hfree : ∀ octets, tree.at? (Path.place tree.here ⟨root, names ++ [name]⟩) ≠ some (.file octets)) :
    tree.ensureFolder ⟨root, names ++ [name]⟩ =
      .ok (tree.addFolder (Path.place tree.here ⟨root, names ++ [name]⟩)) := by
  obtain ⟨hfind, hmake⟩ := locate_concat hp h
  rw [ensureFolder, makeFolder, hmake, addFolder]
  cases hat : tree.at? (Path.place tree.here ⟨root, names ++ [name]⟩) with
  | none => simp [hat]
  | some entry =>
    cases entry with
    | file octets => exact absurd hat (hfree octets)
    | folder => simp [hat, hasFolder, find?, hfind]

theorem ensureFolder_missing (hp : Path.IsNormal ⟨root, names ++ [name]⟩)
    (hbase : tree.at? (Path.base tree.here ⟨root, names⟩) = some .folder)
    (hfree : tree.FreeOfFiles (Path.trail tree.here ⟨root, names⟩))
    (h : ∃ q ∈ Path.trail tree.here ⟨root, names⟩, tree.at? q = none) :
    tree.ensureFolder ⟨root, names ++ [name]⟩ =
      .error ⟨.notFound, Path.toString ⟨root, names ++ [name]⟩⟩ := by
  have hnone : tree.follow (Path.base tree.here ⟨root, names⟩) (names ++ [name]) =
      .error .notFound := by
    apply follow_missing hp.ne_empty
    · intro q hq octets
      rcases List.mem_cons.1 hq with rfl | hq
      · rw [hbase]
        simp
      · exact hfree q hq octets
    · obtain ⟨q, hq, hnone⟩ := h
      exact ⟨q, List.mem_cons_of_mem _ hq, hnone⟩
  have hfind := (locate_toString hp hbase).trans hnone
  have hmake := (locate_withoutEndSlashes hp hbase).trans hnone
  simp [ensureFolder, makeFolder, hmake, hasFolder, find?, hfind]

theorem ensureFolder_addFolders (hp : Path.IsNormal ⟨root, names ++ [name]⟩)
    (hbase : tree.at? (Path.base tree.here ⟨root, names⟩) = some .folder)
    (hfree : tree.FreeOfFiles (Path.trail tree.here ⟨root, names ++ [name]⟩)) :
    (tree.addFolders (Path.trail tree.here ⟨root, names⟩)).ensureFolder ⟨root, names ++ [name]⟩ =
      .ok (tree.addFolders (Path.trail tree.here ⟨root, names ++ [name]⟩)) := by
  rw [trail_concat] at hfree ⊢
  have hfront : tree.FreeOfFiles (Path.trail tree.here ⟨root, names⟩) :=
    fun q hq => hfree q (List.mem_append_left _ hq)
  have hmade := here_addFolders tree (Path.trail tree.here ⟨root, names⟩)
  rw [addFolders_append, ensureFolder_concat hp, hmade]
  · rfl
  · rw [hmade, List.forall_mem_cons]
    exact ⟨at?_addFolders_of_some hbase, fun q hq => at?_addFolders_of_mem hfront hq⟩
  · intro octets
    rw [hmade, at?_addFolders]
    split
    · simp
    · exact hfree _ (List.mem_append_right _ List.mem_cons_self) octets

/-- Folders are made from the first one on that is missing. -/
theorem ensureFoldersFrom_eq (hp : Path.IsNormal ⟨root, names⟩)
    (hbase : tree.at? (Path.base tree.here ⟨root, names⟩) = some .folder)
    (hfree : tree.FreeOfFiles (Path.trail tree.here ⟨root, names⟩)) :
    (tree.ensureFoldersFrom ⟨root, names⟩ names.length).1 =
      .ok (tree.addFolders (Path.trail tree.here ⟨root, names⟩)) := by
  induction hn : names.length generalizing names with
  | zero =>
    obtain rfl := List.length_eq_zero_iff.1 hn
    have hfind := locate_toString hp hbase
    have hmake := locate_withoutEndSlashes hp hbase
    have hstay : tree.follow (Path.base tree.here ⟨root, []⟩) [] =
      .ok (Path.base tree.here ⟨root, []⟩) := rfl
    rw [hstay] at hfind hmake
    show tree.ensureFolder ⟨root, []⟩ = .ok tree
    simp [ensureFolder, makeFolder, hmake, hbase, hasFolder, find?, hfind]
  | succ n ih =>
    have hne : names ≠ [] := by
      rintro rfl
      cases hn
    obtain ⟨front, name, rfl⟩ : ∃ front name, names = front ++ [name] :=
      ⟨names.dropLast, names.getLast hne, (List.dropLast_concat_getLast hne).symm⟩
    have hlast := ensureFolder_addFolders hp hbase hfree
    have hfront : tree.FreeOfFiles (Path.trail tree.here ⟨root, front⟩) := by
      intro q hq
      rw [trail_concat] at hfree
      exact hfree q (List.mem_append_left _ hq)
    rw [ensureFoldersFrom]
    by_cases hall : ∀ q ∈ Path.trail tree.here ⟨root, front⟩, tree.at? q = some .folder
    · -- All folders on the way are there, and only the last one may have to be made.
      rw [addFolders_of_folders hall] at hlast
      rw [hlast]
    · -- One is missing, so the first try fails and the folders above are made before the second.
      have hparent : Path.IsNormal ⟨root, front⟩ :=
        ⟨hp.root, fun m hm => hp.names m (List.mem_append_left _ hm)⟩
      have hparents := ih hparent hbase hfront (by simpa using hn)
      have hdrop : Path.parent ⟨root, front ++ [name]⟩ = ⟨root, front⟩ := by simp [Path.parent]
      have hother : (Path.mk root front != ⟨root, front ++ [name]⟩) = true := by simp
      rw [ensureFolder_missing hp hbase hfront (exists_missing hfront hall), hdrop, hother]
      cases hrun : tree.ensureFoldersFrom ⟨root, front⟩ n with
      | mk result tree' =>
        rw [hrun] at hparents
        simp only at hparents
        subst hparents
        exact hlast

/-- Making the folders of a path adds those of its trail that are missing. -/
theorem ensureFolders_eq {p : Path} (hp : p.IsNormal)
    (hbase : tree.at? (p.base tree.here) = some .folder)
    (hfree : tree.FreeOfFiles (p.trail tree.here)) :
    tree.ensureFolders p = (.ok (), tree.addFolders (p.trail tree.here)) := by
  obtain ⟨root, names⟩ := p
  have hmade := ensureFoldersFrom_eq hp hbase hfree
  rw [ensureFolders]
  cases hrun : tree.ensureFoldersFrom ⟨root, names⟩ names.length with
  | mk result tree' =>
    rw [hrun] at hmade
    simp only at hmade
    subst hmade
    rfl

theorem write_toString {octets : List UInt8} (hp : Path.IsNormal ⟨root, names ++ [name]⟩)
    (h : ∀ q ∈ Path.base tree.here ⟨root, names⟩ :: Path.trail tree.here ⟨root, names⟩,
      tree.at? q = some .folder)
    (hplace : tree.at? (Path.place tree.here ⟨root, names ++ [name]⟩) ≠ some .folder) :
    tree.write (Path.toString ⟨root, names ++ [name]⟩) octets =
      .ok (tree.put (Path.place tree.here ⟨root, names ++ [name]⟩) (.file octets)) := by
  have hend : (Path.toString ⟨root, names ++ [name]⟩).endsWith "/" = false := by
    rw [← Bool.not_eq_true, endsWith_iff]
    exact Path.not_suffix_toString hp (by simp)
  rw [write, (locate_concat hp h).2, hend]
  simp [hplace]

theorem read_toString (hp : Path.IsNormal ⟨root, names ++ [name]⟩)
    (h : ∀ q ∈ Path.base tree.here ⟨root, names⟩ :: Path.trail tree.here ⟨root, names⟩,
      tree.at? q = some .folder) :
    (tree.at? (Path.place tree.here ⟨root, names ++ [name]⟩) = some .folder →
      tree.read (Path.toString ⟨root, names ++ [name]⟩) =
        .error ⟨.isFolder, Path.toString ⟨root, names ++ [name]⟩⟩) ∧
    ∀ octets, tree.at? (Path.place tree.here ⟨root, names ++ [name]⟩) = some (.file octets) →
      tree.read (Path.toString ⟨root, names ++ [name]⟩) = .ok octets := by
  rw [read, (locate_concat hp h).1]
  constructor
  · intro hfolder
    simp only [hfolder]
  · intro octets hfile
    simp only [hfile]

end

end FileTree

end McdocSchema
