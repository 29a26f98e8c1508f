import McdocSchema.Text.Quoted
import McdocSchema.Text.Utf8

/-!
# File trees

A tree of folders and files, as the list of its entries under the names that lead to them from the
top. The top is always there. Paths are texts with slashes: a path is followed name by name, every
name but the last has to lead to a folder, and two dots lead one folder up.
-/

namespace McdocSchema

/-- What stands at a place of a tree. -/
inductive Entry
  | folder
  | file (octets : List UInt8)
  deriving DecidableEq, Repr

/-- Why an operation on a tree fails. -/
inductive FileCause
  | notFound | exists | notFolder | isFolder
  /-- The path holds the character zero. -/
  | zeroInPath
  deriving DecidableEq, Repr

/-- A failed operation, with the path that was given for it. -/
structure FileFault where
  cause : FileCause
  path : String
  deriving DecidableEq, Repr

def FileFault.message (f : FileFault) : String :=
  let shown := ": " ++ Text.quoted f.path
  match f.cause with
  | .notFound => "[Errno 2] No such file or directory" ++ shown
  | .exists => "[Errno 17] File exists" ++ shown
  | .notFolder => "[Errno 20] Not a directory" ++ shown
  | .isFolder => "[Errno 21] Is a directory" ++ shown
  | .zeroInPath => "embedded null byte"

/-- The names that lead to a place from the top of a tree. -/
abbrev Place := List String

/-- A tree, and the place at which paths without a leading slash start. -/
structure FileTree where
  entries : List (Place × Entry) := []
  here : Place := []
  deriving Repr, Inhabited

namespace Place

/-- What stands between the slashes of a path, empty names included. -/
def parts (path : String) : List String :=
  (path.toList.splitOn '/').map String.ofList

/-- Follows a name from a place, without a look at any tree. -/
def step (place : Place) (name : String) : Place :=
  if name.isEmpty || name == "." then place
  else if name == ".." then place.dropLast
  else place ++ [name]

/-- The place that a path names, if all names on the way are those of folders. -/
def resolve (here : Place) (path : String) : Place :=
  (parts path).foldl step (if path.startsWith "/" then [] else here)

/-- The path of a place, from the top. -/
def toPath (place : Place) : String := "/" ++ "/".intercalate place

end Place

namespace FileTree

/-! ## Looking up -/

/-- What stands at a place. -/
def at? (tree : FileTree) : Place → Option Entry
  | [] => some .folder
  | place => tree.entries.lookup place

/-- The names of a path, with a dot for a slash at its end. -/
def namesOf (path : String) : List String :=
  let inner := (Place.parts path).filter fun name => !name.isEmpty
  if path.endsWith "/" then inner ++ ["."] else inner

/-- Follows names from a place. A place that is left for another one has to be a folder. -/
def follow (tree : FileTree) (place : Place) : List String → Except FileCause Place
  | [] => .ok place
  | name :: names =>
    match tree.at? place with
    | none => .error .notFound
    | some (.file _) => .error .notFolder
    | some .folder =>
      if name == "." then follow tree place names
      else if name == ".." then follow tree place.dropLast names
      else follow tree (place ++ [name]) names

/-- The place that a path leads to, whether something stands there or not. -/
def locate (tree : FileTree) (path : String) : Except FileCause Place :=
  if path.contains '\x00' then .error .zeroInPath
  else if path.isEmpty then .error .notFound
  else tree.follow (if path.startsWith "/" then [] else tree.here) (namesOf path)

/-- What a path leads to. -/
def find? (tree : FileTree) (path : String) : Option Entry :=
  match tree.locate path with
  | .ok place => tree.at? place
  | .error _ => none

/-- Whether a path leads to something. -/
def has (tree : FileTree) (path : String) : Bool :=
  (tree.find? path).isSome

/-- Whether a path leads to a folder. -/
def hasFolder (tree : FileTree) (path : String) : Bool :=
  tree.find? path == some .folder

/-- The octets of the file that a path leads to. -/
def read (tree : FileTree) (path : String) : Except FileFault (List UInt8) :=
  match tree.locate path with
  | .error cause => .error ⟨cause, path⟩
  | .ok place =>
    match tree.at? place with
    | none => .error ⟨.notFound, path⟩
    | some .folder => .error ⟨.isFolder, path⟩
    | some (.file octets) => .ok octets

/-! ## Changing -/

def put (tree : FileTree) (place : Place) (entry : Entry) : FileTree :=
  { tree with entries := (place, entry) :: tree.entries.filter fun e => e.1 != place }

/-- A path without the slashes at its end; a path of slashes alone keeps one. -/
def withoutEndSlashes (path : String) : String :=
  let kept := (path.toList.reverse.dropWhile (· == '/')).reverse
  if kept.isEmpty then String.ofList (path.toList.take 1) else String.ofList kept

/-- Makes a folder where nothing stands yet. Slashes at the end of the path mean nothing here. -/
def makeFolder (tree : FileTree) (path : String) : Except FileFault FileTree :=
  match tree.locate (withoutEndSlashes path) with
  | .error cause => .error ⟨cause, path⟩
  | .ok place =>
    match tree.at? place with
    | some _ => .error ⟨.exists, path⟩
    | none => .ok (tree.put place .folder)

/-- Writes a file, in place of one that stands there. A path with a slash at its end is that of a
folder. -/
def write (tree : FileTree) (path : String) (octets : List UInt8) : Except FileFault FileTree :=
  match tree.locate (withoutEndSlashes path) with
  | .error cause => .error ⟨cause, path⟩
  | .ok place =>
    if path.endsWith "/" || tree.at? place == some .folder then .error ⟨.isFolder, path⟩
    else .ok (tree.put place (.file octets))

/-! ## Order -/

/-- The order of places: name by name, each by its characters. -/
def placeLe : Place → Place → Bool
  | [], _ => true
  | _ :: _, [] => false
  | a :: as, b :: bs => if a == b then placeLe as bs else a < b

/-- The entries in the order of their places. -/
def sorted (tree : FileTree) : List (Place × Entry) :=
  tree.entries.mergeSort fun a b => placeLe a.1 b.1

/-- The places below a place, seen from it, in their order. -/
def below (tree : FileTree) (place : Place) : List Place :=
  tree.sorted.filterMap fun (p, _) =>
    if place.isPrefixOf p && p.length != place.length then some (p.drop place.length) else none

end FileTree

end McdocSchema
