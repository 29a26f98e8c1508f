import McdocSchema.FileTree

/-!
# Paths in normal form

A path in normal form has no empty names and no single dots. It is written with slashes between its
names, and as a dot if it has none. Two dots stay: they depend on the tree.
-/

namespace McdocSchema

/-- A path: what stands in front of the first name, and the names. -/
structure Path where
  root : String
  names : List String
  deriving DecidableEq, Repr, Inhabited

namespace Path

/-- The root of a path: two slashes are kept, any other number of them is one. -/
def rootOf (text : String) : String :=
  let slashes := text.toList.takeWhile (· == '/')
  if slashes.length = 0 then "" else if slashes.length = 2 then "//" else "/"

/-- The path that a text stands for. -/
def ofString (text : String) : Path :=
  ⟨rootOf text, (Place.parts text).filter fun name => name != "" && name != "."⟩

/-- The text of a path. -/
def toString (p : Path) : String :=
  if p.root.isEmpty && p.names.isEmpty then "." else p.root ++ "/".intercalate p.names

/-- The path of an entry below a path. -/
def join (p : Path) (names : List String) : Path :=
  { p with names := p.names ++ names }

/-- The path of the folder that holds a path; the top holds itself. -/
def parent (p : Path) : Path :=
  { p with names := p.names.dropLast }

/-- A name without its last extension. A dot at the start or at the end of a name starts no
extension. -/
def stem (name : String) : String :=
  let ending := name.toList.reverse.takeWhile (· != '.')
  let front := (name.toList.reverse.drop (ending.length + 1)).reverse
  if ending.isEmpty || front.isEmpty || ending.length = name.length then name
  else String.ofList front

/-- The names of an entry with the last extension of the last one replaced. -/
def withExtension (extension : String) : List String → List String
  | [] => []
  | [name] => [stem name ++ extension]
  | name :: names => name :: withExtension extension names

end Path

namespace FileTree

/-- Makes a folder that may be there already. -/
def ensureFolder (tree : FileTree) (path : Path) : Except FileFault FileTree :=
  match tree.makeFolder path.toString with
  | .ok tree => .ok tree
  | .error fault => if tree.hasFolder path.toString then .ok tree else .error fault

/-- Makes a folder and the folders that lead to it, as far as they are missing. The fuel is the
number of names. -/
def ensureFoldersFrom (tree : FileTree) (path : Path) : Nat → Except FileFault FileTree × FileTree
  | 0 => (tree.ensureFolder path, tree)
  | fuel + 1 =>
    match tree.ensureFolder path with
    | .ok tree' => (.ok tree', tree')
    | .error fault =>
      if fault.cause == .notFound && path.parent != path then
        match ensureFoldersFrom tree path.parent fuel with
        | (.error fault, tree') => (.error fault, tree')
        | (.ok tree', _) => (tree'.ensureFolder path, tree')
      else (.error fault, tree)

/-- Makes a folder and the folders that lead to it, as far as they are missing. Folders that were
made before a failure stay. -/
def ensureFolders (tree : FileTree) (path : Path) : Except FileFault Unit × FileTree :=
  match tree.ensureFoldersFrom path path.names.length with
  | (.ok tree', _) => (.ok (), tree')
  | (.error fault, tree') => (.error fault, tree')

end FileTree

end McdocSchema
