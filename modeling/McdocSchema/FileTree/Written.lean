import McdocSchema.FileTree

/-!
# Paths as they are written

Operations on the text of a path that leave everything in it as it is written: empty names, dots and
slashes at the end.
-/

namespace McdocSchema

namespace WrittenPath

/-- The path of an entry below a folder. A path with a leading slash does not depend on the folder. -/
def join (folder path : String) : String :=
  if path.startsWith "/" then path
  else if folder.isEmpty || folder.endsWith "/" then folder ++ path
  else folder ++ "/" ++ path

/-- What follows the last slash of a path. -/
def lastName (path : String) : String :=
  String.ofList (path.toList.reverse.takeWhile (· != '/')).reverse

/-- What stands before the last slash of a path, without further slashes at its end, unless it is
made of slashes alone. -/
def folder (path : String) : String :=
  let front := path.toList.reverse.dropWhile (· != '/')
  let trimmed := front.dropWhile (· == '/')
  String.ofList (if trimmed.isEmpty then front else trimmed).reverse

end WrittenPath

namespace FileTree

/-- Makes the folder of a written path, which may be there already. -/
def ensureWrittenFolder (tree : FileTree) (path : String) : Except FileFault Unit × FileTree :=
  match tree.makeFolder path with
  | .ok tree => (.ok (), tree)
  | .error fault =>
    if fault.cause != .zeroInPath && tree.hasFolder path then (.ok (), tree) else (.error fault, tree)

/-- Makes the folder of a written path after the folders that lead to it, as far as they are missing.
A folder on the way that turns out to be a file does not stop it: the next folder will. The fuel is
the length of the path. -/
def ensureWrittenFrom (tree : FileTree) (path : String) : Nat → Except FileFault Unit × FileTree
  | 0 => tree.ensureWrittenFolder path
  | fuel + 1 =>
    let path' := if (WrittenPath.lastName path).isEmpty then WrittenPath.folder path else path
    let name := WrittenPath.lastName path'
    let folder := WrittenPath.folder path'
    if !folder.isEmpty && !name.isEmpty && !tree.has folder then
      match ensureWrittenFrom tree folder fuel with
      | (.ok (), tree') =>
        if name == "." then (.ok (), tree') else tree'.ensureWrittenFolder path
      | (.error fault, tree') =>
        if fault.cause != .exists then (.error fault, tree')
        else if name == "." then (.ok (), tree')
        else tree'.ensureWrittenFolder path
    else tree.ensureWrittenFolder path

/-- Makes the folder of a written path and the folders that lead to it, as far as they are missing. -/
def ensureWritten (tree : FileTree) (path : String) : Except FileFault Unit × FileTree :=
  tree.ensureWrittenFrom path path.length

end FileTree

end McdocSchema
