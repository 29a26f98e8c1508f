import McdocSchema.CommandLine

/-!
# The program

Reads the two folders into a tree, runs the command on the tree, and writes what has changed in it.
-/

namespace McdocSchema.Program

/-- The entry at a place of the system and all that is below it. -/
partial def load (place : Place) : IO (List (Place × Entry)) := do
  let path := (← IO.currentDir) / place.toPath
  if ← path.isDir then
    let inner ← (← path.readDir).toList.mapM fun e => load (place ++ [e.fileName])
    return (place, .folder) :: inner.flatten
  else if ← path.pathExists then
    return [(place, .file (← IO.FS.readBinFile path).toList)]
  else return []

/-- The places that a path passes, the last one included. -/
def passed (place : Place) : List Place :=
  (List.range place.length).map fun n => place.take (n + 1)

/-- The entry at a place of the system, without what is below it. -/
def look (place : Place) : IO (List (Place × Entry)) := do
  let path := (← IO.currentDir) / place.toPath
  if ← path.isDir then return [(place, .folder)]
  else if ← path.pathExists then return [(place, .file [])]
  else return []

/-- The tree with the working folder and what the arguments lead to. -/
def loadTree (arguments : List String) : IO FileTree := do
  let here := Place.resolve [] (← IO.currentDir).toString
  let places := arguments.map fun a => Place.resolve here a
  let onTheWay ← (here :: places).mapM fun place => (passed place.dropLast).mapM look
  let loaded ← places.mapM load
  let below ← look here
  let tree : FileTree := { here }
  return (onTheWay.flatten.flatten ++ below ++ loaded.flatten).foldl
    (fun t e => t.put e.1 e.2) tree

/-- Writes the entries of a tree that differ from those of an earlier one, folders first. -/
def store (before after : FileTree) : IO Unit := do
  for (place, entry) in after.sorted do
    if before.at? place != some entry then
      match entry with
      | .folder => IO.FS.createDirAll (place.toPath)
      | .file octets => IO.FS.writeBinFile (place.toPath) ⟨octets.toArray⟩

end McdocSchema.Program

open McdocSchema in
/-- Compiles the documents of a folder. -/
def main (arguments : List String) : IO UInt32 := do
  let tree ← if arguments.length = 2 then Program.loadTree arguments else pure {}
  let (ending, session) := ({ tree } : Session).runCommand arguments
  Program.store tree session.tree
  IO.print session.printed
  if let .failed fault := ending then IO.eprintln fault.message
  return ending.exitCode.toUInt32
