import McdocSchema.FileTree
import McdocSchema.Number.Binary64

/-!
# Frames of a profile

A frame is a function that ran, by the path of its file, with the time spent in it. The measured code
is the code of the repository: not the benches, not the measuring tools, and not the code of others
that lies in the repository.
-/

namespace McdocSchema

open Number (Binary64)

/-- A frame of a profile. -/
structure Frame where
  path : String
  time : Binary64

/-- Where things lie when a profile is taken. -/
structure Site where
  repository : Place := ["repo"]
  benches : Place := ["repo", "microbench.py"]
  /-- Where paths without a leading slash start. -/
  here : Place := []

namespace Site

/-- The site of a tool that runs inside the repository. -/
def inside : Site := { here := ["repo"] }

/-- The names of folders that hold the code of others. -/
def foreignFolders : List String :=
  ["venv", ".venv", "vendor", "third_party", "site-packages", "node_modules", "build", "dist",
    ".tox", ".eggs", ".git", "__pycache__"]

/-- Whether a folder holds the code of others. -/
def isForeign (folder : String) : Bool :=
  foreignFolders.contains folder || folder.endsWith ".egg-info"

/-- How names of the measuring tools start. -/
def toolMark : String := "_pti_"

/-- Whether a path is that of a file of the measured code. -/
def isMeasured (site : Site) (path : String) : Bool :=
  if path.isEmpty || path.startsWith "~" || path.startsWith "<" then false
  else
    let place := Place.resolve site.here path
    let inner := place.drop site.repository.length
    site.repository.isPrefixOf place && !inner.isEmpty && place != site.benches &&
      !(place.getLastD "").startsWith toolMark && !inner.dropLast.any isForeign

/-- Whether a path is that of compiled code. -/
def isCompiled (path : String) : Bool :=
  path == "~" || path.endsWith ".so" || path.endsWith ".pyd"

/-- The name under which the time of a file outside the measured code is shown. -/
def label (site : Site) (path : String) : String :=
  if path == "~" then "builtins"
  else if !path.isEmpty && Place.resolve site.here path == site.benches then "<run() body>"
  else
    let name := (path.toList.reverse.takeWhile (· != '/')).reverse
    let stem := if name.drop (name.length - 3) == ".py".toList then name.take (name.length - 3) else name
    if stem.isEmpty then path else String.ofList stem

end Site

/-- The time of frames, added in their order. -/
def totalTime (frames : List Frame) : Binary64 :=
  frames.foldl (fun t f => t + f.time) 0

end McdocSchema
