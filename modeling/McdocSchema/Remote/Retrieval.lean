import McdocSchema.FileTree.Written
import McdocSchema.Json.Display
import McdocSchema.Remote

/-!
# Retrieving folders

Retrieves the files of a remote folder, folder by folder in the order of the listings: a folder inside
is done where it is listed. A file or a listing that the host refuses is reported, and the rest is not
disturbed. A listing that has not the form of one ends the retrieval.
-/

namespace McdocSchema.Remote

/-- Why a retrieval ends early. -/
inductive Fault
  | file (fault : FileFault)
  | noItems (listing : Json)
  /-- The item is a value without fields. -/
  | noFields (item : Json)
  | missing (key : String)
  | filePath (path : Json)
  /-- The path of a folder is no text. -/
  | folderPath (path : Json)
  /-- A folder is listed below itself. -/
  | endless

def Fault.message : Fault → String
  | .file fault => fault.message
  | .noItems listing => "'" ++ listing.sortName ++ "' object is not iterable"
  | .noFields (.string _) => "string indices must be integers, not 'str'"
  | .noFields (.array _) => "list indices must be integers or slices, not str"
  | .noFields item => "'" ++ item.sortName ++ "' object is not subscriptable"
  | .missing key => Text.quoted key
  | .filePath path => "expected str, bytes or os.PathLike object, not " ++ path.sortName
  | .folderPath path =>
    "join() argument must be str, bytes, or os.PathLike object, not '" ++ path.sortName ++ "'"
  | .endless => "maximum recursion depth exceeded"

/-- A retrieval under way: the local tree, the requests made, and the lines printed. -/
structure Retrieval where
  tree : FileTree := {}
  requests : List Request := []
  lines : List String := []
  deriving Inhabited

namespace Retrieval

def print (r : Retrieval) (line : String) : Retrieval :=
  { r with lines := r.lines ++ [line] }

/-- All that was printed. -/
def printed (r : Retrieval) : String :=
  String.join (r.lines.map (· ++ "\n"))

/-- Notes a request. -/
def ask (r : Retrieval) (url : String) : Retrieval :=
  { r with requests := r.requests ++ [{ url := url }] }

/-- The status of an answer as lines show it. -/
def statusText (response : Response) : String :=
  "(status " ++ Number.intText response.status ++ ")"

/-- Retrieves a file into a local folder, which is made first. -/
def file (host : Host) (branch path folder : String) (r : Retrieval) :
    Except Fault Unit × Retrieval :=
  match r.tree.ensureWritten folder with
  | (.error fault, tree) => (.error (.file fault), { r with tree := tree })
  | (.ok (), tree) =>
    let url := fileUrl path branch
    let r := { r with tree := tree }.ask url
    let response := host.answer url
    if response.good then
      match tree.write (WrittenPath.join folder (WrittenPath.lastName path)) response.content with
      | .error fault => (.error (.file fault), r)
      | .ok tree => (.ok (), { r with tree := tree }.print ("Downloaded: " ++ path))
    else (.ok (), r.print ("Failed to download " ++ path ++ " " ++ statusText response))

/-- The items of a listing. The items of an object are its keys, those of a text its characters. -/
def itemsOf : Json → Except Fault (List Json)
  | .array items => .ok items
  | .object fields => .ok (fields.map fun f => .string f.1)
  | .string s => .ok (s.toList.map fun c => .string (String.singleton c))
  | listing => .error (.noItems listing)

def itemField (key : String) : Json → Except Fault Json
  | .object fields =>
    match Fields.get? fields key with
    | some value => .ok value
    | none => .error (.missing key)
  | item => .error (.noFields item)

/-- What an item asks for. -/
inductive Task
  | file (path : Json)
  | folder (path : Json)
  | nothing

/-- What an item asks for, by its sort. -/
def taskOf (item : Json) : Except Fault Task := do
  match ← itemField "type" item with
  | .string "file" => return .file (← itemField "path" item)
  | .string "dir" => return .folder (← itemField "path" item)
  | _ => return .nothing

/-- Retrieves items of a folder, `inner` being how folders inside are retrieved. -/
def items (host : Host) (branch target : String) (folder : Json)
    (inner : Json → Retrieval → Except Fault Unit × Retrieval) :
    List Json → Retrieval → Except Fault Unit × Retrieval
  | [], r => (.ok (), r)
  | item :: rest, r =>
    let done : Except Fault Unit × Retrieval :=
      match taskOf item with
      | .error fault => (.error fault, r)
      | .ok .nothing => (.ok (), r)
      | .ok (.folder path) => inner path r
      | .ok (.file path) =>
        match folder, path with
        | .string folder, .string path => file host branch path (WrittenPath.join target folder) r
        | .string _, path => (.error (.filePath path), r)
        | folder, _ => (.error (.folderPath folder), r)
    match done with
    | (.error fault, r) => (.error fault, r)
    | (.ok (), r) => items host branch target folder inner rest r

/-- Retrieves a folder and the folders in it, down to a depth. -/
def folderDown (host : Host) (branch target : String) :
    Nat → Json → Retrieval → Except Fault Unit × Retrieval
  | 0, _, r => (.error .endless, r)
  | depth + 1, folder, r =>
    let url := listingUrl folder.display branch
    let r := r.ask url
    let response := host.answer url
    if response.good then
      match itemsOf response.listing with
      | .error fault => (.error fault, r)
      | .ok list => items host branch target folder (folderDown host branch target depth) list r
    else
      (.ok (), r.print
        ("Failed to list contents of folder " ++ folder.display ++ " " ++ statusText response))

/-- Retrieves a folder and the folders in it. A good answer comes from the table, so folders that are
nested deeper than the table is long have one that is listed below itself. -/
def folder (host : Host) (path branch target : String) (r : Retrieval) :
    Except Fault Unit × Retrieval :=
  folderDown host branch target (host.length + 2) (.string path) r

/-- Retrieves the folder with all documents to where the run started. -/
def everything (host : Host) (r : Retrieval) : Except Fault Unit × Retrieval :=
  folder host "java" "main" "." (r.print "Downloading folder...")

end Retrieval

end McdocSchema.Remote
