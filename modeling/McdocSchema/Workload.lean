import McdocSchema.CommandLine
import McdocSchema.Remote.Retrieval

/-!
# Workloads

Runs of the library over documents of its own, made longer by repetition, that count what comes out.
The documents are copies of one sample with a short ending, so that a count tells how many copies
there were.
-/

namespace McdocSchema.Workload

/-! ## Documents -/

/-- The lines of the sample: aliases of most sorts of types, structs, enumerations and dispatches. -/
def sampleLines : List String :=
  ["// Blocks and items", "type Id = string", "type Flag = boolean", "type Anything = any",
    "type Level = int @ 0..15", "type Chance = float @ 0..1", "type Count = short @ 1..",
    "type Offset = long", "type Tiny = byte", "type Weight = double",
    "type Name = string @ 1..64", "type Names = [string]", "type Levels = [Level] @ 1..4",
    "type Bytes = [byte @ 0..9]", "type Ints = [int] @ 3", "type Longs = [long @ 0..]",
    "type Point = (int, int)", "type Choice = (string | int)", "type Many = (Id | Flag | Level)",
    "type Fixed = \"fixed\"", "type Yes = true", "type One = 1", "type Half = 0.5f",
    "type Box<T> = [T]", "type Couple<A, B> = (A | B)", "type Boxed = Box<Id>",
    "type Ref = minecraft::block::State", "type Keyed = Ref[id]", "type Special = Ref[%key]",
    "type Nested = [[Choice]]", "type Empty = ()", "type Mixed = (\"a\" | \"b\" | 3)",
    "type Deep = Couple<Box<Id>, Many>", "type Range = int @ 1..<10", "type Open = float @ 5..",
    "type Long = long", "type Last = Id", "struct \x7b", "  id: Id,", "  level?: Level,",
    "  ...Ref,", "  ...Keyed", "\x7d", "struct \x7b", "  name: Name,", "  at: Point,",
    "  flag: Flag,", "  weight: Weight,", "  chance: Chance", "\x7d", "enum \x7b", "  On = 1,",
    "  Off = 0", "\x7d", "enum \x7b", "  Red,", "  Green", "\x7d",
    "dispatch item[stone, dirt] to Ref", "dispatch entity to Anything"]

def sample : String := String.join (sampleLines.map (· ++ "\n"))

/-- What stands after the copies of the sample. -/
def ending : String := "type End = any\n"

/-- A document with a number of copies of the sample. -/
def copies (count : Nat) : String :=
  String.join (List.replicate count sample) ++ ending

/-! ## Sizes

Every workload is run at three sizes; the middle one is the usual one. -/

/-- The numbers of copies for counting tokens. -/
def tokenSizes : List Nat := [8, 40, 160]

/-- The numbers of copies for counting declarations. -/
def nodeSizes : List Nat := [4, 20, 80]

/-- The numbers of copies for counting definitions. -/
def definitionSizes : List Nat := [6, 30, 120]

/-- The numbers of documents for compiling a folder. -/
def folderSizes : List Nat := [4, 12, 32]

/-- The numbers of documents for running the command. -/
def commandSizes : List Nat := [2, 10, 30]

/-- The usual one of some sizes. -/
def usualSize (sizes : List Nat) : Nat := sizes.getD 1 0

/-! ## Counts -/

/-- The tokens of a document with copies of the sample. -/
def tokens (count : Nat) : Nat :=
  match Token.scan (copies count) with
  | .ok ts => ts.length
  | .error _ => 0

/-- A document with copies of the sample and its declarations. -/
def nodes (count : Nat) : Nat :=
  match Document.ofString (copies count) with
  | .ok doc => 1 + doc.declarations.length
  | .error _ => 0

/-- The definitions of a document with copies of the sample. -/
def definitions (count : Nat) : Nat :=
  match (({} : Generator).compile (copies count)).1 with
  | .ok schema =>
    match schema.field? "definitions" with
    | some (.object fields) => fields.length
    | _ => 0
  | .error _ => 0

/-! ## Folders -/

/-- A tree with a folder of documents. -/
def folderTree (count : Nat) : FileTree :=
  let entry (i : Nat) : Place × Entry :=
    (["in", "part" ++ toString i ++ ".mcdoc"], .file (Text.Utf8.encode (copies 1)))
  { entries := (["in"], .folder) :: (List.range count).map entry }

/-- The files of a folder at the top of a tree. -/
def filesIn (tree : FileTree) (folder : String) : List (List UInt8) :=
  tree.entries.filterMap fun
    | ([top, _], .file octets) => if top == folder then some octets else none
    | _ => none

/-- The schema files after a folder of documents was compiled, and those of them with something in
them. -/
def schemaFiles (count : Nat) : List Nat :=
  let session : Session := { tree := folderTree count }
  let files := filesIn (session.compileFolder ⟨"", ["in"]⟩ ⟨"", ["out"]⟩).2.tree "out"
  [files.length, (files.filter fun octets => octets != Text.Utf8.encode "\x7b\x7d").length]

/-- A host with a collection of one document. -/
def host : Remote.Host :=
  let item := Json.object [("type", .string "file"), ("path", .string "java/a.mcdoc")]
  [(Remote.listingUrl "java" "main", { listing := .array [item] }),
    (Remote.fileUrl "java/a.mcdoc" "main", { content := Text.Utf8.encode "type X = any\n" })]

/-- A tree after the collection was retrieved into it. -/
def withCollection (tree : FileTree) : FileTree :=
  (Remote.Retrieval.everything host { tree }).2.tree

/-- How often the command refuses bad arguments, and the schema files after it was given good ones. -/
def commandFiles (count : Nat) : List Nat :=
  let session : Session := { tree := folderTree count }
  let refused := [[], ["missing", "out"]].filter fun arguments =>
    (session.runCommand arguments).1 = .refused
  let after := (session.runCommand ["in", "out"]).2.tree
  [refused.length, (filesIn after "out").length]

end McdocSchema.Workload
