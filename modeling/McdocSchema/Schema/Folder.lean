import McdocSchema.FileTree.Path
import McdocSchema.Json.Printer
import McdocSchema.Schema.Definitions

/-!
# The schemas of a folder

Every entry below a folder whose name ends in `.mcdoc` gets a file with its schema at the same place
below another folder. An entry without a schema gets an empty object, and a line tells why; the
entries after it are not disturbed. What is compiled is settled before the first schema is written.
-/

namespace McdocSchema

/-- Why an entry has no schema. -/
inductive EntryFault
  | unreadable (fault : FileFault)
  | notText (fault : Text.Utf8.Fault)
  | invalid (fault : CompileFault)

namespace EntryFault

def message : EntryFault → String
  | .unreadable fault => fault.message
  | .notText fault => fault.message
  | .invalid fault => fault.message

/-- Whether a fault is about the form of the document, and so one to be expected. -/
def expected : EntryFault → Bool
  | .invalid (.document (.scan _)) => true
  | .invalid (.document (.parse (.misplaced ..))) => true
  | _ => false

/-- The line that tells of a fault. -/
def report (fault : EntryFault) (path : Path) : String :=
  (if fault.expected then "Error compiling " else "Unexpected error compiling ") ++
    path.toString ++ ": " ++ fault.message

end EntryFault

/-- The text of a file, whatever ends its lines. -/
def FileTree.readText (tree : FileTree) (path : String) : Except EntryFault String :=
  match tree.read path with
  | .error fault => .error (.unreadable fault)
  | .ok octets =>
    match Text.Utf8.decode octets with
    | .error fault => .error (.notText fault)
    | .ok cs => .ok (String.ofList (Text.unifyLines cs))

/-- What a run over files has to do with: the tree, the generator that the files share, and the
lines printed so far. -/
structure Session where
  tree : FileTree := {}
  generator : Generator := {}
  lines : List String := []
  deriving Inhabited

namespace Session

def print (s : Session) (line : String) : Session :=
  { s with lines := s.lines ++ [line] }

/-- All that was printed. -/
def printed (s : Session) : String :=
  String.join (s.lines.map (· ++ "\n"))

/-- The schema of a file. -/
def schemaOf (s : Session) (path : Path) : Except EntryFault Json × Session :=
  match s.tree.readText path.toString with
  | .error fault => (.error fault, s)
  | .ok text =>
    match s.generator.compile text with
    | (.ok schema, g) => (.ok schema, { s with generator := g })
    | (.error fault, g) => (.error (.invalid fault), { s with generator := g })

/-- The schema of a file, or an empty object and a line that tells why there is none. -/
def compileFile (s : Session) (path : Path) : Json × Session :=
  match s.schemaOf path with
  | (.ok schema, s) => (schema, s)
  | (.error fault, s) => (.object [], s.print (fault.report path))

/-- The extension of the files that are compiled. -/
def sourceExtension : String := ".mcdoc"

/-- The extension of the files that are written. -/
def schemaExtension : String := ".json"

/-- The entries to compile below a folder. A folder that is not there has none. -/
def sources (tree : FileTree) (input : Path) : List Place :=
  match tree.locate input.toString with
  | .error _ => []
  | .ok place =>
    if tree.at? place == some .folder then
      (tree.below place).filter fun names => (names.getLastD "").endsWith sourceExtension
    else []

/-- The path of the schema of an entry. -/
def schemaPath (output : Path) (names : Place) : Path :=
  output.join (Path.withExtension schemaExtension names)

/-- Compiles an entry and writes its schema. -/
def compileEntry (s : Session) (input output : Path) (names : Place) :
    Except FileFault Unit × Session :=
  let path := input.join names
  let target := schemaPath output names
  let (schema, s) := (s.print ("Compiling " ++ path.toString)).compileFile path
  match s.tree.ensureFolders target.parent with
  | (.error fault, tree) => (.error fault, { s with tree := tree })
  | (.ok (), tree) =>
    match tree.write target.toString (Text.Utf8.encode schema.pretty) with
    | .error fault => (.error fault, { s with tree := tree })
    | .ok tree =>
      (.ok (), { s with tree := tree }.print ("Generated " ++ target.toString))

/-- Compiles entries one after the other, up to the first schema that cannot be written. -/
def compileEntries (s : Session) (input output : Path) :
    List Place → Except FileFault Unit × Session
  | [] => (.ok (), s)
  | names :: rest =>
    match s.compileEntry input output names with
    | (.error fault, s) => (.error fault, s)
    | (.ok (), s) => compileEntries s input output rest

/-- Compiles all entries below a folder. -/
def compileFolder (s : Session) (input output : Path) : Except FileFault Unit × Session :=
  match s.tree.ensureFolders output with
  | (.error fault, tree) => (.error fault, { s with tree := tree })
  | (.ok (), tree) => { s with tree := tree }.compileEntries input output (sources tree input)

end Session

end McdocSchema
