import McdocSchema.Bench
import McdocSchema.Json.Printer
import McdocSchema.Json.Reader

/-!
# Measuring coverage

Runs all benches under a coverage tool, notes in the report of the tool which benches failed and how
many there are, and prints a summary. The tool is known by what is asked of it.
-/

namespace McdocSchema.Coverage

open Number (Binary64)

/-- What is asked of the coverage tool. -/
inductive Request
  /-- To measure the code below some folders, but for files that match a pattern. -/
  | create (sources : List String) (leftOut : Json)
  | start
  | stop
  /-- To write its report to a file, whatever cannot be read. -/
  | report (file : String)

/-- Why a measurement ends early. -/
inductive Fault
  | tooFewArguments
  | patterns (fault : Json.Fault)
  | file (fault : FileFault)
  | missing (key : String)

def Fault.message : Fault → String
  | .tooFewArguments => "list index out of range"
  | .patterns fault => fault.message
  | .file fault => fault.message
  | .missing key => Text.quoted key

/-- What a measurement leaves. -/
structure Run where
  requests : List Request := []
  /-- The text of the report after the measurement. -/
  report : Option String := none
  printed : String := ""
  fault : Option Fault := none

/-- The benches that fail, with what they raise. -/
def failures (benches : List Bench) : Fields Json :=
  (benchesIn benches).filterMap fun b =>
    match b.call 0 with
    | .raises raised => some (b.name, .string raised.report)
    | _ => none

/-- The failures of a module and the number of its benches. A module that cannot be loaded has no
benches and fails as a whole. -/
def outcome : BenchModule → Fields Json × Nat
  | .broken raised => ([("<import>", .string raised.report)], 0)
  | .loaded benches => (failures benches, (benchesIn benches).length)

/-- The fields of an object; other values have none. -/
def fieldsOf : Json → Fields Json
  | .object fields => fields
  | _ => []

/-- The report with the failures and the number of benches noted in it. -/
def annotate (report : Json) (failures : Fields Json) (count : Nat) : Json :=
  let fields := fieldsOf report
  let details := fieldsOf ((Fields.get? fields "meta").getD (.object []))
  let details := Fields.set "_pti_bench_errors" (.object failures) details
  let details := Fields.set "_pti_n_benches" (.int count) details
  .object (Fields.set "meta" (.object details) fields)

/-- A number as a real one. -/
def realOf : Json → Binary64
  | .real x => x
  | .int n => Binary64.ofInt n
  | _ => 0

def required (key : String) (j : Json) : Except Fault Json :=
  match j.field? key with
  | some value => .ok value
  | none => .error (.missing key)

/-- The line that sums up a report. -/
def summary (report : Json) (errors count : Nat) : Except Fault String := do
  let totals ← required "totals" report
  let percent ← required "percent_covered" totals
  let covered ← required "covered_lines" totals
  let statements ← required "num_statements" totals
  return "coverage: " ++ (realOf percent).toFixed 1 ++ "% (" ++ covered.display ++ "/"
    ++ statements.display ++ " stmts, " ++ toString count ++ " benches, " ++ toString errors
    ++ " errors)\n"

/-- Measures the benches of a module; `written` is the report that the tool writes, if any. The
arguments are the folder with the code, the name of the module, the file of the report and the
patterns of files to leave out. -/
def measure (suite : BenchModule) (written : Option Json) : List String → Run
  | folder :: _ :: file :: patterns :: _ =>
    match Json.parse patterns with
    | .error fault => { fault := some (.patterns fault) }
    | .ok leftOut =>
      let source := (Place.resolve [] folder).toPath
      let requests := [.create [source] leftOut, .start, .stop, .report file]
      match written with
      | none => { requests, fault := some (.file ⟨.notFound, file⟩) }
      | some report =>
        let (failures, count) := outcome suite
        let report := annotate report failures count
        match summary report failures.length count with
        | .ok line => { requests, report := some report.compact, printed := line }
        | .error fault => { requests, report := some report.compact, fault := some fault }
  | _ => { fault := some .tooFewArguments }

end McdocSchema.Coverage
